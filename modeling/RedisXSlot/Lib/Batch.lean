import RedisXSlot.Lib.Interaction

/-! Batching a list by weight.

`greedy` cuts a list into consecutive batches: a new batch starts in front of an element
as soon as the weight gathered so far exceeds the limit. `batchLoop` is the same idea as
a loop of a program, with an index and an accumulator, that handles each element as it
comes and flushes at every cut; it is the plain loop over the batches
(`batchLoop_eq`). -/
namespace Batch
open Interaction

variable {α : Type}

/-- The batches of `xs`, with `cur` already gathered at weight `acc`. -/
def greedyFrom (weight : α → Nat) (limit : Nat) (cur : List α) (acc : Nat) : List α → List (List α)
  | [] => [cur]
  | x :: xs =>
    if acc > limit then cur :: greedyFrom weight limit [x] (weight x) xs
    else greedyFrom weight limit (cur ++ [x]) (acc + weight x) xs

def greedy (weight : α → Nat) (limit : Nat) (xs : List α) : List (List α) :=
  greedyFrom weight limit [] 0 xs

theorem greedyFrom_flatten (weight : α → Nat) (limit : Nat) (cur : List α) (acc : Nat) (xs : List α) :
    (greedyFrom weight limit cur acc xs).flatten = cur ++ xs := by
  induction xs generalizing cur acc with
  | nil => simp [greedyFrom]
  | cons x xs ih =>
    simp only [greedyFrom]
    split
    · simp [ih]
    · simp [ih]

/-- Nothing is lost, added or reordered. -/
theorem greedy_flatten (weight : α → Nat) (limit : Nat) (xs : List α) :
    (greedy weight limit xs).flatten = xs := greedyFrom_flatten weight limit [] 0 xs

theorem greedyFrom_ne_nil (weight : α → Nat) (limit : Nat) (cur : List α) (acc : Nat) (xs : List α)
    (hcur : cur = [] → acc = 0) (hne : cur ++ xs ≠ []) :
    ∀ b ∈ greedyFrom weight limit cur acc xs, b ≠ [] := by
  induction xs generalizing cur acc with
  | nil => simpa [greedyFrom] using hne
  | cons x xs ih =>
    simp only [greedyFrom]
    split
    next hacc =>
      intro b hb
      rcases List.mem_cons.mp hb with rfl | hb
      · intro he
        have := hcur he
        omega
      · exact ih [x] (weight x) (by simp) (by simp) b hb
    next => exact ih (cur ++ [x]) (acc + weight x) (by simp) (by simp)

/-- No batch is empty, unless the whole list is. -/
theorem greedy_ne_nil (weight : α → Nat) (limit : Nat) {xs : List α} (h : xs ≠ []) :
    ∀ b ∈ greedy weight limit xs, b ≠ [] :=
  greedyFrom_ne_nil weight limit [] 0 xs (fun _ => rfl) h

variable {C : Type} {R : C → Type} {σ : Type}
variable (put : σ → α → Prog C R σ) (flush : σ → Nat → Nat → Prog C R (Option σ))

/-- The loop over the elements: `i` is the index of the next one, `start` that of the
first one since the last flush, `acc` the weight since then. A `none` from a flush ends it. -/
def batchLoop (weight : α → Nat) (limit : Nat) :
    List α → Nat → Nat → Nat → σ → Prog C R (Option σ)
  | [], i, start, _, s => flush s start i
  | x :: xs, i, start, acc, s =>
    if acc > limit then do
      match ← flush s start i with
      | none => return none
      | some s =>
        let s ← put s x
        batchLoop weight limit xs (i + 1) i (weight x) s
    else do
      let s ← put s x
      batchLoop weight limit xs (i + 1) start (acc + weight x) s

/-- Every element of a batch in turn. -/
def putAll : List α → σ → Prog C R σ
  | [], s => return s
  | x :: xs, s => do
    let s ← put s x
    putAll xs s

/-- The plain loop over batches that start at index `start`. -/
def eachBatch : List (List α) → Nat → σ → Prog C R (Option σ)
  | [], _, s => return some s
  | b :: bs, start, s => do
    let s ← putAll put b s
    match ← flush s start (start + b.length) with
    | none => return none
    | some s => eachBatch bs (start + b.length) s

theorem putAll_append (a b : List α) (s : σ) :
    putAll put (a ++ b) s = putAll put a s >>= putAll put b := by
  induction a generalizing s with
  | nil => rfl
  | cons x a ih => simp only [List.cons_append, putAll, ih, bind_assoc]

theorem batchLoop_from (weight : α → Nat) (limit : Nat) (cur xs : List α) (start acc : Nat) (s : σ) :
    (putAll put cur s >>= fun s => batchLoop put flush weight limit xs (start + cur.length) start acc s) =
      eachBatch put flush (greedyFrom weight limit cur acc xs) start s := by
  induction xs generalizing cur start acc s with
  | nil =>
    simp only [greedyFrom, eachBatch, batchLoop]
    congr 1
    funext s
    -- A flush that is the last one only hands its result on.
    conv_lhs => rw [← bind_pure (flush s start (start + cur.length))]
    congr 1
    funext r
    cases r <;> rfl
  | cons x xs ih =>
    simp only [greedyFrom, batchLoop]
    split
    next =>
      simp only [eachBatch]
      congr 1
      funext s
      congr 1
      funext r
      cases r with
      | none => rfl
      | some s =>
        have := ih [x] (start + cur.length) (weight x) s
        simpa only [putAll, List.length_singleton, bind_assoc, pure_bind] using this
    next =>
      have := ih (cur ++ [x]) start (acc + weight x) s
      simpa only [putAll_append, putAll, List.length_append, List.length_singleton, bind_assoc,
        pure_bind, Nat.add_assoc] using this

/-- **The loop with an accumulator is the plain loop over the batches.** -/
theorem batchLoop_eq (weight : α → Nat) (limit : Nat) (xs : List α) (s : σ) :
    batchLoop put flush weight limit xs 0 0 0 s = eachBatch put flush (greedy weight limit xs) 0 s :=
  batchLoop_from put flush weight limit [] xs 0 0 s

variable {put flush} in
/-- What holds of the traces of its parts holds of the loop's, if it is kept when they are joined. -/
theorem batchLoop_all {P : List (Event C R) → Prop} (hnil : P []) (happend : ∀ t t', P t → P t' → P (t ++ t'))
    (hput : ∀ s x, Spec (put s x) fun t _ => P t) (hflush : ∀ s start i, Spec (flush s start i) fun t _ => P t)
    (weight : α → Nat) (limit : Nat) (xs : List α) (i start acc : Nat) (s : σ) :
    Spec (batchLoop put flush weight limit xs i start acc s) fun t _ => P t := by
  induction xs generalizing i start acc s with
  | nil => exact hflush s start i
  | cons x xs ih =>
    have hnext (start acc : Nat) (s : σ) : Spec (put s x >>= fun s => batchLoop put flush weight limit xs (i + 1) start acc s)
        fun t _ => P t :=
      (hput s x).bind fun t s ht => (ih (i + 1) start acc s).mono fun t' _ ht' => happend t t' ht ht'
    rw [batchLoop]
    split
    next =>
      refine (hflush s start i).bind fun t out ht => ?_
      cases out with
      | none => exact .ret (happend t [] ht hnil)
      | some s => exact (hnext i (weight x) s).mono fun t' _ ht' => happend t t' ht ht'
    next => exact hnext start (acc + weight x) s

end Batch
