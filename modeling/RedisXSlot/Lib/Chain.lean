import Mathlib

/-! Singly linked chains in a heap.

A heap gives every node at most one successor. `Links next x xs` says that following
`next` from `x` visits exactly `xs` and then ends. The two pointer updates of a linked
list, splicing a node in behind `u` and out from behind `u`, are `splice` and `unsplice`;
a search is `advance`, which walks while the next node satisfies a test, under fuel that
any bound on the chain's length provides. -/
namespace Chain
variable {N : Type}

/-- Following `next` from `x` visits exactly the nodes of `xs`, in order, and ends. -/
def Links (next : N → Option N) : N → List N → Prop
  | x, [] => next x = none
  | x, y :: ys => next x = some y ∧ Links next y ys

@[simp] theorem links_nil {next : N → Option N} {x : N} : Links next x [] ↔ next x = none := Iff.rfl

@[simp] theorem links_cons {next : N → Option N} {x y : N} {ys : List N} :
    Links next x (y :: ys) ↔ next x = some y ∧ Links next y ys := Iff.rfl

theorem Links.next_eq {next : N → Option N} {x : N} {xs : List N} (h : Links next x xs) :
    next x = xs.head? := by
  cases xs with
  | nil => exact h
  | cons y ys => exact h.1

/-- Only the successors of the visited nodes matter. -/
theorem Links.congr {next next' : N → Option N} {x : N} {xs : List N} (h : Links next x xs)
    (heq : ∀ y ∈ x :: xs, next' y = next y) : Links next' x xs := by
  induction xs generalizing x with
  | nil => exact (heq x (List.mem_cons_self ..)).trans h
  | cons y ys ih =>
    exact ⟨(heq x (List.mem_cons_self ..)).trans h.1,
      ih h.2 fun z hz => heq z (List.mem_cons_of_mem x hz)⟩

/-- The last node of a chain that starts at `x`: `x` itself when nothing follows. -/
def last : N → List N → N
  | x, [] => x
  | _, y :: ys => last y ys

@[simp] theorem last_nil (x : N) : last x [] = x := rfl
@[simp] theorem last_cons (x y : N) (ys : List N) : last x (y :: ys) = last y ys := rfl

theorem last_mem (x : N) (xs : List N) : last x xs ∈ x :: xs := by
  induction xs generalizing x with
  | nil => exact List.mem_singleton.mpr rfl
  | cons y ys ih => exact List.mem_cons_of_mem x (ih y)

theorem last_append_singleton (x y : N) (xs : List N) : last x (xs ++ [y]) = y := by
  induction xs generalizing x with
  | nil => rfl
  | cons z zs ih => exact ih z

theorem last_eq_getD (x : N) (xs : List N) : last x xs = xs.getLast?.getD x := by
  induction xs generalizing x with
  | nil => rfl
  | cons y ys ih => rw [last_cons, ih, List.getLast?_cons, Option.getD_some]

/-- From the last node of a part on, the rest follows. -/
theorem Links.tail {next : N → Option N} {x : N} {xs ys : List N} (h : Links next x (xs ++ ys)) :
    Links next (last x xs) ys := by
  induction xs generalizing x with
  | nil => exact h
  | cons z zs ih => exact ih h.2

/-- The successor of the last node of a part is the head of the rest. -/
theorem Links.next_last {next : N → Option N} {x : N} {xs ys : List N} (h : Links next x (xs ++ ys)) :
    next (last x xs) = ys.head? := h.tail.next_eq

section Update
variable [DecidableEq N]

/-- The chain of `n` enters behind `u`: `n` takes over `u`'s successor, `u` points to `n`. -/
def splice (next : N → Option N) (u n : N) : N → Option N :=
  fun z => if z = n then next u else if z = u then some n else next z

/-- `n` leaves from behind `u`: `u` takes over `n`'s successor. -/
def unsplice (next : N → Option N) (u n : N) : N → Option N :=
  fun z => if z = u then next n else next z

theorem links_splice {next : N → Option N} {x n : N} {pre suf : List N}
    (h : Links next x (pre ++ suf)) (hn : n ∉ x :: (pre ++ suf)) (hd : (x :: (pre ++ suf)).Nodup) :
    Links (splice next (last x pre) n) x (pre ++ n :: suf) := by
  induction pre generalizing x with
  | nil =>
    have hxn : x ≠ n := fun he => hn (he ▸ List.mem_cons_self ..)
    have hsuf : Links next x suf := h
    refine ⟨by simp [splice, hxn], ?_⟩
    cases suf with
    | nil => simpa [splice] using hsuf
    | cons y ys =>
      refine ⟨by simpa [splice] using hsuf.1, hsuf.2.congr fun z hz => ?_⟩
      have hzn : z ≠ n := fun he => hn (he ▸ List.mem_cons_of_mem x hz)
      have hzx : z ≠ x := fun he => (List.nodup_cons.mp hd).1 (he ▸ hz)
      simp [splice, hzn, hzx]
  | cons p pre ih =>
    obtain ⟨hp, hrest⟩ := h
    have hxn : x ≠ n := fun he => hn (he ▸ List.mem_cons_self ..)
    have hd' := List.nodup_cons.mp hd
    have hxu : x ≠ last p pre := by
      intro he
      apply hd'.1
      have hm := last_mem p pre
      rw [← he] at hm
      exact List.mem_append_left suf (by simpa using hm)
    rw [last_cons]
    exact ⟨by simp [splice, hxn, hxu, hp], ih hrest (fun hm => hn (List.mem_cons_of_mem x hm)) hd'.2⟩

theorem links_unsplice {next : N → Option N} {x n : N} {pre suf : List N}
    (h : Links next x (pre ++ n :: suf)) (hd : (x :: (pre ++ n :: suf)).Nodup) :
    Links (unsplice next (last x pre) n) x (pre ++ suf) := by
  induction pre generalizing x with
  | nil =>
    obtain ⟨-, hsuf⟩ := h
    have hd' := List.nodup_cons.mp hd
    cases suf with
    | nil => simpa [unsplice] using hsuf
    | cons y ys =>
      refine ⟨by simpa [unsplice] using hsuf.1, hsuf.2.congr fun z hz => ?_⟩
      have hzx : z ≠ x := fun he => hd'.1 (he ▸ List.mem_cons_of_mem n hz)
      simp [unsplice, hzx]
  | cons p pre ih =>
    obtain ⟨hp, hrest⟩ := h
    have hd' := List.nodup_cons.mp hd
    have hxu : x ≠ last p pre := by
      intro he
      apply hd'.1
      have hm := last_mem p pre
      rw [← he] at hm
      exact List.mem_append_left (n :: suf) (by simpa using hm)
    rw [last_cons]
    exact ⟨by simp [unsplice, hxu, hp], ih hrest hd'.2⟩

end Update

/-! ### Backward links -/

/-- The backward links of the nodes `xs`, of which the first has `u` before it. -/
def Backs (back : N → Option N) : Option N → List N → Prop
  | _, [] => True
  | u, x :: xs => back x = u ∧ Backs back (some x) xs

@[simp] theorem backs_nil {back : N → Option N} {u : Option N} : Backs back u [] := trivial

@[simp] theorem backs_cons {back : N → Option N} {u : Option N} {x : N} {xs : List N} :
    Backs back u (x :: xs) ↔ back x = u ∧ Backs back (some x) xs := Iff.rfl

theorem backs_append {back : N → Option N} {u : Option N} {xs ys : List N} :
    Backs back u (xs ++ ys) ↔ Backs back u xs ∧ Backs back (xs.getLast?.or u) ys := by
  induction xs generalizing u with
  | nil => simp
  | cons x xs ih =>
    rw [List.cons_append, backs_cons, ih, backs_cons, List.getLast?_cons, and_assoc]
    cases xs.getLast? <;> rfl

theorem Backs.congr {back back' : N → Option N} {u : Option N} {xs : List N} (h : Backs back u xs)
    (heq : ∀ x ∈ xs, back' x = back x) : Backs back' u xs := by
  induction xs generalizing u with
  | nil => trivial
  | cons x xs ih =>
    exact ⟨(heq x (List.mem_cons_self ..)).trans h.1, ih h.2 fun y hy => heq y (List.mem_cons_of_mem x hy)⟩

/-- The node `next`, if there is one, gets `u` before it. -/
def setBack [DecidableEq N] (back : N → Option N) (next u : Option N) : N → Option N :=
  match next with
  | some y => Function.update back y u
  | none => back

section SetBack
variable [DecidableEq N] {back : N → Option N} {u : Option N} {x : N} {xs pre suf : List N}

theorem setBack_of_not_mem (hx : x ∉ xs) (v : Option N) : setBack back xs.head? v x = back x := by
  cases xs with
  | nil => rfl
  | cons y ys => exact Function.update_of_ne (ne_of_mem_of_not_mem (List.mem_cons_self ..) hx).symm ..

theorem Backs.setBack (h : Backs back u xs) (hd : xs.Nodup) (v : Option N) :
    Backs (setBack back xs.head? v) v xs := by
  cases xs with
  | nil => trivial
  | cons y ys =>
    exact ⟨Function.update_self .., h.2.congr fun _ hz =>
      Function.update_of_ne (ne_of_mem_of_not_mem hz (List.nodup_cons.mp hd).1) ..⟩

theorem Backs.splice (h : Backs back u (pre ++ suf)) (hd : (pre ++ x :: suf).Nodup) :
    Backs (Chain.setBack (Function.update back x (pre.getLast?.or u)) suf.head? (some x)) u (pre ++ x :: suf) := by
  obtain ⟨hpre, hsuf⟩ := backs_append.mp h
  obtain ⟨-, hd', hdis⟩ := List.nodup_append.mp hd
  obtain ⟨hx, hd'⟩ := List.nodup_cons.mp hd'
  refine backs_append.mpr ⟨hpre.congr fun y hy => ?_, ?_, ?_⟩
  · rw [setBack_of_not_mem fun hm => hdis y hy y (List.mem_cons_of_mem x hm) rfl,
      Function.update_of_ne (hdis y hy x (List.mem_cons_self ..))]
  · rw [setBack_of_not_mem hx, Function.update_self]
  · exact (hsuf.congr fun y hy => Function.update_of_ne (ne_of_mem_of_not_mem hy hx) ..).setBack hd' _

theorem Backs.unsplice (h : Backs back u (pre ++ x :: suf)) (hd : (pre ++ x :: suf).Nodup) :
    back x = pre.getLast?.or u ∧ Backs (Chain.setBack back suf.head? (back x)) u (pre ++ suf) := by
  obtain ⟨hpre, hx, hsuf⟩ := backs_append.mp h
  obtain ⟨-, hd', hdis⟩ := List.nodup_append.mp hd
  refine ⟨hx, backs_append.mpr ⟨hpre.congr fun y hy => ?_, ?_⟩⟩
  · exact setBack_of_not_mem (fun hm => hdis y hy y (List.mem_cons_of_mem x hm) rfl) _
  · rw [← hx]
    exact hsuf.setBack (List.nodup_cons.mp hd').2 _

end SetBack

/-! ### Walking -/

/-- Walk from `x` while there is a next node and it satisfies `p`. -/
def advance (next : N → Option N) (p : N → Bool) : Nat → N → N
  | 0, x => x
  | fuel + 1, x =>
    match next x with
    | some y => if p y then advance next p fuel y else x
    | none => x

theorem advance_eq {next : N → Option N} {p : N → Bool} {x : N} {xs : List N} (h : Links next x xs)
    {fuel : Nat} (hf : xs.length ≤ fuel) : advance next p fuel x = last x (xs.takeWhile p) := by
  induction xs generalizing x fuel with
  | nil =>
    cases fuel with
    | zero => rfl
    | succ fuel => simp [advance, h.next_eq]
  | cons y ys ih =>
    obtain ⟨fuel, rfl⟩ : ∃ k, fuel = k + 1 := ⟨fuel - 1, by simp at hf; omega⟩
    simp only [advance, h.1, List.takeWhile_cons]
    cases hp : p y
    · rfl
    · simp only [if_true, last_cons]
      exact ih h.2 (by simpa using hf)

/-- A walk may start anywhere in the part it would pass anyway. -/
theorem advance_eq_of_mem {next : N → Option N} {p : N → Bool} {x y : N} {xs : List N}
    (h : Links next x xs) (hy : y ∈ x :: xs.takeWhile p) {fuel : Nat} (hf : xs.length ≤ fuel) :
    advance next p fuel y = last x (xs.takeWhile p) := by
  induction xs generalizing x with
  | nil =>
    obtain rfl : y = x := by simpa using hy
    exact advance_eq h hf
  | cons z zs ih =>
    by_cases hyx : y = x
    · subst hyx
      exact advance_eq h hf
    · have hy' : y ∈ (z :: zs).takeWhile p := by simpa [hyx] using hy
      have hz : p z = true := by
        by_contra hz
        simp [hz] at hy'
      rw [List.takeWhile_cons, if_pos hz] at hy' ⊢
      rw [last_cons]
      exact ih h.2 hy' (by simp at hf; omega)

/-- The nodes met from `x` on, at most `fuel` of them. -/
def collect (next : N → Option N) : Nat → N → List N
  | 0, _ => []
  | fuel + 1, x =>
    match next x with
    | some y => y :: collect next fuel y
    | none => []

theorem collect_eq {next : N → Option N} {x : N} {xs : List N} (h : Links next x xs) {fuel : Nat}
    (hf : xs.length ≤ fuel) : collect next fuel x = xs := by
  induction xs generalizing x fuel with
  | nil =>
    cases fuel with
    | zero => rfl
    | succ fuel => simp [collect, h.next_eq]
  | cons y ys ih =>
    obtain ⟨fuel, rfl⟩ : ∃ k, fuel = k + 1 := ⟨fuel - 1, by simp at hf; omega⟩
    simp only [collect, h.1, ih h.2 (by simpa using hf : ys.length ≤ fuel)]

end Chain
