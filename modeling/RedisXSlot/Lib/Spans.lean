import RedisXSlot.Lib.Chain

/-! Links that know how far they go.

The nodes of a list that pass a test form a chain. A link of the chain skips the nodes in
between; its span is the number of places it goes on, that of the last node the number of
places left. Putting a node into the list changes the spans of the new node and of the one
before it on the chain, taking one out only the latter, and a walk that adds up the spans
it passes knows the place it is at. -/
namespace Chain
variable {N : Type}

/-- How many places on the next node that passes is, or the end. -/
def gap (q : N → Bool) : List N → Nat
  | [] => 0
  | x :: xs => if q x then 1 else gap q xs + 1

theorem gap_append_of_mem {q : N → Bool} {xs : List N} {y : N} (hy : y ∈ xs) (hq : q y = true) (ys : List N) :
    gap q (xs ++ ys) = gap q xs := by
  induction xs with
  | nil => cases hy
  | cons x xs ih =>
    rw [List.cons_append, gap, gap]
    by_cases hx : q x = true
    · rw [if_pos hx, if_pos hx]
    · have hne : y ≠ x := by
        intro he
        apply hx
        rw [← he]
        exact hq
      rw [if_neg hx, if_neg hx, ih (List.mem_of_ne_of_mem hne hy)]

theorem gap_append_of_none {q : N → Bool} {xs : List N} (hxs : ∀ x ∈ xs, q x = false) (ys : List N) :
    gap q (xs ++ ys) = xs.length + gap q ys := by
  induction xs with
  | nil => exact (Nat.zero_add _).symm
  | cons x xs ih =>
    have hx : ¬ q x = true := by rw [hxs x (List.mem_cons_self ..)]; decide
    rw [List.cons_append, gap, if_neg hx, ih fun y hy => hxs y (List.mem_cons_of_mem x hy), List.length_cons]
    omega

theorem gap_cons_of_pos {q : N → Bool} {x : N} (hx : q x = true) (xs : List N) : gap q (x :: xs) = 1 := by
  rw [gap, if_pos hx]

theorem gap_cons_of_neg {q : N → Bool} {x : N} (hx : q x = false) (xs : List N) : gap q (x :: xs) = gap q xs + 1 := by
  rw [gap, if_neg (by rw [hx]; decide)]

theorem gap_congr {q q' : N → Bool} {xs : List N} (h : ∀ x ∈ xs, q x = q' x) : gap q xs = gap q' xs := by
  induction xs with
  | nil => rfl
  | cons x xs ih =>
    rw [gap, gap, h x (List.mem_cons_self ..), ih fun y hy => h y (List.mem_cons_of_mem x hy)]

/-- The chain starts at `first` and goes through the nodes of `xs` that pass; the span of
each of its nodes is the gap behind it. -/
def Spans (span : N → Nat) (q : N → Bool) (first : N) (xs : List N) : Prop :=
  ∀ pre x suf, first :: xs = pre ++ x :: suf → (pre = [] ∨ q x = true) → span x = gap q suf

theorem Spans.congr {span span' : N → Nat} {q q' : N → Bool} {first : N} {xs : List N} (h : Spans span q first xs)
    (hspan : ∀ x ∈ first :: xs, span' x = span x) (hq : ∀ x ∈ xs, q x = q' x) : Spans span' q' first xs := by
  intro pre x suf hsplit hx
  have hmem : x ∈ first :: xs := hsplit ▸ List.mem_append_right pre (List.mem_cons_self ..)
  have hsub : suf ⊆ xs := by
    cases pre with
    | nil =>
      cases hsplit
      exact List.Subset.refl _
    | cons p pre =>
      cases hsplit
      exact fun y hy => List.mem_append_right pre (List.mem_cons_of_mem x hy)
  rw [hspan x hmem, ← gap_congr fun y hy => hq y (hsub hy)]
  apply h pre x suf hsplit
  cases pre with
  | nil => exact Or.inl rfl
  | cons p pre =>
    cases hsplit
    rw [hq x (List.mem_append_right pre (List.mem_cons_self ..))]
    exact hx

/-- With no node that passes there is one link, to the end. -/
theorem spans_of_none {span : N → Nat} {q : N → Bool} {first : N} {xs : List N} (hxs : ∀ x ∈ xs, q x = false)
    (hspan : span first = xs.length) : Spans span q first xs := by
  intro pre x suf hsplit hx
  cases pre with
  | nil =>
    cases hsplit
    have hgap := gap_append_of_none hxs []
    rw [List.append_nil] at hgap
    rw [hspan, hgap]
    rfl
  | cons p pre =>
    cases hsplit
    rw [hxs x (List.mem_append_right pre (List.mem_cons_self ..))] at hx
    cases hx with
    | inl hx => cases hx
    | inr hx => cases hx

/-! ### The node a walk stops at -/

theorem last_append (x : N) (xs ys : List N) : last x (xs ++ ys) = last (last x xs) ys := by
  induction xs generalizing x with
  | nil => rfl
  | cons y xs ih => exact ih y

theorem last_mem_of_ne_nil {x : N} {xs : List N} (h : xs ≠ []) : last x xs ∈ xs := by
  cases xs with
  | nil => exact absurd rfl h
  | cons y ys => exact last_mem y ys

/-- **The last node of a part of the chain** is the one behind which none of the part passes. -/
theorem exists_last_filter (q : N → Bool) (first : N) (xs : List N) :
    ∃ pre suf, first :: xs = pre ++ last first (xs.filter q) :: suf ∧
      (pre = [] ∨ q (last first (xs.filter q)) = true) ∧ ∀ y ∈ suf, q y = false := by
  induction xs using List.reverseRecOn with
  | nil => exact ⟨[], [], rfl, Or.inl rfl, by simp⟩
  | append_singleton xs x ih =>
    rw [List.filter_append, last_append]
    cases hx : q x with
    | true =>
      rw [List.filter_cons_of_pos hx]
      exact ⟨first :: xs, [], rfl, Or.inr hx, by simp⟩
    | false =>
      obtain ⟨pre, suf, hsplit, hlast, hsuf⟩ := ih
      rw [List.filter_cons_of_neg (by rw [hx]; decide)]
      refine ⟨pre, suf ++ [x], ?_, hlast, ?_⟩
      · rw [← List.cons_append, hsplit, List.append_assoc]
        rfl
      · intro y hy
        cases List.mem_append.mp hy with
        | inl hy => exact hsuf y hy
        | inr hy => exact List.mem_singleton.mp hy ▸ hx

theorem last_filter_eq {q : N → Bool} {first x : N} {xs pre suf : List N} (h : first :: xs = pre ++ x :: suf)
    (hx : pre = [] ∨ q x = true) (hsuf : ∀ y ∈ suf, q y = false) : last first (xs.filter q) = x := by
  have hnil : suf.filter q = [] := List.filter_eq_nil_iff.mpr fun y hy => by rw [hsuf y hy]; decide
  cases pre with
  | nil =>
    injection h with hfirst hxs
    rw [hxs, hnil, last_nil, hfirst]
  | cons p pre =>
    rw [List.cons_append] at h
    injection h with hfirst hxs
    have hq : q x = true := hx.resolve_left (by simp)
    rw [hxs, List.filter_append, last_append, List.filter_cons_of_pos hq, hnil]
    rfl

theorem last_filter_ne {q : N → Bool} {first x y : N} {xs pre suf : List N} (hd : (first :: xs).Nodup)
    (h : first :: xs = pre ++ x :: suf) (hy : y ∈ suf) (hq : q y = true) : x ≠ last first (xs.filter q) := by
  obtain ⟨a, c, hsplit, -, hc⟩ := exists_last_filter q first xs
  intro he
  rw [← he] at hsplit
  have hnot : x ∉ a ∧ x ∉ c := by
    rw [hsplit] at hd
    have hparts := List.nodup_append.mp hd
    exact ⟨fun hm => hparts.2.2 x hm x (List.mem_cons_self ..) rfl, (List.nodup_cons.mp hparts.2.1).1⟩
  have heq := (List.append_cons_inj_of_notMem hnot.1 hnot.2).mp (hsplit.symm.trans h)
  rw [← heq.2.2] at hy
  rw [hc y hy] at hq
  cases hq

/-- The node before a place of the chain is in the part of the list before it. -/
theorem last_filter_mem (q : N → Bool) (first : N) (pre : List N) : last first (pre.filter q) ∈ first :: pre :=
  List.cons_subset_cons first (List.filter_subset_self pre) (last_mem ..)

/-- Where a node of the chain is in the list. -/
theorem exists_split_of_chain {q : N → Bool} {first x : N} {xs : List N} (hx : x ∈ first :: xs.filter q) :
    ∃ pre suf, xs = pre ++ suf ∧ last first (pre.filter q) = x ∧ ∃ a, first :: pre = a ++ [x] := by
  cases List.mem_cons.mp hx with
  | inl hx => exact ⟨[], xs, rfl, hx.symm, [], by rw [hx]; rfl⟩
  | inr hx =>
    obtain ⟨hmem, hq⟩ := List.mem_filter.mp hx
    obtain ⟨a, c, hsplit⟩ := List.append_of_mem hmem
    have hfirst : first :: (a ++ [x]) = (first :: a) ++ x :: [] := rfl
    exact ⟨a ++ [x], c, by rw [hsplit, List.append_assoc]; rfl, last_filter_eq hfirst (Or.inr hq) (by simp), first :: a, rfl⟩

/-! ### Putting in and taking out -/

theorem append_cons_cases {l r a c : List N} {x : N} (h : l ++ r = a ++ x :: c) :
    (∃ c', l = a ++ x :: c' ∧ c = c' ++ r) ∨ ∃ a', r = a' ++ x :: c ∧ a = l ++ a' := by
  cases List.append_eq_append_iff.mp h with
  | inl h =>
    obtain ⟨a', ha, hr⟩ := h
    exact Or.inr ⟨a', hr, ha⟩
  | inr h =>
    obtain ⟨c', hl, hc⟩ := h
    cases c' with
    | nil => exact Or.inr ⟨[], hc.symm, by rw [hl]; simp⟩
    | cons y c' =>
      cases hc
      exact Or.inl ⟨c', hl, rfl⟩

/-- The spans behind a part of the list. -/
theorem Spans.rest {span : N → Nat} {q : N → Bool} {first x : N} {pre suf a c : List N}
    (h : Spans span q first (pre ++ suf)) (hsplit : suf = a ++ x :: c) (hx : q x = true) : span x = gap q c := by
  apply h (first :: (pre ++ a)) x c _ (Or.inr hx)
  rw [hsplit, ← List.append_assoc]
  rfl

section Graft
variable [DecidableEq N] {span span' : N → Nat} {q : N → Bool} {first : N} {pre old new : List N}

/-- How many nodes are behind a node of a list. -/
theorem length_behind {l a c : List N} {x : N} (hd : l.Nodup) (h : l = a ++ x :: c) : l.length - 1 - l.idxOf x = c.length := by
  have hx : x ∉ a := by
    intro hx
    rw [h] at hd
    exact (List.nodup_append.mp hd).2.2 x hx x (List.mem_cons_self ..) rfl
  rw [h, List.idxOf_append_of_notMem hx, List.idxOf_cons_self, List.length_append, List.length_cons]
  omega

/-- The span of the last link of a part reaches over what is behind it there. -/
theorem Spans.last_eq (h : Spans span q first (pre ++ old)) (hd : (first :: pre).Nodup) :
    span (last first (pre.filter q)) =
      pre.length - (first :: pre).idxOf (last first (pre.filter q)) + gap q old := by
  obtain ⟨a, c, hsplit, hlast, hc⟩ := exists_last_filter q first pre
  have hlen := length_behind hd hsplit
  rw [List.length_cons, Nat.add_sub_cancel] at hlen
  rw [hlen, ← gap_append_of_none hc]
  apply h a _ (c ++ old) _ hlast
  rw [← List.cons_append, hsplit, List.append_assoc]
  rfl

/-- **What follows a part of the list may be exchanged**: the last link of the part is set to
reach into the new rest, and the other links of the part stay. -/
theorem Spans.graft (h : Spans span q first (pre ++ old)) (hd : (first :: pre).Nodup)
    (hlink : span' (last first (pre.filter q)) =
      pre.length - (first :: pre).idxOf (last first (pre.filter q)) + gap q new)
    (hkeep : ∀ x ∈ first :: pre, x ≠ last first (pre.filter q) → span' x = span x)
    (hnew : ∀ a x c, new = a ++ x :: c → q x = true → span' x = gap q c) : Spans span' q first (pre ++ new) := by
  intro a' x c' hx hpass
  cases append_cons_cases (l := first :: pre) (r := new) hx with
  | inl hin =>
    obtain ⟨c'', hpre, rfl⟩ := hin
    by_cases hmid : ∃ y ∈ c'', q y = true
    · obtain ⟨y, hy, hq⟩ := hmid
      rw [hkeep x (hpre ▸ List.mem_append_right a' (List.mem_cons_self ..)) (last_filter_ne hd hpre hy hq),
        gap_append_of_mem hy hq, ← gap_append_of_mem hy hq old]
      apply h a' x (c'' ++ old) _ hpass
      rw [← List.cons_append, hpre, List.append_assoc]
      rfl
    · have hnone : ∀ y ∈ c'', q y = false := by
        intro y hy
        cases hq : q y with
        | true => exact absurd ⟨y, hy, hq⟩ hmid
        | false => rfl
      have hlen := length_behind hd hpre
      rw [List.length_cons, Nat.add_sub_cancel] at hlen
      rw [last_filter_eq hpre hpass hnone, hlen] at hlink
      rw [gap_append_of_none hnone, hlink]
  | inr hin =>
    obtain ⟨a'', hsuf, rfl⟩ := hin
    exact hnew a'' x c' hsuf (hpass.resolve_left (by simp))

variable {n : N} {suf : List N}

/-- A node of the chain comes in. -/
theorem Spans.insert_link (h : Spans span q first (pre ++ suf)) (hd : (first :: (pre ++ n :: suf)).Nodup)
    (hn : q n = true) :
    let u := last first (pre.filter q)
    let behind := pre.length - (first :: pre).idxOf u
    Spans (Function.update (Function.update span n (span u - behind)) u (behind + 1)) q first (pre ++ n :: suf) := by
  intro u behind
  have hparts := List.nodup_append.mp (List.cons_append ▸ hd)
  have hu := last_filter_mem q first pre
  have hnu : n ≠ u := fun he => hparts.2.2 u hu n (List.mem_cons_self ..) he.symm
  apply h.graft hparts.1
  · rw [Function.update_self, gap_cons_of_pos hn]
  · intro x hx hxu
    rw [Function.update_of_ne hxu, Function.update_of_ne (hparts.2.2 x hx n (List.mem_cons_self ..))]
  · intro a x c hsplit hx
    cases a with
    | nil =>
      injection hsplit with hxn hc
      rw [← hxn, ← hc, Function.update_of_ne hnu, Function.update_self, h.last_eq hparts.1]
      exact Nat.add_sub_cancel_left ..
    | cons y a =>
      injection hsplit with hy hsuf
      have hmem : x ∈ suf := hsuf ▸ List.mem_append_right a (List.mem_cons_self ..)
      have hxu : x ≠ u := fun he => hparts.2.2 u hu x (List.mem_cons_of_mem n hmem) he.symm
      have hxn : x ≠ n := ne_of_mem_of_not_mem hmem (List.nodup_cons.mp hparts.2.1).1
      rw [Function.update_of_ne hxu, Function.update_of_ne hxn]
      exact h.rest hsuf hx

/-- A node comes in that is not on the chain. -/
theorem Spans.insert_skip (h : Spans span q first (pre ++ suf)) (hd : (first :: (pre ++ n :: suf)).Nodup)
    (hn : q n = false) :
    let u := last first (pre.filter q)
    Spans (Function.update span u (span u + 1)) q first (pre ++ n :: suf) := by
  intro u
  have hparts := List.nodup_append.mp (List.cons_append ▸ hd)
  have hu := last_filter_mem q first pre
  apply h.graft hparts.1
  · rw [Function.update_self, gap_cons_of_neg hn, h.last_eq hparts.1, Nat.add_assoc]
  · intro x hx hxu
    rw [Function.update_of_ne hxu]
  · intro a x c hsplit hx
    cases a with
    | nil =>
      injection hsplit with hxn hc
      rw [← hxn, hn] at hx
      cases hx
    | cons y a =>
      injection hsplit with hy hsuf
      have hmem : x ∈ suf := hsuf ▸ List.mem_append_right a (List.mem_cons_self ..)
      rw [Function.update_of_ne fun he => hparts.2.2 u hu x (List.mem_cons_of_mem n hmem) he.symm]
      exact h.rest hsuf hx

/-- A node of the chain goes out. -/
theorem Spans.remove_link (h : Spans span q first (pre ++ n :: suf)) (hd : (first :: (pre ++ n :: suf)).Nodup)
    (hn : q n = true) :
    let u := last first (pre.filter q)
    Spans (Function.update span u (span u + span n - 1)) q first (pre ++ suf) := by
  intro u
  have hparts := List.nodup_append.mp (List.cons_append ▸ hd)
  have hu := last_filter_mem q first pre
  apply h.graft hparts.1
  · rw [Function.update_self, h.last_eq hparts.1, gap_cons_of_pos hn, @Spans.rest _ _ _ _ n _ _ [] suf h rfl hn]
    omega
  · intro x hx hxu
    rw [Function.update_of_ne hxu]
  · intro a x c hsplit hx
    have hmem : x ∈ suf := hsplit ▸ List.mem_append_right a (List.mem_cons_self ..)
    have hall : n :: suf = (n :: a) ++ x :: c := by rw [hsplit, List.cons_append]
    rw [Function.update_of_ne fun he => hparts.2.2 u hu x (List.mem_cons_of_mem n hmem) he.symm]
    exact h.rest hall hx

/-- A node goes out that is not on the chain. -/
theorem Spans.remove_skip (h : Spans span q first (pre ++ n :: suf)) (hd : (first :: (pre ++ n :: suf)).Nodup)
    (hn : q n = false) :
    let u := last first (pre.filter q)
    Spans (Function.update span u (span u - 1)) q first (pre ++ suf) := by
  intro u
  have hparts := List.nodup_append.mp (List.cons_append ▸ hd)
  have hu := last_filter_mem q first pre
  apply h.graft hparts.1
  · rw [Function.update_self, h.last_eq hparts.1, gap_cons_of_neg hn, ← Nat.add_assoc, Nat.add_sub_cancel]
  · intro x hx hxu
    rw [Function.update_of_ne hxu]
  · intro a x c hsplit hx
    have hmem : x ∈ suf := hsplit ▸ List.mem_append_right a (List.mem_cons_self ..)
    have hall : n :: suf = (n :: a) ++ x :: c := by rw [hsplit, List.cons_append]
    rw [Function.update_of_ne fun he => hparts.2.2 u hu x (List.mem_cons_of_mem n hmem) he.symm]
    exact h.rest hall hx

end Graft

/-! ### Walking by spans -/

section Stride
variable [DecidableEq N] {next : N → Option N} {span : N → Nat} {q : N → Bool} {first : N} {xs : List N}

theorem idxOf_eq_length {l a c : List N} {x : N} (hd : l.Nodup) (h : l = a ++ x :: c) : l.idxOf x = a.length := by
  have hlen := length_behind hd h
  have hlt := List.idxOf_lt_length_iff.mpr (h ▸ List.mem_append_right a (List.mem_cons_self ..))
  have htotal := congrArg List.length h
  rw [List.length_append, List.length_cons] at htotal
  omega

theorem idxOf_last (hd : (first :: xs).Nodup) : (first :: xs).idxOf (last first xs) = xs.length := by
  cases xs using List.reverseRecOn with
  | nil => exact List.idxOf_cons_self
  | append_singleton xs x _ =>
    rw [last_append_singleton, @idxOf_eq_length _ _ _ (first :: xs) [] x hd rfl, List.length_append]
    rfl

/-- **A link goes on by its span.** -/
theorem Spans.idxOf_next (h : Spans span q first xs) (hlinks : Links next first (xs.filter q)) (hd : (first :: xs).Nodup)
    {x y : N} (hx : x ∈ first :: xs.filter q) (hy : next x = some y) :
    (first :: xs).idxOf y = (first :: xs).idxOf x + span x ∧ y ∈ xs.filter q := by
  obtain ⟨pre, suf, rfl, hlast, a, ha⟩ := exists_split_of_chain hx
  have hsplit : first :: (pre ++ suf) = a ++ x :: suf := by
    rw [← List.cons_append, ha, List.append_assoc]
    rfl
  have hspan : span x = gap q suf := by
    apply h a x suf hsplit
    cases List.mem_cons.mp hx with
    | inl hx =>
      left
      have hat := idxOf_eq_length hd hsplit
      rw [hx, List.idxOf_cons_self] at hat
      exact List.eq_nil_of_length_eq_zero hat.symm
    | inr hx => exact Or.inr (List.mem_filter.mp hx).2
  rw [List.filter_append] at hlinks
  have hhead := hlinks.next_last
  rw [hlast, hy] at hhead
  obtain ⟨rest, hrest⟩ : ∃ rest, suf.filter q = y :: rest := List.head?_eq_some_iff.mp hhead.symm
  obtain ⟨l, r, rfl, hl, hq, -⟩ := List.filter_eq_cons_iff.mp hrest
  have hnone : ∀ z ∈ l, q z = false := fun z hz => Bool.eq_false_iff.mpr (hl z hz)
  have hplace : first :: (pre ++ (l ++ y :: r)) = (a ++ x :: l) ++ y :: r := by
    rw [hsplit, List.append_assoc]
    rfl
  rw [idxOf_eq_length hd hplace, idxOf_eq_length hd hsplit, hspan, gap_append_of_none hnone, gap_cons_of_pos hq,
    List.length_append, List.length_cons]
  refine ⟨by omega, List.mem_filter.mpr ⟨?_, hq⟩⟩
  simp

/-- A walk as `advance` that adds up the spans it passes. The test is told the place of the
next node along with the node. -/
def stride (next : N → Option N) (span : N → Nat) (p : Nat → N → Bool) : Nat → N → Nat → N × Nat
  | 0, x, traversed => (x, traversed)
  | fuel + 1, x, traversed =>
    match next x with
    | some y => if p (traversed + span x) y then stride next span p fuel y (traversed + span x) else (x, traversed)
    | none => (x, traversed)

/-- **A walk that adds up the spans knows its place.** -/
theorem Spans.stride (h : Spans span q first xs) (hlinks : Links next first (xs.filter q)) (hd : (first :: xs).Nodup)
    (p : Nat → N → Bool) (fuel : Nat) {x : N} (hx : x ∈ first :: xs.filter q) :
    stride next span p fuel x ((first :: xs).idxOf x) =
        (advance next (fun y => p ((first :: xs).idxOf y) y) fuel x,
          (first :: xs).idxOf (advance next (fun y => p ((first :: xs).idxOf y) y) fuel x)) ∧
      advance next (fun y => p ((first :: xs).idxOf y) y) fuel x ∈ first :: xs.filter q := by
  induction fuel generalizing x with
  | zero => exact ⟨rfl, hx⟩
  | succ fuel ih =>
    unfold Chain.stride advance
    cases hy : next x with
    | none => exact ⟨rfl, hx⟩
    | some y =>
      obtain ⟨hplace, hmem⟩ := h.idxOf_next hlinks hd hx hy
      simp only [← hplace]
      split
      · exact ih (List.mem_cons_of_mem first hmem)
      · exact ⟨rfl, hx⟩

end Stride
end Chain
