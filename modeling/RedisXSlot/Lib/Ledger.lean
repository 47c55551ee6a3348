import Mathlib.Data.List.Count
import Mathlib.Data.List.Perm.Basic
import Mathlib.Order.Nat

/-! References held to counted objects.

A `Ledger` lists the references that have been taken and not given back, an object as
often as there are references to it. Giving back a reference that is not held is a
fault. Its holder has uses for some references: the ledger covers them if it holds as many
of each object, and is exact if it holds no others. -/

structure Ledger (R : Type) where
  held : List R
  fault : Bool

namespace Ledger
variable {R : Type}

def init : Ledger R := ⟨[], false⟩

def take (L : Ledger R) (r : R) : Ledger R := { L with held := r :: L.held }

def takeAll (L : Ledger R) (rs : List R) : Ledger R := rs.foldl take L

theorem held_takeAll (L : Ledger R) (rs : List R) : (L.takeAll rs).held.Perm (rs ++ L.held) := by
  induction rs generalizing L with
  | nil => exact .refl _
  | cons r rs ih => exact (ih (L.take r)).trans List.perm_middle

variable [DecidableEq R]

def give (L : Ledger R) (r : R) : Ledger R :=
  if r ∈ L.held then { L with held := L.held.erase r } else { L with fault := true }

def giveAll (L : Ledger R) (rs : List R) : Ledger R := rs.foldl give L

/-- There is a reference of its own for each use. -/
structure Covers (L : Ledger R) (uses : List R) : Prop where
  le : ∀ r, uses.count r ≤ L.held.count r
  ok : L.fault = false

/-- And there are no other references. -/
structure Exact (L : Ledger R) (uses : List R) : Prop where
  eq : ∀ r, L.held.count r = uses.count r
  ok : L.fault = false

section
variable {L : Ledger R} {uses uses' : List R} {r : R}

theorem covers_init : (init : Ledger R).Covers [] := ⟨fun _ => Nat.le_refl 0, rfl⟩

theorem exact_init : (init : Ledger R).Exact [] := ⟨fun _ => rfl, rfl⟩

theorem Exact.covers (h : L.Exact uses) : L.Covers uses := ⟨fun r => (h.eq r).ge, h.ok⟩

theorem Exact.perm (h : L.Exact uses) : L.held.Perm uses := List.perm_iff_count.mpr h.eq

theorem Covers.mono (h : L.Covers uses) (hle : ∀ r, uses'.count r ≤ uses.count r) : L.Covers uses' :=
  ⟨fun r => (hle r).trans (h.le r), h.ok⟩

theorem Covers.of_perm (h : L.Covers uses) (hp : uses'.Perm uses) : L.Covers uses' :=
  h.mono fun r => (hp.count_eq r).le

theorem Exact.of_perm (h : L.Exact uses) (hp : uses'.Perm uses) : L.Exact uses' :=
  ⟨fun r => (h.eq r).trans (hp.count_eq r).symm, h.ok⟩

theorem Covers.take (h : L.Covers uses) (r : R) : (L.take r).Covers (r :: uses) := by
  refine ⟨fun x => ?_, h.ok⟩
  simp only [Ledger.take, List.count_cons]
  exact Nat.add_le_add_right (h.le x) _

/-- A reference beyond the uses does no harm. -/
theorem Covers.take_spare (h : L.Covers uses) (r : R) : (L.take r).Covers uses :=
  (h.take r).mono fun _ => List.count_le_count_cons

theorem Exact.take (h : L.Exact uses) (r : R) : (L.take r).Exact (r :: uses) := by
  refine ⟨fun x => ?_, h.ok⟩
  simp only [Ledger.take, List.count_cons]
  rw [h.eq x]

theorem Covers.takeAll (h : L.Covers uses) (rs : List R) : (L.takeAll rs).Covers (rs ++ uses) := by
  induction rs generalizing L uses with
  | nil => exact h
  | cons r rs ih => exact (ih (h.take r)).of_perm List.perm_middle.symm

theorem Exact.takeAll (h : L.Exact uses) (rs : List R) : (L.takeAll rs).Exact (rs ++ uses) := by
  induction rs generalizing L uses with
  | nil => exact h
  | cons r rs ih => exact (ih (h.take r)).of_perm List.perm_middle.symm

theorem Covers.mem (h : L.Covers uses) (hr : r ∈ uses) : r ∈ L.held :=
  List.count_pos_iff.mp ((List.count_pos_iff.mpr hr).trans_le (h.le r))

theorem giveAll_append (L : Ledger R) (rs rs' : List R) : (L.giveAll rs).giveAll rs' = L.giveAll (rs ++ rs') :=
  List.foldl_append.symm

theorem give_of_mem (hr : r ∈ L.held) : L.give r = { L with held := L.held.erase r } := if_pos hr

/-- The reference of a use is given back with it. -/
theorem Covers.give (h : L.Covers (r :: uses)) : (L.give r).Covers uses := by
  rw [give_of_mem (h.mem List.mem_cons_self)]
  refine ⟨fun x => ?_, h.ok⟩
  have hx := h.le x
  rw [List.count_cons] at hx
  rw [List.count_erase]
  exact Nat.le_sub_of_add_le hx

theorem Exact.give (h : L.Exact (r :: uses)) : (L.give r).Exact uses := by
  rw [give_of_mem (h.covers.mem List.mem_cons_self)]
  refine ⟨fun x => ?_, h.ok⟩
  rw [List.count_erase, h.eq x, List.count_cons]
  exact Nat.add_sub_cancel ..

theorem Covers.giveAll {rs : List R} (h : L.Covers (rs ++ uses)) : (L.giveAll rs).Covers uses := by
  induction rs generalizing L with
  | nil => exact h
  | cons r rs ih => exact ih h.give

theorem Exact.giveAll {rs : List R} (h : L.Exact (rs ++ uses)) : (L.giveAll rs).Exact uses := by
  induction rs generalizing L with
  | nil => exact h
  | cons r rs ih => exact ih h.give

theorem count_give_self (L : Ledger R) (r : R) : (L.give r).held.count r = L.held.count r - 1 := by
  rw [Ledger.give]
  split
  next => exact List.count_erase_self
  next hr => rw [List.count_eq_zero_of_not_mem hr]

theorem count_give_le (L : Ledger R) (r x : R) : (L.give r).held.count x ≤ L.held.count x := by
  rw [Ledger.give]
  split
  next => exact List.erase_sublist.count_le x
  next => exact Nat.le_refl _

theorem count_giveAll_le (L : Ledger R) (rs : List R) (x : R) : (L.giveAll rs).held.count x ≤ L.held.count x := by
  induction rs generalizing L with
  | nil => exact Nat.le_refl _
  | cons r rs ih => exact (ih (L.give r)).trans (count_give_le L r x)

theorem mem_of_mem_giveAll {rs : List R} {x : R} (hx : x ∈ (L.giveAll rs).held) : x ∈ L.held :=
  List.count_pos_iff.mp ((List.count_pos_iff.mpr hx).trans_le (count_giveAll_le L rs x))

/-- If the last reference is given back with a use left, that use is not covered. -/
theorem not_covers_give (hr : r ∈ uses) (hlast : L.held.count r ≤ 1) : ¬ (L.give r).Covers uses := by
  intro h
  have hle := (List.count_pos_iff.mpr hr).trans_le (h.le r)
  rw [count_give_self] at hle
  omega

end
end Ledger
