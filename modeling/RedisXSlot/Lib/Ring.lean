import Mathlib.Data.List.Chain
import Mathlib.Logic.Function.Basic

/-! Doubly linked chains.

Two neighbours are linked if each points to the other. The updates of a doubly linked list
are made of one step, which links `u` to `v`: a node is put in between two neighbours by
two of them, and taken out by one. A list that ends at both sides in its header is a chain
from the header to the header. -/
namespace Ring
variable {N : Type}

def Linked (next prev : N → N) (a b : N) : Prop := next a = b ∧ prev b = a

/-- Each node of the list is linked to the one behind it. -/
def Chained (next prev : N → N) (l : List N) : Prop := l.IsChain (Linked next prev)

variable {next prev next' prev' : N → N}

theorem Chained.congr {l : List N} (h : Chained next prev l) (hnext : ∀ a ∈ l.dropLast, next' a = next a)
    (hprev : ∀ b ∈ l.tail, prev' b = prev b) : Chained next' prev' l := by
  induction l with
  | nil => exact List.isChain_nil
  | cons a l ih =>
    cases l with
    | nil => exact List.isChain_singleton a
    | cons b l =>
      obtain ⟨hab, hl⟩ := List.isChain_cons_cons.mp h
      rw [List.dropLast_cons_cons] at hnext
      apply List.isChain_cons_cons.mpr
      constructor
      · exact ⟨(hnext a (List.mem_cons_self ..)).trans hab.1, (hprev b (List.mem_cons_self ..)).trans hab.2⟩
      · apply ih hl
        · exact fun x hx => hnext x (List.mem_cons_of_mem a hx)
        · exact fun x hx => hprev x (List.mem_cons_of_mem b hx)

theorem chained_split {a b : List N} {u v : N} :
    Chained next prev (a ++ u :: v :: b) ↔
      Chained next prev (a ++ [u]) ∧ Linked next prev u v ∧ Chained next prev (v :: b) :=
  List.isChain_append_cons_cons

section Update
variable [DecidableEq N] {a b : List N} {u v x : N}

/-- `u` is the only place that points to what follows it, and `v` to what comes before. -/
structure Apart (a : List N) (u v : N) (b : List N) : Prop where
  before : u ∉ a
  behind : u ∉ (v :: b).dropLast
  first : v ∉ (a ++ [u]).tail
  last : v ∉ b

/-- **Linking two nodes** keeps the chains up to the one and from the other on. -/
theorem chained_link (h : Apart a u v b) (hu : Chained next prev (a ++ [u])) (hv : Chained next prev (v :: b)) :
    Chained (Function.update next u v) (Function.update prev v u) (a ++ u :: v :: b) := by
  refine chained_split.mpr ⟨hu.congr ?_ ?_, ⟨Function.update_self .., Function.update_self ..⟩, hv.congr ?_ ?_⟩
  · intro y hy
    rw [List.dropLast_concat] at hy
    exact Function.update_of_ne (ne_of_mem_of_not_mem hy h.before) ..
  · intro y hy
    exact Function.update_of_ne (ne_of_mem_of_not_mem hy h.first) ..
  · intro y hy
    exact Function.update_of_ne (ne_of_mem_of_not_mem hy h.behind) ..
  · intro y hy
    exact Function.update_of_ne (ne_of_mem_of_not_mem hy h.last) ..

/-- A node is taken out. -/
theorem Chained.remove (h : Chained next prev (a ++ u :: x :: v :: b)) (hd : Apart a u v b) :
    Chained (Function.update next u v) (Function.update prev v u) (a ++ u :: v :: b) := by
  obtain ⟨hu, -, hx⟩ := chained_split.mp h
  exact chained_link hd hu (List.isChain_cons_cons.mp hx).2

/-- A new node is put in. -/
theorem Chained.insert (h : Chained next prev (a ++ u :: v :: b)) (hd : Apart a u v b) (hx : x ∉ a ++ u :: v :: b) :
    Chained (Function.update (Function.update next u x) x v) (Function.update (Function.update prev x u) v x)
      (a ++ u :: x :: v :: b) := by
  obtain ⟨hu, -, hv⟩ := chained_split.mp h
  rw [List.mem_append, List.mem_cons, List.mem_cons] at hx
  push Not at hx
  obtain ⟨hxa, hxu, hxv, hxb⟩ := hx
  have hux : Chained (Function.update next u x) (Function.update prev x u) (a ++ [u, x]) := by
    apply chained_link _ hu (List.isChain_singleton x)
    refine ⟨hd.before, by simp, ?_, by simp⟩
    intro hin
    have hin := List.mem_of_mem_tail hin
    simp [hxa, hxu] at hin
  have hv' : Chained (Function.update next u x) (Function.update prev x u) (v :: b) := by
    apply hv.congr
    · intro y hy
      exact Function.update_of_ne (ne_of_mem_of_not_mem hy hd.behind) ..
    · intro y hy
      exact Function.update_of_ne (ne_of_mem_of_not_mem hy hxb) ..
  have hapart : Apart (a ++ [u]) x v b := by
    refine ⟨by simp [hxa, hxu], ?_, ?_, hd.last⟩
    · intro hin
      have hin := List.dropLast_subset _ hin
      simp [hxv, hxb] at hin
    · intro hin
      cases a with
      | nil => simp [Ne.symm hxv] at hin
      | cons c a =>
        have hfirst := hd.first
        simp [Ne.symm hxv] at hin hfirst
        tauto
  have hall := chained_link hapart (by rw [List.append_assoc]; exact hux) hv'
  rw [List.append_assoc] at hall
  exact hall

end Update
end Ring
