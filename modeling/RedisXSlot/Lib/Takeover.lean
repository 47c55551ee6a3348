import Mathlib.Logic.Function.Basic
import Mathlib.Logic.Relation
import Mathlib.Data.Set.Basic

/-! Handing things over by copies.

A holder sends copies of what it has and keeps its own. The wire delays, loses and repeats:
what has been sent may arrive at any time, more than once, or never. The holder lets a thing go only when
the taker has it. Nothing is then ever lost, and nothing that was not there comes up on the other
side (`Safe.steps`), however the steps fall. -/
namespace Takeover

/-- The things of both sides, and every copy that has been sent. -/
structure State (K V : Type*) where
  holder : K → Option V
  taker : K → Option V
  wire : Set (K × V)

variable {K V : Type*}

inductive Step [DecidableEq K] (s : State K V) : State K V → Prop where
  | send (copies : Set (K × V)) : (∀ c ∈ copies, s.holder c.1 = some c.2) → Step s { s with wire := s.wire ∪ copies }
  /-- The copy stays on the wire: it can arrive again. -/
  | arrive (k : K) (v : V) : (k, v) ∈ s.wire → Step s { s with taker := Function.update s.taker k (some v) }
  | release (k : K) : (∀ v, s.holder k = some v → s.taker k = some v) →
      Step s { s with holder := Function.update s.holder k none }

abbrev Steps [DecidableEq K] : State K V → State K V → Prop := Relation.ReflTransGen Step

/-- Every copy on the wire is one of the thing as it was in the beginning. -/
def Genuine (s₀ s : State K V) : Prop := ∀ c ∈ s.wire, s₀.holder c.1 = some c.2

/-- Each thing of the holder is where it was, or has been taken over, and the taker has nothing else
that is new. -/
structure Safe (s₀ s : State K V) : Prop where
  genuine : Genuine s₀ s
  held : ∀ k, s.holder k = s₀.holder k ∨ (s.holder k = none ∧ s.taker k = s₀.holder k)
  taken : ∀ k, s.taker k = s₀.taker k ∨ ∃ v, s₀.holder k = some v ∧ s.taker k = some v

variable {s₀ s s' : State K V}

theorem Safe.refl (h : Genuine s s) : Safe s s where
  genuine := h
  held _ := .inl rfl
  taken _ := .inl rfl

/-- What the holder still has, it has unchanged. -/
theorem Safe.holder_eq (h : Safe s₀ s) {k : K} {v : V} (hk : s.holder k = some v) : s₀.holder k = some v := by
  rcases h.held k with heq | ⟨hnone, -⟩
  · exact heq.symm.trans hk
  · rw [hnone] at hk
    cases hk

theorem Safe.delivered (h : Safe s₀ s) {k : K} {v : V} (hv : s₀.holder k = some v) (hk : s.holder k = none) :
    s.taker k = some v := by
  rcases h.held k with heq | ⟨-, htaken⟩
  · rw [hk, hv] at heq
    cases heq
  · exact htaken.trans hv

variable [DecidableEq K]

/-- **One step.** -/
theorem Safe.step (h : Safe s₀ s) (hstep : Step s s') : Safe s₀ s' := by
  cases hstep with
  | send copies hcopies =>
    refine ⟨fun c hc => ?_, h.held, h.taken⟩
    rcases hc with hc | hc
    · exact h.genuine c hc
    · exact h.holder_eq (hcopies c hc)
  | arrive k v hwire =>
    have hv : s₀.holder k = some v := h.genuine _ hwire
    refine ⟨h.genuine, fun j => ?_, fun j => ?_⟩
    · by_cases hj : j = k
      · subst hj
        exact (h.held j).imp_right fun hheld => ⟨hheld.1, (Function.update_self ..).trans hv.symm⟩
      · exact (h.held j).imp_right fun hheld => ⟨hheld.1, (Function.update_of_ne hj ..).trans hheld.2⟩
    · by_cases hj : j = k
      · subst hj
        exact .inr ⟨v, hv, Function.update_self ..⟩
      · have heq : Function.update s.taker k (some v) j = s.taker j := Function.update_of_ne hj ..
        dsimp only
        rw [heq]
        exact h.taken j
  | release k htaken =>
    refine ⟨h.genuine, fun j => ?_, h.taken⟩
    by_cases hj : j = k
    · subst hj
      have hnone : Function.update s.holder j none j = none := Function.update_self ..
      cases hk : s.holder j with
      | none => exact (h.held j).imp (fun heq => hnone.trans (hk.symm.trans heq)) fun hheld => ⟨hnone, hheld.2⟩
      | some v => exact .inr ⟨hnone, (htaken v hk).trans (h.holder_eq hk).symm⟩
    · have heq : Function.update s.holder k none j = s.holder j := Function.update_of_ne hj ..
      dsimp only
      rw [heq]
      exact h.held j

/-- **However the steps fall**, nothing is lost and nothing new comes up. -/
theorem Safe.steps (h : Safe s₀ s) (hsteps : Steps s s') : Safe s₀ s' := by
  induction hsteps with
  | refl => exact h
  | tail _ hstep ih => exact ih.step hstep

/-- What the taker has got of the holder's things it keeps. -/
theorem Safe.taker_stays (h : Safe s₀ s) {k : K} {v : V} (hv : s₀.holder k = some v) (htaken : s.taker k = some v)
    (hsteps : Steps s s') : s'.taker k = some v := by
  induction hsteps with
  | refl => exact htaken
  | @tail m s'' hpath hstep ih =>
    cases hstep with
    | send => exact ih
    | release => exact ih
    | arrive j u hwire =>
      by_cases hj : k = j
      · subst hj
        have hu : s₀.holder k = some u := (h.steps hpath).genuine _ hwire
        exact (Function.update_self ..).trans (hu.symm.trans hv)
      · exact (Function.update_of_ne hj ..).trans ih

/-! ### Several at once -/

/-- Letting go of all that has been taken over. -/
theorem steps_release {ks : List K} (h : ∀ k ∈ ks, ∀ v, s.holder k = some v → s.taker k = some v) {holder : K → Option V}
    (hgone : ∀ k ∈ ks, holder k = none) (hleft : ∀ k, k ∉ ks → holder k = s.holder k) :
    Steps s { s with holder := holder } := by
  induction ks generalizing s with
  | nil =>
    have hsame : holder = s.holder := funext fun k => hleft k List.not_mem_nil
    rw [hsame]
  | cons j ks ih =>
    have hone : Step s { s with holder := Function.update s.holder j none } := .release j (h j List.mem_cons_self)
    refine .head hone (@ih { s with holder := Function.update s.holder j none } (fun k hk v hv => ?_)
      (fun k hk => hgone k (List.mem_cons_of_mem j hk)) fun k hk => ?_)
    · by_cases hj : k = j
      · dsimp only at hv
        rw [hj, Function.update_self] at hv
        cases hv
      · dsimp only at hv
        rw [Function.update_of_ne hj] at hv
        exact h k (List.mem_cons_of_mem j hk) v hv
    · by_cases hj : k = j
      · subst hj
        show holder k = Function.update s.holder k none k
        rw [hgone k List.mem_cons_self, Function.update_self]
      · have hnot : k ∉ j :: ks := fun hmem => (List.mem_cons.mp hmem).elim hj hk
        show holder k = Function.update s.holder j none k
        rw [hleft k hnot, Function.update_of_ne hj]

end Takeover
