import RedisXSlot.Lib.Ledger
import Mathlib

/-! Processes that own what they use.

A process takes references, touches the objects behind them, gives them back, and forks;
processes run in any interleaving over one ledger. `Owns` is a precondition: the references
with which a process runs to its end without a fault and without a rest. A fork hands part
of them over. Since what a process owns no other process owns, nothing the others do in
between matters: preconditions of processes are a precondition of their pool
(`Pool.Sound.step`). Every action makes a process smaller, so that all of them can be run to
their ends from wherever they are (`Pool.exists_idle`).

A process that touches what it has not got is not a fault by that alone, since another one
may have got it. It is if the process is the only one of its call and references are told
apart by calls (`Pool.Doomed.step`). -/

inductive Proc (R : Type) where
  | done
  | take (r : R) (k : Proc R)
  | give (r : R) (k : Proc R)
  | touch (r : R) (k : Proc R)
  | fork (p k : Proc R)
  /-- What happens next is decided elsewhere. -/
  | pick (k : Bool → Proc R)

namespace Proc
variable {R : Type}

def takeAll (rs : List R) (k : Proc R) : Proc R := rs.foldr take k

def giveAll (rs : List R) (k : Proc R) : Proc R := rs.foldr give k

def touchAll (rs : List R) (k : Proc R) : Proc R := rs.foldr touch k

/-- The process runs to its end from these references, gives back all it has then, and
never touches or gives what it has not got. -/
def Owns : Proc R → Multiset R → Prop
  | done, uses => uses = 0
  | take r k, uses => k.Owns (r ::ₘ uses)
  | give r k, uses => ∃ rest, uses = r ::ₘ rest ∧ k.Owns rest
  | touch r k, uses => r ∈ uses ∧ k.Owns uses
  | fork p k, uses => ∃ given kept, uses = given + kept ∧ p.Owns given ∧ k.Owns kept
  | pick k, uses => ∀ b, (k b).Owns uses

variable {k : Proc R} {uses : Multiset R}

theorem owns_takeAll {rs : List R} (h : k.Owns (rs + uses)) : (takeAll rs k).Owns uses := by
  induction rs generalizing uses with
  | nil =>
    rw [Multiset.coe_nil, Multiset.zero_add] at h
    exact h
  | cons r rs ih =>
    apply ih
    rw [← Multiset.cons_coe, Multiset.cons_add, ← Multiset.add_cons] at h
    exact h

theorem owns_giveAll {rs : List R} (h : k.Owns uses) : (giveAll rs k).Owns (rs + uses) := by
  induction rs with
  | nil =>
    rw [Multiset.coe_nil, Multiset.zero_add]
    exact h
  | cons r rs ih =>
    refine ⟨rs + uses, ?_, ih⟩
    rw [← Multiset.cons_coe, Multiset.cons_add]

theorem owns_touchAll {rs : List R} (hrs : ∀ r ∈ rs, r ∈ uses) (h : k.Owns uses) : (touchAll rs k).Owns uses := by
  induction rs with
  | nil => exact h
  | cons r rs ih =>
    exact ⟨hrs r (List.mem_cons_self ..), ih fun r' hr' => hrs r' (List.mem_cons_of_mem _ hr')⟩

/-- All references the process uses are of one kind. -/
def Within (P : R → Prop) : Proc R → Prop
  | done => True
  | take r k => P r ∧ k.Within P
  | give r k => P r ∧ k.Within P
  | touch r k => P r ∧ k.Within P
  | fork p k => p.Within P ∧ k.Within P
  | pick k => ∀ b, (k b).Within P

/-- A bound on what is left to do, with the processes that are forked. -/
def size : Proc R → Nat
  | done => 0
  | take _ k | give _ k | touch _ k => k.size + 1
  | fork p k => p.size + k.size + 1
  | pick k => (k true).size + (k false).size + 1

variable [DecidableEq R]

/-- The process, which does not fork, comes to touch or give `x` when it has not got it; it
has it as often as `n` says. -/
def Doomed (x : R) : Proc R → Nat → Prop
  | done, _ => False
  | take r k, n => k.Doomed x (if r = x then n + 1 else n)
  | give r k, n => if r = x then n = 0 ∨ k.Doomed x (n - 1) else k.Doomed x n
  | touch r k, n => r = x ∧ n = 0 ∨ k.Doomed x n
  | fork _ _, _ => False
  | pick k, n => ∀ b, (k b).Doomed x n

end Proc

namespace Ledger
variable {R : Type} [DecidableEq R]

/-- Reading an object takes a reference to it. -/
def touch (L : Ledger R) (r : R) : Ledger R := if r ∈ L.held then L else { L with fault := true }

theorem held_touch (L : Ledger R) (r : R) : (L.touch r).held = L.held := by
  unfold touch
  split <;> rfl

theorem touch_of_mem {L : Ledger R} {r : R} (hr : r ∈ L.held) : L.touch r = L := if_pos hr

end Ledger

/-! ### Pools -/

/-- The processes that run, each with the call it is of, and the calls that have come. -/
structure Pool (C R : Type) where
  ledger : Ledger R
  procs : List (Nat × Proc R)
  calls : List C

namespace Pool
variable {C R : Type}

def init : Pool C R := ⟨.init, [], []⟩

/-- All processes are at their end. -/
def Idle (s : Pool C R) : Prop := ∀ x ∈ s.procs, x.2 = .done

/-- What is held is what the processes own, each its own part. -/
def Sound (s : Pool C R) : Prop :=
  s.ledger.fault = false ∧ ∃ owned : List ((Nat × Proc R) × Multiset R), owned.map Prod.fst = s.procs ∧
    (∀ x ∈ owned, x.1.2.Owns x.2) ∧ (s.ledger.held : Multiset R) = (owned.map Prod.snd).sum

theorem sound_init : (init : Pool C R).Sound := ⟨rfl, [], rfl, by simp, rfl⟩

variable [DecidableEq R]

/-- What a process does next: the ledger then, the rest of the process, and what it forks. -/
def act (b : Bool) (L : Ledger R) : Proc R → Option (Ledger R × Proc R × List (Proc R))
  | .done => none
  | .take r k => some (L.take r, k, [])
  | .give r k => some (L.give r, k, [])
  | .touch r k => some (L.touch r, k, [])
  | .fork p k => some (L, k, [p])
  | .pick k => some (L, k b, [])

/-- A call comes, or one of the processes goes on. -/
inductive Step (proc : Nat → C → Proc R) : Pool C R → Pool C R → Prop where
  | call (s : Pool C R) (c : C) :
      Step proc s ⟨s.ledger, s.procs ++ [(s.calls.length, proc s.calls.length c)], s.calls ++ [c]⟩
  | run {s : Pool C R} {pre post : List (Nat × Proc R)} {i : Nat} {p k : Proc R} {b : Bool} {L : Ledger R}
      {forked : List (Proc R)} : s.procs = pre ++ (i, p) :: post → act b s.ledger p = some (L, k, forked) →
      Step proc s ⟨L, pre ++ (i, k) :: post ++ forked.map (Prod.mk i), s.calls⟩

/-- Calls come and processes go on, from no process at all. -/
def Reachable (proc : Nat → C → Proc R) : Pool C R → Prop := Relation.ReflTransGen (Step proc) init

variable {proc : Nat → C → Proc R} {s s' : Pool C R}

/-- A fault is not undone. -/
theorem act_fault {b : Bool} {L L' : Ledger R} {p k : Proc R} {forked : List (Proc R)} (h : act b L p = some (L', k, forked))
    (hL : L.fault = true) : L'.fault = true := by
  cases p with
  | done => cases h
  | give r k =>
    cases h
    unfold Ledger.give
    split
    · exact hL
    · rfl
  | touch r k =>
    cases h
    unfold Ledger.touch
    split
    · exact hL
    · rfl
  | _ =>
    cases h
    exact hL

/-! ### Running to the end -/

/-- A process that is not at its end can go on, and then has less left to do. -/
theorem exists_act (L : Ledger R) {p : Proc R} (hp : p ≠ .done) : ∃ (L' : Ledger R) (k : Proc R) (forked : List (Proc R)),
    act true L p = some (L', k, forked) ∧ k.size + (forked.map Proc.size).sum < p.size := by
  cases p with
  | done => exact absurd rfl hp
  | fork p k =>
    refine ⟨L, k, [p], rfl, ?_⟩
    simp only [Proc.size, List.map_cons, List.map_nil, List.sum_cons, List.sum_nil]
    omega
  | pick k =>
    refine ⟨L, k true, [], rfl, ?_⟩
    simp only [Proc.size, List.map_nil, List.sum_nil]
    omega
  | _ => exact ⟨_, _, [], rfl, Nat.lt_succ_self _⟩

/-- What all processes have left to do. -/
def work (s : Pool C R) : Nat := (s.procs.map fun x => x.2.size).sum

/-- **From every state all processes can be run to their ends**, with no further call. -/
theorem exists_idle (proc : Nat → C → Proc R) (s : Pool C R) :
    ∃ s', Relation.ReflTransGen (Step proc) s s' ∧ s'.Idle ∧ s'.calls = s.calls := by
  induction hn : s.work using Nat.strong_induction_on generalizing s with
  | h n ih =>
    by_cases hidle : s.Idle
    · exact ⟨s, .refl, hidle, rfl⟩
    · unfold Idle at hidle
      push Not at hidle
      obtain ⟨⟨i, p⟩, hin, hp⟩ := hidle
      obtain ⟨pre, post, hsplit⟩ := List.append_of_mem hin
      obtain ⟨L, k, forked, hact, hless⟩ := exists_act s.ledger hp
      have hlt : work (⟨L, pre ++ (i, k) :: post ++ forked.map (Prod.mk i), s.calls⟩ : Pool C R) < n := by
        have hforked : (forked.map (Prod.mk i)).map (fun x => x.2.size) = forked.map Proc.size := by
          rw [List.map_map]
          rfl
        rw [← hn, work, work, hsplit]
        simp only [List.map_append, List.map_cons, List.sum_append, List.sum_cons, hforked]
        have hless : k.size + (forked.map Proc.size).sum < p.size := hless
        omega
      obtain ⟨s', hrun, hidle', hcalls⟩ := ih _ hlt _ rfl
      exact ⟨s', .head (.run hsplit hact) hrun, hidle', hcalls⟩

/-! ### Processes with preconditions -/

/-- One process goes on: with what it owns, beside what the others own. -/
theorem act_owns {b : Bool} {L L' : Ledger R} {p k : Proc R} {forked : List (Proc R)} (h : act b L p = some (L', k, forked))
    {part rest : Multiset R} (hp : p.Owns part) (hheld : (L.held : Multiset R) = part + rest) (hfault : L.fault = false) :
    L'.fault = false ∧ ∃ (part' : Multiset R) (given : List (Proc R × Multiset R)), k.Owns part' ∧
      given.map Prod.fst = forked ∧ (∀ x ∈ given, x.1.Owns x.2) ∧
      (L'.held : Multiset R) = part' + rest + (given.map Prod.snd).sum := by
  cases p with
  | done => cases h
  | take r k =>
    cases h
    refine ⟨hfault, r ::ₘ part, [], hp, rfl, by simp, ?_⟩
    show ((r :: L.held : List R) : Multiset R) = _
    rw [← Multiset.cons_coe, hheld, Multiset.cons_add]
    simp
  | give r k =>
    cases h
    obtain ⟨left, hpart, hk⟩ := hp
    have hr : r ∈ L.held := by
      rw [← Multiset.mem_coe, hheld, hpart]
      exact Multiset.mem_add.mpr (Or.inl (Multiset.mem_cons_self ..))
    rw [Ledger.give_of_mem hr]
    refine ⟨hfault, left, [], hk, rfl, by simp, ?_⟩
    show ((L.held.erase r : List R) : Multiset R) = _
    rw [← Multiset.coe_erase, hheld, hpart, Multiset.cons_add, Multiset.erase_cons_head]
    simp
  | touch r k =>
    cases h
    have hr : r ∈ L.held := by
      rw [← Multiset.mem_coe, hheld]
      exact Multiset.mem_add.mpr (Or.inl hp.1)
    rw [Ledger.touch_of_mem hr]
    refine ⟨hfault, part, [], hp.2, rfl, by simp, ?_⟩
    rw [hheld]
    simp
  | fork p k =>
    cases h
    obtain ⟨given, kept, hpart, hgiven, hkept⟩ := hp
    refine ⟨hfault, kept, [(p, given)], hkept, rfl, ?_, ?_⟩
    · intro x hx
      rw [List.mem_singleton.mp hx]
      exact hgiven
    · rw [hheld, hpart]
      simp only [List.map_cons, List.map_nil, List.sum_cons, List.sum_nil, add_zero]
      rw [add_comm given kept, add_right_comm]
  | pick k =>
    cases h
    refine ⟨hfault, part, [], hp b, rfl, by simp, ?_⟩
    rw [hheld]
    simp

/-- **Preconditions of processes are one of their pool.** -/
theorem Sound.step (h : s.Sound) (hstep : Step proc s s') (hcalls : ∀ c ∈ s'.calls, ∀ i, (proc i c).Owns 0) : s'.Sound := by
  obtain ⟨hfault, owned, hprocs, howns, hheld⟩ := h
  cases hstep with
  | call c =>
    refine ⟨hfault, owned ++ [((s.calls.length, proc s.calls.length c), 0)], ?_, ?_, ?_⟩
    · rw [List.map_append, hprocs]
      rfl
    · intro x hx
      cases List.mem_append.mp hx with
      | inl hx => exact howns x hx
      | inr hx =>
        rw [List.mem_singleton.mp hx]
        exact hcalls c (List.mem_append_right _ (List.mem_singleton_self c)) _
    · rw [List.map_append, List.sum_append, ← hheld]
      simp
  | @run pre post i p k b L forked hsplit hact =>
    rw [hsplit] at hprocs
    obtain ⟨before, behind, howned, hbefore, hbehind⟩ := List.map_eq_append_iff.mp hprocs
    obtain ⟨x, after, hafter, hx, hpost⟩ := List.map_eq_cons_iff.mp hbehind
    subst howned hafter
    have hpart : x.1.2.Owns x.2 := howns x (List.mem_append_right _ (List.mem_cons_self ..))
    rw [hx] at hpart
    have hsum : (s.ledger.held : Multiset R) = x.2 + ((before.map Prod.snd).sum + (after.map Prod.snd).sum) := by
      rw [hheld, List.map_append, List.sum_append, List.map_cons, List.sum_cons, add_left_comm]
    obtain ⟨hfault', part', given, hk, hforked, hgiven, hheld'⟩ := act_owns hact hpart hsum hfault
    refine ⟨hfault', before ++ ((i, k), part') :: after ++ given.map fun y => ((i, y.1), y.2), ?_, ?_, ?_⟩
    · rw [List.map_append, List.map_append, List.map_cons, hbefore, hpost, List.map_map, ← hforked, List.map_map]
      rfl
    · intro y hy
      cases List.mem_append.mp hy with
      | inl hy =>
        cases List.mem_append.mp hy with
        | inl hy => exact howns y (List.mem_append_left _ hy)
        | inr hy =>
          cases List.mem_cons.mp hy with
          | inl hy =>
            rw [hy]
            exact hk
          | inr hy => exact howns y (List.mem_append_right _ (List.mem_cons_of_mem _ hy))
      | inr hy =>
        obtain ⟨z, hz, rfl⟩ := List.mem_map.mp hy
        exact hgiven z hz
    · have hsnd : (given.map fun y => ((i, y.1), y.2)).map Prod.snd = given.map Prod.snd := by
        rw [List.map_map]
        rfl
      rw [hheld', List.map_append, List.map_append, List.map_cons, List.sum_append, List.sum_append, List.sum_cons, hsnd,
        add_left_comm part']

/-- **A pool whose processes own what they use** is never at fault, and idle holds nothing. -/
theorem Reachable.sound (h : Reachable proc s) (hcalls : ∀ c ∈ s.calls, ∀ i, (proc i c).Owns 0) :
    s.ledger.fault = false ∧ (s.Idle → s.ledger.held = []) := by
  have hsound : s.Sound := by
    induction h with
    | refl => exact sound_init
    | @tail s s' _ hstep ih =>
      have hsub : ∀ c ∈ s.calls, c ∈ s'.calls := by
        intro c hc
        cases hstep with
        | call => exact List.mem_append_left _ hc
        | run => exact hc
      exact (ih fun c hc => hcalls c (hsub c hc)).step hstep hcalls
  obtain ⟨hfault, owned, hprocs, howns, hheld⟩ := hsound
  refine ⟨hfault, fun hidle => ?_⟩
  have hnone : ∀ part ∈ owned.map Prod.snd, part = 0 := by
    intro part hpart
    obtain ⟨x, hx, rfl⟩ := List.mem_map.mp hpart
    have hdone := hidle x.1 (hprocs ▸ List.mem_map_of_mem hx)
    have hown := howns x hx
    rw [hdone] at hown
    exact hown
  rw [List.sum_eq_zero hnone, Multiset.coe_eq_zero] at hheld
  exact hheld

/-! ### Processes that go wrong -/

section Doomed
variable {owner : R → Nat}

/-- The references of a call are those its processes take. -/
structure Apart (owner : R → Nat) (s : Pool C R) : Prop where
  within : ∀ x ∈ s.procs, x.1 < s.calls.length ∧ x.2.Within fun r => owner r = x.1
  held : ∀ r ∈ s.ledger.held, owner r < s.calls.length

/-- A process changes the references of its own call only. -/
theorem act_within {b : Bool} {L L' : Ledger R} {p k : Proc R} {forked : List (Proc R)} (h : act b L p = some (L', k, forked))
    {i : Nat} (hp : p.Within fun r => owner r = i) :
    k.Within (fun r => owner r = i) ∧ (∀ q ∈ forked, q.Within fun r => owner r = i) ∧
      (∀ r ∈ L'.held, r ∈ L.held ∨ owner r = i) ∧ ∀ x, owner x ≠ i → L'.held.count x = L.held.count x := by
  cases p with
  | done => cases h
  | take r k =>
    cases h
    refine ⟨hp.2, by simp, ?_, ?_⟩
    · intro x hx
      exact (List.mem_cons.mp hx).elim (fun he => Or.inr (he ▸ hp.1)) Or.inl
    · intro x hx
      apply List.count_cons_of_ne
      intro he
      exact hx (he ▸ hp.1)
  | give r k =>
    cases h
    refine ⟨hp.2, by simp, ?_, ?_⟩
    · intro x hx
      have hgiven : x ∈ (L.giveAll [r]).held := hx
      exact Or.inl (Ledger.mem_of_mem_giveAll hgiven)
    · intro x hx
      unfold Ledger.give
      split
      next =>
        apply List.count_erase_of_ne
        intro he
        exact hx (he ▸ hp.1)
      next => rfl
  | touch r k =>
    cases h
    rw [Ledger.held_touch]
    exact ⟨hp.2, by simp, fun _ hx => Or.inl hx, fun _ _ => rfl⟩
  | fork p k =>
    cases h
    exact ⟨hp.2, by simpa using hp.1, fun _ hx => Or.inl hx, fun _ _ => rfl⟩
  | pick k =>
    cases h
    exact ⟨hp b, by simp, fun _ hx => Or.inl hx, fun _ _ => rfl⟩

theorem Apart.step (h : s.Apart owner) (hstep : Step proc s s') (hproc : ∀ i c, (proc i c).Within fun r => owner r = i) :
    s'.Apart owner := by
  cases hstep with
  | call c =>
    constructor
    · intro x hx
      rw [List.length_append]
      cases List.mem_append.mp hx with
      | inl hx => exact ⟨Nat.lt_add_right _ (h.within x hx).1, (h.within x hx).2⟩
      | inr hx =>
        rw [List.mem_singleton.mp hx]
        exact ⟨Nat.lt_succ_self _, hproc _ c⟩
    · intro r hr
      rw [List.length_append]
      exact Nat.lt_add_right _ (h.held r hr)
  | @run pre post i p k b L forked hsplit hact =>
    have hin : (i, p) ∈ s.procs := hsplit ▸ List.mem_append_right _ (List.mem_cons_self ..)
    obtain ⟨hi, hp⟩ := h.within _ hin
    obtain ⟨hk, hforked, hheld, -⟩ := act_within hact hp
    constructor
    · intro x hx
      rw [List.append_assoc, List.mem_append, List.cons_append, List.mem_cons, List.mem_append] at hx
      have hold : x ∈ pre ∨ x ∈ post → x ∈ s.procs := by
        intro hx
        rw [hsplit, List.mem_append, List.mem_cons]
        tauto
      obtain hx | hx | hx | hx := hx
      · exact h.within x (hold (Or.inl hx))
      · rw [hx]
        exact ⟨hi, hk⟩
      · exact h.within x (hold (Or.inr hx))
      · obtain ⟨q, hq, rfl⟩ := List.mem_map.mp hx
        exact ⟨hi, hforked q hq⟩
    · intro r hr
      cases hheld r hr with
      | inl hr => exact h.held r hr
      | inr hr => exact hr ▸ hi

/-- A fault has come of the call, or is to come: it has one process, which is doomed. -/
def Doomed (s : Pool C R) (i : Nat) (x : R) : Prop :=
  s.ledger.fault = true ∨ ∃ p, (s.procs.filter fun y => y.1 = i) = [(i, p)] ∧ p.Doomed x (s.ledger.held.count x)

theorem act_doomed {b : Bool} {L L' : Ledger R} {p k : Proc R} {forked : List (Proc R)} (h : act b L p = some (L', k, forked))
    {x : R} (hdoom : p.Doomed x (L.held.count x)) : L'.fault = true ∨ forked = [] ∧ k.Doomed x (L'.held.count x) := by
  cases p with
  | done => cases h
  | take r k =>
    cases h
    right
    refine ⟨rfl, ?_⟩
    show k.Doomed x ((r :: L.held).count x)
    unfold Proc.Doomed at hdoom
    rw [List.count_cons]
    split at hdoom <;> simp_all
  | give r k =>
    cases h
    unfold Proc.Doomed at hdoom
    unfold Ledger.give
    split
    next hr =>
      right
      refine ⟨rfl, ?_⟩
      show k.Doomed x ((L.held.erase r).count x)
      rw [List.count_erase]
      split at hdoom
      next hx =>
        rw [hx] at hr ⊢
        rw [if_pos (beq_self_eq_true x)]
        exact hdoom.resolve_left (Nat.ne_of_gt (List.count_pos_iff.mpr hr))
      next hx =>
        rw [if_neg (by simpa using hx)]
        exact hdoom
    next => exact Or.inl rfl
  | touch r k =>
    cases h
    unfold Ledger.touch
    split
    next hr =>
      right
      refine ⟨rfl, hdoom.resolve_left fun hc => ?_⟩
      rw [hc.1] at hr
      exact Nat.ne_of_gt (List.count_pos_iff.mpr hr) hc.2
    next => exact Or.inl rfl
  | fork p k => exact absurd hdoom id
  | pick k =>
    cases h
    exact Or.inr ⟨rfl, hdoom b⟩

theorem Doomed.step {i : Nat} {x : R} (h : s.Doomed i x) (hx : owner x = i) (hapart : s.Apart owner) (hstep : Step proc s s')
    (hi : i < s.calls.length) : s'.Doomed i x := by
  cases h with
  | inl hfault =>
    left
    cases hstep with
    | call => exact hfault
    | run _ hact => exact act_fault hact hfault
  | inr h =>
    obtain ⟨p, hsolo, hdoom⟩ := h
    cases hstep with
    | call c =>
      right
      refine ⟨p, ?_, hdoom⟩
      rw [List.filter_append, hsolo, List.filter_cons_of_neg (by simpa using Nat.ne_of_gt hi)]
      rfl
    | @run pre post j q k b L forked hsplit hact =>
      have hin : (j, q) ∈ s.procs := hsplit ▸ List.mem_append_right _ (List.mem_cons_self ..)
      by_cases hj : j = i
      · rw [hj] at hsplit
        rw [hsplit, List.filter_append, List.filter_cons_of_pos (by simp)] at hsolo
        have hone := List.append_eq_singleton_iff.mp hsolo
        cases hone with
        | inr hone => exact absurd hone.2 (List.cons_ne_nil _ _)
        | inl hone =>
          obtain ⟨hpre, hone⟩ := hone
          obtain ⟨hqp, hpost⟩ := List.cons.inj hone
          cases hqp
          refine (act_doomed hact hdoom).imp_right fun hk => ⟨k, ?_, hk.2⟩
          rw [hk.1, hj, List.map_nil, List.append_nil, List.filter_append, List.filter_cons_of_pos (by simp), hpre, hpost]
          rfl
      · right
        obtain ⟨-, -, -, hother⟩ := act_within hact (hapart.within _ hin).2
        refine ⟨p, ?_, ?_⟩
        · have hforked : (forked.map (Prod.mk j)).filter (fun y => decide (y.1 = i)) = [] := by
            rw [List.filter_eq_nil_iff]
            intro y hy
            obtain ⟨r, -, rfl⟩ := List.mem_map.mp hy
            simpa using hj
          rw [hsplit, List.filter_append, List.filter_cons_of_neg (by simpa using hj)] at hsolo
          rw [List.filter_append, List.filter_append, List.filter_cons_of_neg (by simpa using hj), hforked, hsolo]
          rfl
        · rw [hother x (hx ▸ Ne.symm hj)]
          exact hdoom

/-- **A doomed call is at fault** by the time the pool is idle. -/
theorem Reachable.doomed (h : Reachable proc s) (hproc : ∀ i c, (proc i c).Within fun r => owner r = i) (hidle : s.Idle)
    {i : Nat} {c : C} (hc : s.calls[i]? = some c) {x : R} (hx : owner x = i) (hdoom : (proc i c).Doomed x 0) :
    s.ledger.fault = true := by
  have hall : s.Apart owner ∧ ∀ i c, s.calls[i]? = some c → ∀ x, owner x = i → (proc i c).Doomed x 0 → s.Doomed i x := by
    clear hidle hc hx hdoom
    induction h with
    | refl => exact ⟨⟨by simp [init], by simp [init, Ledger.init]⟩, by simp [init]⟩
    | @tail s s' _ hstep ih =>
      obtain ⟨hapart, ih⟩ := ih
      refine ⟨hapart.step hstep hproc, ?_⟩
      intro i c hc x hx hdoom
      have hgo := fun hc => (ih i c hc x hx hdoom).step hx hapart hstep
      cases hstep with
      | call c' =>
        by_cases hi : i < s.calls.length
        · rw [List.getElem?_append_left hi] at hc
          exact hgo hc hi
        · obtain rfl : i = s.calls.length := by
            have := (List.getElem?_eq_some_iff.mp hc).1
            rw [List.length_append, List.length_singleton] at this
            omega
          rw [List.getElem?_append_right (Nat.le_refl _), Nat.sub_self] at hc
          cases hc
          have hother : (s.procs.filter fun y => y.1 = s.calls.length) = [] := by
            rw [List.filter_eq_nil_iff]
            intro y hy
            simpa using Nat.ne_of_lt (hapart.within y hy).1
          have hnone : s.ledger.held.count x = 0 := by
            rw [List.count_eq_zero]
            intro hin
            exact Nat.ne_of_lt (hapart.held x hin) hx
          right
          refine ⟨proc s.calls.length c, ?_, ?_⟩
          · rw [List.filter_append, hother, List.filter_cons_of_pos (by simp)]
            rfl
          · rw [hnone]
            exact hdoom
      | run => exact hgo hc (List.getElem?_eq_some_iff.mp hc).1
  have hdoomed := hall.2 i c hc x hx hdoom
  cases hdoomed with
  | inl hfault => exact hfault
  | inr h =>
    obtain ⟨p, hsolo, hp⟩ := h
    have hin : (i, p) ∈ s.procs := (List.mem_filter.mp (hsolo ▸ List.mem_singleton_self _)).1
    have hend : p = .done := hidle _ hin
    rw [hend] at hp
    exact hp.elim

end Doomed
end Pool
