import Mathlib

/-! Programs that talk to a server, as data.

A `Prog` is a program cut at its calls: it has finished, it has run into undefined
behaviour, or it waits for the answer to one call and goes on with it. Nothing is
said about who answers. `Runs p t o` says that `p` can make exactly the calls of `t`
with exactly these answers and end in `o`, so a statement about every run is a
statement about every way the server can behave.

A run is put together with a server by `Path`: a labelled transition relation
followed along a list of labels. The labels may be the program's events alone, or
these mixed with the moves of somebody else. -/
namespace Interaction

/-- A program over the calls `C`, the call `c` answered in `R c`. -/
inductive Prog (C : Type) (R : C → Type) (α : Type) : Type where
  | ret (a : α)
  /-- Undefined behaviour: no result and no further call can be relied on. -/
  | fault
  | call (c : C) (k : R c → Prog C R α)

/-- A call with its answer. -/
structure Event (C : Type) (R : C → Type) where
  call : C
  answer : R call

variable {C : Type} {R : C → Type} {α β : Type}

namespace Prog

protected def bind : Prog C R α → (α → Prog C R β) → Prog C R β
  | .ret a, f => f a
  | .fault, _ => .fault
  | .call c k, f => .call c fun r => (k r).bind f

instance : Monad (Prog C R) where
  pure := .ret
  bind := Prog.bind

/-- One call, its answer the result. -/
def perform (c : C) : Prog C R (R c) := .call c .ret

@[simp] theorem pure_eq (a : α) : (pure a : Prog C R α) = .ret a := rfl
@[simp] theorem ret_bind (a : α) (f : α → Prog C R β) : (Prog.ret a : Prog C R α) >>= f = f a := rfl
@[simp] theorem fault_bind (f : α → Prog C R β) : (Prog.fault : Prog C R α) >>= f = .fault := rfl
@[simp] theorem call_bind (c : C) (k : R c → Prog C R α) (f : α → Prog C R β) :
    Prog.call c k >>= f = .call c fun r => k r >>= f := rfl
@[simp] theorem perform_bind (c : C) (f : R c → Prog C R β) : perform c >>= f = .call c f := rfl

theorem id_map (p : Prog C R α) : id <$> p = p := by
  show p.bind (fun a => Prog.ret a) = p
  induction p with
  | ret a => rfl
  | fault => rfl
  | call c k ih => exact congrArg (Prog.call c) (funext ih)

theorem bind_assoc {γ : Type} (p : Prog C R α) (f : α → Prog C R β) (g : β → Prog C R γ) :
    p >>= f >>= g = p >>= fun a => f a >>= g := by
  show (p.bind f).bind g = p.bind fun a => (f a).bind g
  induction p with
  | ret a => rfl
  | fault => rfl
  | call c k ih => exact congrArg (Prog.call c) (funext ih)

instance : LawfulMonad (Prog C R) := .mk' _ id_map (fun _ _ => rfl) bind_assoc

end Prog

/-- `p` can make the calls of `t`, answered as in `t`, and end with the result `o`;
`none` is a run that ends in undefined behaviour. -/
inductive Runs : Prog C R α → List (Event C R) → Option α → Prop where
  | ret (a : α) : Runs (.ret a) [] (some a)
  | fault : Runs .fault [] none
  | call {c : C} {k : R c → Prog C R α} {t : List (Event C R)} {o : Option α} (r : R c) :
      Runs (k r) t o → Runs (.call c k) (⟨c, r⟩ :: t) o

namespace Runs

@[simp] theorem ret_iff {a : α} {t : List (Event C R)} {o : Option α} :
    Runs (.ret a : Prog C R α) t o ↔ t = [] ∧ o = some a := by
  constructor
  · intro h
    cases h
    exact ⟨rfl, rfl⟩
  · rintro ⟨rfl, rfl⟩
    exact .ret a

@[simp] theorem fault_iff {t : List (Event C R)} {o : Option α} :
    Runs (.fault : Prog C R α) t o ↔ t = [] ∧ o = none := by
  constructor
  · intro h
    cases h
    exact ⟨rfl, rfl⟩
  · rintro ⟨rfl, rfl⟩
    exact .fault

@[simp] theorem call_iff {c : C} {k : R c → Prog C R α} {t : List (Event C R)} {o : Option α} :
    Runs (.call c k) t o ↔ ∃ r t', t = ⟨c, r⟩ :: t' ∧ Runs (k r) t' o := by
  constructor
  · intro h
    cases h with
    | call r h => exact ⟨r, _, rfl, h⟩
  · rintro ⟨r, t', rfl, h⟩
    exact .call r h

/-- A run that starts with a call has got an answer and gone on with it. -/
theorem of_perform {c : C} {f : R c → Prog C R α} {t : List (Event C R)} {o : Option α}
    (h : Runs (Prog.perform c >>= f) t o) : ∃ r t', t = ⟨c, r⟩ :: t' ∧ Runs (f r) t' o := call_iff.mp h

theorem bind {p : Prog C R α} {f : α → Prog C R β} {t t' : List (Event C R)} {a : α} {o : Option β}
    (h : Runs p t (some a)) (h' : Runs (f a) t' o) : Runs (p >>= f) (t ++ t') o := by
  induction p generalizing t with
  | ret b =>
    obtain ⟨rfl, hb⟩ := ret_iff.mp h
    cases hb
    exact h'
  | fault => cases (fault_iff.mp h).2
  | call c k ih =>
    obtain ⟨r, t₁, rfl, hk⟩ := call_iff.mp h
    exact .call r (ih r hk)

theorem map {p : Prog C R α} (f : α → β) {t : List (Event C R)} {o : Option α} (h : Runs p t o) :
    Runs (f <$> p) t (o.map f) := by
  induction h with
  | ret a => exact .ret (f a)
  | fault => exact .fault
  | call r h ih => exact .call r ih

/-- A run of a sequence is a run of each part, or ends in the first. -/
theorem bind_cases {p : Prog C R α} {f : α → Prog C R β} {t : List (Event C R)} {o : Option β}
    (h : Runs (p >>= f) t o) :
    (∃ a t₁ t₂, t = t₁ ++ t₂ ∧ Runs p t₁ (some a) ∧ Runs (f a) t₂ o) ∨ (o = none ∧ Runs p t none) := by
  induction p generalizing t with
  | ret a => exact .inl ⟨a, [], t, rfl, .ret a, h⟩
  | fault =>
    obtain ⟨rfl, rfl⟩ := fault_iff.mp h
    exact .inr ⟨rfl, .fault⟩
  | call c k ih =>
    obtain ⟨r, t', rfl, hk⟩ := call_iff.mp h
    rcases ih r hk with ⟨a, t₁, t₂, rfl, h₁, h₂⟩ | ⟨ho, h₁⟩
    · exact .inl ⟨a, _, t₂, rfl, .call r h₁, h₂⟩
    · exact .inr ⟨ho, .call r h₁⟩

/-- A run of a sequence that ends properly is a run of each part. -/
theorem of_bind {p : Prog C R α} {f : α → Prog C R β} {t : List (Event C R)} {b : β}
    (h : Runs (p >>= f) t (some b)) :
    ∃ a t₁ t₂, t = t₁ ++ t₂ ∧ Runs p t₁ (some a) ∧ Runs (f a) t₂ (some b) :=
  h.bind_cases.resolve_right fun hnone => nomatch hnone.1

end Runs

/-! ### What holds of every run -/

/-- `p` never runs into undefined behaviour, and `P` holds of every run of it. -/
def Spec (p : Prog C R α) (P : List (Event C R) → α → Prop) : Prop :=
  ∀ ⦃t o⦄, Runs p t o → ∃ a, o = some a ∧ P t a

namespace Spec

theorem mono {p : Prog C R α} {P Q : List (Event C R) → α → Prop} (hp : Spec p P)
    (h : ∀ t a, P t a → Q t a) : Spec p Q := by
  intro t o hr
  obtain ⟨a, ho, ha⟩ := hp hr
  exact ⟨a, ho, h t a ha⟩

theorem of_runs {p : Prog C R α} {P : List (Event C R) → α → Prop} (hp : Spec p P)
    {t : List (Event C R)} {a : α} (h : Runs p t (some a)) : P t a := by
  obtain ⟨b, hb, hP⟩ := hp h
  cases hb
  exact hP

theorem ret {P : List (Event C R) → α → Prop} {a : α} (h : P [] a) :
    Spec (.ret a : Prog C R α) P := by
  intro t o hr
  obtain ⟨rfl, rfl⟩ := Runs.ret_iff.mp hr
  exact ⟨a, rfl, h⟩

theorem call {P : List (Event C R) → α → Prop} {c : C} {k : R c → Prog C R α}
    (h : ∀ r, Spec (k r) fun t a => P (⟨c, r⟩ :: t) a) : Spec (.call c k) P := by
  intro t o hr
  obtain ⟨r, t, rfl, hk⟩ := Runs.call_iff.mp hr
  exact h r hk

/-- **The sequence rule.** -/
theorem bind {p : Prog C R α} {f : α → Prog C R β} {P : List (Event C R) → α → Prop}
    {Q : List (Event C R) → β → Prop} (hp : Spec p P)
    (hf : ∀ t a, P t a → Spec (f a) fun t' b => Q (t ++ t') b) : Spec (p >>= f) Q := by
  induction p generalizing P Q with
  | ret a =>
    obtain ⟨b, hb, hP⟩ := hp (.ret a)
    cases hb
    exact hf [] a hP
  | fault =>
    obtain ⟨b, hb, -⟩ := hp .fault
    cases hb
  | call c k ih =>
    refine .call fun r => ih r (P := fun t a => P (⟨c, r⟩ :: t) a) ?_ fun t a ha => hf _ a ha
    intro t o hr
    exact hp (.call r hr)

/-- A run of a sequence whose first part is specified is a run of each part. -/
theorem bind_runs {p : Prog C R α} {f : α → Prog C R β} {P : List (Event C R) → α → Prop} (hp : Spec p P)
    {t : List (Event C R)} {o : Option β} (h : Runs (p >>= f) t o) :
    ∃ a t₁ t₂, t = t₁ ++ t₂ ∧ P t₁ a ∧ Runs (f a) t₂ o := by
  induction p generalizing P t with
  | ret a =>
    obtain ⟨b, hb, hP⟩ := hp (.ret a)
    cases hb
    exact ⟨a, [], t, rfl, hP, h⟩
  | fault =>
    obtain ⟨b, hb, -⟩ := hp .fault
    cases hb
  | call c k ih =>
    obtain ⟨r, t, rfl, hk⟩ := Runs.call_iff.mp h
    obtain ⟨a, t₁, t₂, rfl, ha, hf⟩ := ih r (P := fun t a => P (⟨c, r⟩ :: t) a)
      (fun t o hr => hp (.call r hr)) hk
    exact ⟨a, _, t₂, rfl, ha, hf⟩

theorem and {p : Prog C R α} {P Q : List (Event C R) → α → Prop} (h : Spec p P) (h' : Spec p Q) :
    Spec p fun t a => P t a ∧ Q t a := by
  intro t o hrun
  obtain ⟨a, rfl, hP⟩ := h hrun
  exact ⟨a, rfl, hP, h'.of_runs hrun⟩

/-- What holds of a program's results holds of the program. -/
theorem of_map {p : Prog C R α} {f : α → β} {P : List (Event C R) → β → Prop} (h : Spec (f <$> p) P) :
    Spec p fun t a => P t (f a) := by
  intro t o hrun
  cases o with
  | none =>
    obtain ⟨b, hb, -⟩ := h (hrun.map f)
    cases hb
  | some a => exact ⟨a, rfl, h.of_runs (hrun.map f)⟩

end Spec

/-! ### Runs that may go wrong -/

/-- Every run of `p` ends properly with `P`, or in undefined behaviour with `F`. -/
def Ends (p : Prog C R α) (P : List (Event C R) → α → Prop) (F : List (Event C R) → Prop) : Prop :=
  ∀ ⦃t o⦄, Runs p t o → (∃ a, o = some a ∧ P t a) ∨ (o = none ∧ F t)

theorem Spec.ends {p : Prog C R α} {P : List (Event C R) → α → Prop} (hp : Spec p P)
    (F : List (Event C R) → Prop) : Ends p P F := fun _ _ hr => .inl (hp hr)

namespace Ends
variable {p : Prog C R α} {P Q : List (Event C R) → α → Prop} {F G : List (Event C R) → Prop}

theorem mono (hp : Ends p P F) (h : ∀ t a, P t a → Q t a) (hF : ∀ t, F t → G t) : Ends p Q G := by
  intro t o hr
  rcases hp hr with ⟨a, ho, ha⟩ | ⟨ho, hf⟩
  · exact .inl ⟨a, ho, h t a ha⟩
  · exact .inr ⟨ho, hF t hf⟩

theorem of_runs (hp : Ends p P F) {t : List (Event C R)} {a : α} (h : Runs p t (some a)) : P t a := by
  rcases hp h with ⟨b, hb, hP⟩ | ⟨hnone, -⟩
  · cases hb
    exact hP
  · cases hnone

theorem of_fault (hp : Ends p P F) {t : List (Event C R)} (h : Runs p t none) : F t := by
  rcases hp h with ⟨b, hb, -⟩ | ⟨-, hF⟩
  · cases hb
  · exact hF

theorem ret {a : α} (h : P [] a) : Ends (.ret a) P F := (Spec.ret h).ends F

theorem fault (h : F []) : Ends .fault P F := by
  intro t o hr
  obtain ⟨rfl, rfl⟩ := Runs.fault_iff.mp hr
  exact .inr ⟨rfl, h⟩

theorem call {c : C} {k : R c → Prog C R α}
    (h : ∀ r, Ends (k r) (fun t a => P (⟨c, r⟩ :: t) a) fun t => F (⟨c, r⟩ :: t)) : Ends (.call c k) P F := by
  intro t o hr
  obtain ⟨r, t, rfl, hk⟩ := Runs.call_iff.mp hr
  exact h r hk

/-- **The sequence rule.** A sequence goes wrong in its first part, or in the second behind a first that has not. -/
theorem bind {f : α → Prog C R β} {Q : List (Event C R) → β → Prop} (hp : Ends p P F)
    (hf : ∀ t a, P t a → Ends (f a) (fun t' b => Q (t ++ t') b) fun t' => F (t ++ t')) : Ends (p >>= f) Q F := by
  intro t o hr
  rcases hr.bind_cases with ⟨a, t₁, t₂, rfl, h₁, h₂⟩ | ⟨rfl, h₁⟩
  · exact hf t₁ a (hp.of_runs h₁) h₂
  · exact .inr ⟨rfl, hp.of_fault h₁⟩

theorem and (h : Ends p P F) (h' : Ends p Q G) : Ends p (fun t a => P t a ∧ Q t a) fun t => F t ∧ G t := by
  intro t o hrun
  rcases h hrun with ⟨a, rfl, hP⟩ | ⟨rfl, hF⟩
  · exact .inl ⟨a, rfl, hP, h'.of_runs hrun⟩
  · exact .inr ⟨rfl, hF, h'.of_fault hrun⟩

/-- A run of a sequence whose first part is specified is a run of each part, or has gone wrong in the first. -/
theorem bind_runs {f : α → Prog C R β} (hp : Ends p P F) {t : List (Event C R)} {o : Option β}
    (h : Runs (p >>= f) t o) : (∃ a t₁ t₂, t = t₁ ++ t₂ ∧ P t₁ a ∧ Runs (f a) t₂ o) ∨ (o = none ∧ F t) := by
  rcases h.bind_cases with ⟨a, t₁, t₂, rfl, h₁, h₂⟩ | ⟨rfl, h₁⟩
  · exact .inl ⟨a, t₁, t₂, rfl, hp.of_runs h₁, h₂⟩
  · exact .inr ⟨rfl, hp.of_fault h₁⟩

theorem of_map {f : α → β} {P : List (Event C R) → β → Prop} (h : Ends (f <$> p) P F) :
    Ends p (fun t a => P t (f a)) F := by
  intro t o hrun
  cases o with
  | none => exact .inr ⟨rfl, h.of_fault (hrun.map f)⟩
  | some a => exact .inl ⟨a, rfl, h.of_runs (hrun.map f)⟩

end Ends

/-! ### Running against a server that always answers -/

/-- The run of `p` against a server that answers call `c` in state `s` by `h s c`. -/
def play {σ : Type} (h : σ → (c : C) → R c × σ) : Prog C R α → σ → List (Event C R) × Option α × σ
  | .ret a, s => ([], some a, s)
  | .fault, s => ([], none, s)
  | .call c k, s =>
    let (r, s') := h s c
    let (t, o, s'') := play h (k r) s'
    (⟨c, r⟩ :: t, o, s'')

/-- A server that always answers yields a run. -/
theorem play_runs {σ : Type} (h : σ → (c : C) → R c × σ) (p : Prog C R α) (s : σ) :
    Runs p (play h p s).1 (play h p s).2.1 := by
  induction p generalizing s with
  | ret a => exact .ret a
  | fault => exact .fault
  | call c k ih => exact .call _ (ih _ _)

/-- A sequence is played part by part. -/
theorem play_bind {σ : Type} {h : σ → (c : C) → R c × σ} {p : Prog C R α} {s s' : σ} {a : α}
    (hp : (play h p s).2 = (some a, s')) (f : α → Prog C R β) :
    (play h (p >>= f) s).2 = (play h (f a) s').2 := by
  induction p generalizing s with
  | ret b =>
    cases hp
    rfl
  | fault => cases hp
  | call c k ih => exact ih _ hp

/-- In a played run every call is answered by the server. -/
theorem play_answered {σ : Type} (h : σ → (c : C) → R c × σ) (p : Prog C R α) (s : σ) :
    ∀ e ∈ (play h p s).1, ∃ s', e.answer = (h s' e.call).1 := by
  induction p generalizing s with
  | ret a => simp [play]
  | fault => simp [play]
  | call c k ih =>
    intro e he
    rcases List.mem_cons.mp he with rfl | he
    · exact ⟨s, rfl⟩
    · exact ih _ _ e he

/-- A server without a state, `h c` its answer to `c`, yields a run. -/
theorem exists_runs (h : (c : C) → R c) (p : Prog C R α) :
    ∃ t o, Runs p t o ∧ ∀ e ∈ t, e.answer = h e.call := by
  refine ⟨_, _, play_runs (σ := Unit) (fun _ c => (h c, ())) p (), fun e he => ?_⟩
  obtain ⟨-, hs⟩ := play_answered (σ := Unit) (fun _ c => (h c, ())) p () e he
  exact hs

/-- Against such a server there is only one. -/
theorem runs_unique {h : (c : C) → R c} {p : Prog C R α} {t t' : List (Event C R)} {o o' : Option α}
    (hrun : Runs p t o) (hans : ∀ e ∈ t, e.answer = h e.call) (hrun' : Runs p t' o')
    (hans' : ∀ e ∈ t', e.answer = h e.call) : t = t' ∧ o = o' := by
  induction hrun generalizing t' with
  | ret a =>
    obtain ⟨rfl, rfl⟩ := Runs.ret_iff.mp hrun'
    exact ⟨rfl, rfl⟩
  | fault =>
    obtain ⟨rfl, rfl⟩ := Runs.fault_iff.mp hrun'
    exact ⟨rfl, rfl⟩
  | @call c k t o r hk ih =>
    obtain ⟨r', u, rfl, hk'⟩ := Runs.call_iff.mp hrun'
    have hr : r = h c := hans ⟨c, r⟩ (List.mem_cons_self ..)
    have hr' : r' = h c := hans' ⟨c, r'⟩ (List.mem_cons_self ..)
    obtain rfl : r = r' := hr.trans hr'.symm
    obtain ⟨rfl, rfl⟩ := ih (fun e he => hans e (List.mem_cons_of_mem _ he)) hk'
      fun e he => hans' e (List.mem_cons_of_mem _ he)
    exact ⟨rfl, rfl⟩

/-! ### Following a transition relation along labels -/

section Path
variable {S L : Type} (step : S → L → S → Prop)

/-- `s'` can be reached from `s` by steps labelled `ls`, in order. -/
def Path (s : S) : List L → S → Prop
  | [], s' => s' = s
  | l :: ls, s' => ∃ m, step s l m ∧ Path m ls s'

variable {step}

@[simp] theorem path_nil {s s' : S} : Path step s [] s' ↔ s' = s := Iff.rfl

@[simp] theorem path_cons {s s' : S} {l : L} {ls : List L} :
    Path step s (l :: ls) s' ↔ ∃ m, step s l m ∧ Path step m ls s' := Iff.rfl

theorem path_append {s s' : S} {a b : List L} :
    Path step s (a ++ b) s' ↔ ∃ m, Path step s a m ∧ Path step m b s' := by
  induction a generalizing s with
  | nil => simp
  | cons l a ih =>
    simp only [List.cons_append, path_cons, ih]
    constructor
    · rintro ⟨m, hm, n, hn, h⟩
      exact ⟨n, ⟨m, hm, hn⟩, h⟩
    · rintro ⟨n, ⟨m, hm, hn⟩, h⟩
      exact ⟨m, hm, n, hn, h⟩

/-- **The invariant rule.** What every allowed step preserves holds at the end of a
path whose labels are all allowed. -/
theorem Path.invariant {I : S → Prop} {Ok : L → Prop}
    (hstep : ∀ s l s', Ok l → I s → step s l s' → I s') {s s' : S} {ls : List L}
    (hp : Path step s ls s') (hok : ∀ l ∈ ls, Ok l) (hs : I s) : I s' := by
  induction ls generalizing s with
  | nil =>
    cases hp
    exact hs
  | cons l ls ih =>
    obtain ⟨m, hm, hp⟩ := hp
    exact ih hp (fun l' hl' => hok l' (List.mem_cons_of_mem l hl'))
      (hstep s l m (hok l (List.mem_cons_self ..)) hs hm)

/-- **The progress rule.** If in every state that is met each call can be answered, the program gets to its end. -/
theorem exists_path {I : S → Prop} {P : Event C R → Prop} (label : Event C R → L)
    (hstep : ∀ s c, I s → ∃ r s', P ⟨c, r⟩ ∧ step s (label ⟨c, r⟩) s' ∧ I s') (p : Prog C R α) {s : S} (hs : I s) :
    ∃ t o s', Runs p t o ∧ (∀ e ∈ t, P e) ∧ Path step s (t.map label) s' := by
  induction p generalizing s with
  | ret a => exact ⟨[], some a, s, .ret a, fun e he => absurd he List.not_mem_nil, rfl⟩
  | fault => exact ⟨[], none, s, .fault, fun e he => absurd he List.not_mem_nil, rfl⟩
  | call c k ih =>
    obtain ⟨r, m, hr, hm, hI⟩ := hstep s c hs
    obtain ⟨t, o, s', hrun, hall, hpath⟩ := ih r hI
    refine ⟨⟨c, r⟩ :: t, o, s', .call r hrun, fun e he => ?_, m, hm, hpath⟩
    rcases List.mem_cons.mp he with rfl | he
    · exact hr
    · exact hall e he

end Path

end Interaction
