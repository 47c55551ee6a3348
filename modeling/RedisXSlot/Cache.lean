import RedisXSlot.Connections

/-! The cache of the connections, and what its sweep takes out of it.

The iterator hands the sweep each name as a pointer and a length. The sweep frees the
connection, and takes the name out again with the length that `strlen` finds: it depends on
what lies behind the name in memory whether that is the same entry (`cached_open_iff`).

The sweep deletes from the dictionary while it iterates and does not seek again. What the
iterator of Redis does then is taken to be this: it goes on through the entries that were
there when it was started, in their order, and leaves out those that have been deleted. -/
namespace RedisXSlot

/-- `slotsmgrt_cached_ctx_connects`, and the connections that it refers to. -/
structure Cache where
  /-- In the order of the names. -/
  slotsmgrt_cached_ctx_connects : List (Bytes × Nat)
  /-- The `last_time` of the connections that have not been freed. -/
  last_time : Nat → Option Int
  /-- How many connections have been opened. -/
  opened : Nat

inductive CacheCall where
  /-- `c` is how a connect ends, should there be one. -/
  | getConnCtx (unixtime : Int) (target : Target) (w : Tid) (c : ConnectAnswer)
  | closeConn (target : Target) (w : Tid)
  /-- `behind` is what lies behind each name when the iterator is at it, up to some NUL. -/
  | closeTimedoutConns (unixtime : Int) (behind : Bytes → Bytes)

namespace Cache

def init : Cache := ⟨[], fun _ => none, 0⟩

variable (s : Cache)

/-- `RedisModule_DictGetC`. -/
def dictGetC (name : Bytes) : Option Nat := s.slotsmgrt_cached_ctx_connects.lookup name

/-- `RedisModule_DictSetC`, which leaves a name alone that is there. -/
def dictSetC (name : Bytes) (conn : Nat) : Cache :=
  if (s.dictGetC name).isSome then s
  else { s with slotsmgrt_cached_ctx_connects :=
    s.slotsmgrt_cached_ctx_connects.orderedInsert (fun e f => stringCompare e.1 f.1 ≠ .gt) (name, conn) }

/-- `RedisModule_DictDelC`. -/
def dictDelC (name : Bytes) : Cache :=
  { s with slotsmgrt_cached_ctx_connects := s.slotsmgrt_cached_ctx_connects.filter fun e => e.1 ≠ name }

/-- `none` if the connection has been freed before. -/
def setLastTime (conn : Nat) (last_time : Option Int) : Option Cache :=
  (s.last_time conn).map fun _ => { s with last_time := Function.update s.last_time conn last_time }

/-- `SlotsMGRT_GetConnCtx`. -/
def getConnCtx (unixtime : Int) (name : Bytes) (c : ConnectAnswer) : Option Cache :=
  match s.dictGetC name with
  | some conn => s.setLastTime conn (some unixtime)
  | none =>
    if c.overruns name then none
    else if c = .connected then
      some ({ s with last_time := Function.update s.last_time s.opened (some unixtime), opened := s.opened + 1 }.dictSetC
        name s.opened)
    else some s

/-- `SlotsMGRT_CloseConn`. -/
def closeConn (name : Bytes) : Option Cache :=
  match s.dictGetC name with
  | some conn => (s.dictDelC name).setLastTime conn none
  | none => some s

/-- The sweep at an entry; the iterator does not come to one that is gone. -/
def closeTimedoutConn (unixtime : Int) (behind : Bytes → Bytes) (s : Cache) (e : Bytes × Nat) : Option Cache :=
  if e ∈ s.slotsmgrt_cached_ctx_connects then
    match s.last_time e.2 with
    | none => none
    | some last_time =>
      if unixtime - last_time > MGRT_BATCH_KEY_TIMEOUT then
        (s.dictDelC (cString (e.1 ++ behind e.1))).setLastTime e.2 none
      else some s
  else some s

/-- `SlotsMGRT_CloseTimedoutConns`. -/
def closeTimedoutConns (unixtime : Int) (behind : Bytes → Bytes) : Option Cache :=
  s.slotsmgrt_cached_ctx_connects.foldlM (closeTimedoutConn unixtime behind) s

/-- `none` if it uses a connection that has been freed, or overruns `errLog`. -/
def call : CacheCall → Option Cache
  | .getConnCtx unixtime target w c => s.getConnCtx unixtime (getConnName target w) c
  | .closeConn target w => s.closeConn (getConnName target w)
  | .closeTimedoutConns unixtime behind => s.closeTimedoutConns unixtime behind

/-- No entry refers to a connection that has been freed. -/
def AllOpen : Prop := ∀ e ∈ s.slotsmgrt_cached_ctx_connects, s.last_time e.2 ≠ none

/-- A sweep takes out the entries of the connections that it frees, and no others. -/
def SweptExactly (s' : Cache) : CacheCall → Prop
  | .closeTimedoutConns _ _ => ∀ e, e ∈ s'.slotsmgrt_cached_ctx_connects ↔
      e ∈ s.slotsmgrt_cached_ctx_connects ∧ s'.last_time e.2 ≠ none
  | _ => True

/-- The call connects, and fails with a text that does not fit in `errLog`. -/
def Overruns : CacheCall → Prop
  | .getConnCtx _ target w c => s.dictGetC (getConnName target w) = none ∧ c.overruns (getConnName target w) = true
  | _ => False

/-- Every state that the calls reach is open, none of them uses what is freed, and the sweeps are exact.
A call that overruns `errLog` reaches no further state. -/
def KeptOpen : Cache → List CacheCall → Prop
  | s, [] => s.AllOpen
  | s, c :: cs => s.AllOpen ∧ (s.Overruns c ∨ ∃ s', s.call c = some s' ∧ s.SweptExactly s' c ∧ KeptOpen s' cs)

def TimedOut (unixtime : Int) (e : Bytes × Nat) : Prop :=
  ∃ last_time, s.last_time e.2 = some last_time ∧ unixtime - last_time > MGRT_BATCH_KEY_TIMEOUT

/-- A sweep finds a NUL behind the name of each entry that is timed out, and none in it. -/
def NamesEnd : CacheCall → Prop
  | .closeTimedoutConns unixtime behind => ∀ e ∈ s.slotsmgrt_cached_ctx_connects, s.TimedOut unixtime e →
      cString (e.1 ++ behind e.1) = e.1
  | _ => True

/-- All sweeps of the run find the names ended. -/
def AllEnd : Cache → List CacheCall → Prop
  | _, [] => True
  | s, c :: cs => s.NamesEnd c ∧ ∀ s', s.call c = some s' → AllEnd s' cs

/-! ### The calls of the workers -/

/-- Every name and every connection is there once, and the connections are open. -/
structure Kept (s : Cache) : Prop where
  names : ∀ e ∈ s.slotsmgrt_cached_ctx_connects, ∀ f ∈ s.slotsmgrt_cached_ctx_connects, e.1 = f.1 → e = f
  conns : ∀ e ∈ s.slotsmgrt_cached_ctx_connects, ∀ f ∈ s.slotsmgrt_cached_ctx_connects, e.2 = f.2 → e = f
  opened : ∀ e ∈ s.slotsmgrt_cached_ctx_connects, e.2 < s.opened
  allOpen : s.AllOpen

theorem kept_init : init.Kept := ⟨nofun, nofun, nofun, nofun⟩

section
variable {s : Cache}

theorem mem_of_dictGetC {name : Bytes} {conn : Nat} (h : s.dictGetC name = some conn) :
    (name, conn) ∈ s.slotsmgrt_cached_ctx_connects := by
  obtain ⟨l, l', heq, -⟩ := List.lookup_eq_some_iff.mp h
  rw [heq]
  exact List.mem_append_right l List.mem_cons_self

theorem dictSetC_of_absent {name : Bytes} (h : s.dictGetC name = none) (conn : Nat) :
    s.dictSetC name conn = { s with slotsmgrt_cached_ctx_connects :=
      s.slotsmgrt_cached_ctx_connects.orderedInsert (fun e f => stringCompare e.1 f.1 ≠ .gt) (name, conn) } := by
  rw [dictSetC, h]
  rfl

theorem mem_dictDelC {name : Bytes} {e : Bytes × Nat} :
    e ∈ (s.dictDelC name).slotsmgrt_cached_ctx_connects ↔ e ∈ s.slotsmgrt_cached_ctx_connects ∧ e.1 ≠ name := by
  rw [dictDelC, List.mem_filter, decide_eq_true_iff]

/-- Taking an entry out and freeing its connection. -/
def close (s : Cache) (e : Bytes × Nat) : Cache :=
  { s.dictDelC e.1 with last_time := Function.update s.last_time e.2 none }

theorem last_time_close_of_ne {e : Bytes × Nat} {conn : Nat} (h : conn ≠ e.2) :
    (s.close e).last_time conn = s.last_time conn := Function.update_of_ne h ..

theorem Kept.ne_of_close (h : s.Kept) {e f : Bytes × Nat} (he : e ∈ s.slotsmgrt_cached_ctx_connects)
    (hf : f ∈ (s.close e).slotsmgrt_cached_ctx_connects) : f.2 ≠ e.2 := by
  obtain ⟨hf, hne⟩ := mem_dictDelC.mp hf
  intro hconn
  exact hne (congrArg Prod.fst (h.conns f hf e he hconn))

theorem Kept.close (h : s.Kept) {e : Bytes × Nat} (he : e ∈ s.slotsmgrt_cached_ctx_connects) : (s.close e).Kept where
  names f hf g hg := h.names f (mem_dictDelC.mp hf).1 g (mem_dictDelC.mp hg).1
  conns f hf g hg := h.conns f (mem_dictDelC.mp hf).1 g (mem_dictDelC.mp hg).1
  opened f hf := h.opened f (mem_dictDelC.mp hf).1
  allOpen f hf := by
    rw [last_time_close_of_ne (h.ne_of_close he hf)]
    exact h.allOpen f (mem_dictDelC.mp hf).1

theorem Kept.closeConn (h : s.Kept) (name : Bytes) : ∃ s', s.closeConn name = some s' ∧ s'.Kept := by
  rw [Cache.closeConn]
  split
  next conn hget =>
    have he := mem_of_dictGetC hget
    obtain ⟨t, ht⟩ := Option.ne_none_iff_exists'.mp (h.allOpen _ he)
    refine ⟨s.close (name, conn), ?_, h.close he⟩
    rw [setLastTime, show (s.dictDelC name).last_time conn = some t from ht]
    rfl
  next => exact ⟨s, rfl, h⟩

theorem Kept.getConnCtx (h : s.Kept) (unixtime : Int) (name : Bytes) {c : ConnectAnswer}
    (hfits : s.dictGetC name = none → c.overruns name = false) :
    ∃ s', s.getConnCtx unixtime name c = some s' ∧ s'.Kept := by
  have hupdate {conn conn' : Nat} (hopen : s.last_time conn' ≠ none) :
      Function.update s.last_time conn (some unixtime) conn' ≠ none := by
    rw [Function.update_apply]
    split
    next => exact Option.some_ne_none _
    next => exact hopen
  rw [Cache.getConnCtx]
  split
  next conn hget =>
    obtain ⟨t, ht⟩ := Option.ne_none_iff_exists'.mp (h.allOpen _ (mem_of_dictGetC hget))
    rw [setLastTime, ht]
    exact ⟨_, rfl, h.names, h.conns, h.opened, fun e he => hupdate (h.allOpen e he)⟩
  next hget =>
    rw [hfits hget, if_neg Bool.false_ne_true]
    split
    next =>
      have habsent : ∀ e ∈ s.slotsmgrt_cached_ctx_connects, e.1 ≠ name := fun e he hname =>
        bne_iff_ne.mp (List.lookup_eq_none_iff.mp hget e he) hname.symm
      rw [dictSetC_of_absent (s := { s with
        last_time := Function.update s.last_time s.opened (some unixtime), opened := s.opened + 1 }) hget]
      refine ⟨_, rfl, ?names, ?conns, ?opened, ?allOpen⟩
      case names =>
        intro e he f hf hname
        rcases (List.mem_orderedInsert _).mp he with rfl | he
        · rcases (List.mem_orderedInsert _).mp hf with rfl | hf
          · rfl
          · exact absurd hname.symm (habsent f hf)
        · rcases (List.mem_orderedInsert _).mp hf with rfl | hf
          · exact absurd hname (habsent e he)
          · exact h.names e he f hf hname
      case conns =>
        intro e he f hf hconn
        rcases (List.mem_orderedInsert _).mp he with rfl | he
        · rcases (List.mem_orderedInsert _).mp hf with rfl | hf
          · rfl
          · exact absurd hconn.symm (h.opened f hf).ne
        · rcases (List.mem_orderedInsert _).mp hf with rfl | hf
          · exact absurd hconn (h.opened e he).ne
          · exact h.conns e he f hf hconn
      case opened =>
        intro e he
        rcases (List.mem_orderedInsert _).mp he with rfl | he
        · exact Nat.lt_succ_self _
        · exact (h.opened e he).trans (Nat.lt_succ_self _)
      case allOpen =>
        intro e he
        rcases (List.mem_orderedInsert _).mp he with rfl | he
        · show Function.update s.last_time s.opened (some unixtime) s.opened ≠ none
          rw [Function.update_self]
          exact Option.some_ne_none _
        · exact hupdate (h.allOpen e he)
    next => exact ⟨s, rfl, h⟩

/-! ### The sweep -/

variable {unixtime : Int} {behind : Bytes → Bytes}

/-- What the sweep does at an entry: nothing, or it frees the connection and takes some name out. -/
theorem closeTimedoutConn_cases {e : Bytes × Nat} {s' : Cache} (h : closeTimedoutConn unixtime behind s e = some s') :
    (s' = s ∧ (e ∈ s.slotsmgrt_cached_ctx_connects → ¬ s.TimedOut unixtime e)) ∨
      (e ∈ s.slotsmgrt_cached_ctx_connects ∧ s.TimedOut unixtime e ∧
        s' = { s.dictDelC (cString (e.1 ++ behind e.1)) with last_time := Function.update s.last_time e.2 none }) := by
  rw [closeTimedoutConn] at h
  split at h
  next he =>
    split at h
    next => cases h
    next t ht =>
      split at h
      next hout =>
        rw [setLastTime, show (s.dictDelC _).last_time e.2 = some t from ht] at h
        cases h
        exact .inr ⟨he, ⟨t, ht, hout⟩, rfl⟩
      next hin =>
        cases h
        refine .inl ⟨rfl, fun _ ⟨t', ht', hout⟩ => ?_⟩
        rw [ht] at ht'
        cases ht'
        exact hin hout
  next he =>
    cases h
    exact .inl ⟨rfl, fun hmem => absurd hmem he⟩

/-- What is freed stays freed. -/
theorem last_time_closeTimedoutConn {e : Bytes × Nat} {s' : Cache} (h : closeTimedoutConn unixtime behind s e = some s') {conn : Nat} :
    s'.last_time conn = s.last_time conn ∨ (conn = e.2 ∧ s'.last_time conn = none) := by
  rcases closeTimedoutConn_cases h with ⟨rfl, -⟩ | ⟨-, -, rfl⟩
  · exact .inl rfl
  · by_cases hconn : conn = e.2
    · exact .inr ⟨hconn, hconn ▸ Function.update_self ..⟩
    · exact .inl (Function.update_of_ne hconn ..)

theorem last_time_foldlM {l : List (Bytes × Nat)} {s' : Cache} (h : l.foldlM (closeTimedoutConn unixtime behind) s = some s')
    {conn : Nat} (hfreed : s.last_time conn = none) : s'.last_time conn = none := by
  induction l generalizing s with
  | nil =>
    cases h
    exact hfreed
  | cons e l ih =>
    obtain ⟨s₁, h₁, hrest⟩ := Option.bind_eq_some_iff.mp h
    refine ih hrest ?_
    rcases last_time_closeTimedoutConn h₁ with heq | ⟨-, hnone⟩
    · rw [heq]
      exact hfreed
    · exact hnone

/-- An entry that is timed out is not one that the sweep has freed. -/
theorem TimedOut.of_closeTimedoutConn {e f : Bytes × Nat} {s' : Cache} (h : closeTimedoutConn unixtime behind s e = some s')
    (hout : s'.TimedOut unixtime f) : s.TimedOut unixtime f := by
  obtain ⟨t, ht, hlate⟩ := hout
  rcases @last_time_closeTimedoutConn _ _ _ _ _ h f.2 with heq | ⟨-, hnone⟩
  · exact ⟨t, heq ▸ ht, hlate⟩
  · rw [hnone] at ht
    cases ht

/-- **The sweep of names that end**: it takes out what it frees. -/
theorem Kept.foldlM (h : s.Kept) {l : List (Bytes × Nat)}
    (hend : ∀ e ∈ s.slotsmgrt_cached_ctx_connects, s.TimedOut unixtime e → cString (e.1 ++ behind e.1) = e.1) :
    ∃ s', l.foldlM (closeTimedoutConn unixtime behind) s = some s' ∧ s'.Kept ∧
      ∀ e, e ∈ s'.slotsmgrt_cached_ctx_connects ↔ e ∈ s.slotsmgrt_cached_ctx_connects ∧ s'.last_time e.2 ≠ none := by
  induction l generalizing s with
  | nil => exact ⟨s, rfl, h, fun e => (and_iff_left_of_imp (h.allOpen e)).symm⟩
  | cons e l ih =>
    by_cases he : e ∈ s.slotsmgrt_cached_ctx_connects
    · obtain ⟨t, ht⟩ := Option.ne_none_iff_exists'.mp (h.allOpen e he)
      by_cases hout : unixtime - t > MGRT_BATCH_KEY_TIMEOUT
      · have hround : closeTimedoutConn unixtime behind s e = some (s.close e) := by
          rw [closeTimedoutConn, if_pos he, ht]
          dsimp only
          rw [if_pos hout, hend e he ⟨t, ht, hout⟩, setLastTime, show (s.dictDelC e.1).last_time e.2 = some t from ht]
          rfl
        have hend' : ∀ f ∈ (s.close e).slotsmgrt_cached_ctx_connects, (s.close e).TimedOut unixtime f →
            cString (f.1 ++ behind f.1) = f.1 := fun f hf hlate =>
          hend f (mem_dictDelC.mp hf).1 (hlate.of_closeTimedoutConn hround)
        obtain ⟨s', hrest, hkept, hmem⟩ := ih (h.close he) hend'
        refine ⟨s', Option.bind_eq_some_iff.mpr ⟨_, hround, hrest⟩, hkept, fun f => ?_⟩
        rw [hmem f]
        constructor
        · exact fun hf => ⟨(mem_dictDelC.mp hf.1).1, hf.2⟩
        · rintro ⟨hf, hopen⟩
          refine ⟨mem_dictDelC.mpr ⟨hf, fun hname => hopen ?_⟩, hopen⟩
          rw [h.names f hf e he hname]
          exact last_time_foldlM hrest (Function.update_self ..)
      · have hround : closeTimedoutConn unixtime behind s e = some s := by
          rw [closeTimedoutConn, if_pos he, ht]
          exact if_neg hout
        obtain ⟨s', hrest, hs'⟩ := ih h hend
        exact ⟨s', Option.bind_eq_some_iff.mpr ⟨s, hround, hrest⟩, hs'⟩
    · obtain ⟨s', hrest, hs'⟩ := ih h hend
      exact ⟨s', Option.bind_eq_some_iff.mpr ⟨s, if_neg he, hrest⟩, hs'⟩

/-- An entry whose name the sweep does not take out is still there, and freed if it is timed out. -/
theorem foldlM_stale {l : List (Bytes × Nat)} {s' : Cache} (h : l.foldlM (closeTimedoutConn unixtime behind) s = some s')
    {f : Bytes × Nat} (hf : f ∈ s.slotsmgrt_cached_ctx_connects)
    (hkeep : ∀ e ∈ s.slotsmgrt_cached_ctx_connects, s.TimedOut unixtime e → cString (e.1 ++ behind e.1) ≠ f.1) :
    f ∈ s'.slotsmgrt_cached_ctx_connects ∧ (f ∈ l → s.TimedOut unixtime f → s'.last_time f.2 = none) := by
  induction l generalizing s with
  | nil =>
    cases h
    exact ⟨hf, fun hl => (List.not_mem_nil hl).elim⟩
  | cons e l ih =>
    obtain ⟨s₁, h₁, hrest⟩ := Option.bind_eq_some_iff.mp h
    rcases closeTimedoutConn_cases h₁ with ⟨rfl, hin⟩ | ⟨he, hlate, rfl⟩
    · obtain ⟨hf', hfreed⟩ := ih hrest hf hkeep
      refine ⟨hf', fun hl hout => hfreed ?_ hout⟩
      rcases List.mem_cons.mp hl with rfl | hl
      · exact absurd hout (hin hf)
      · exact hl
    · have hsub {g : Bytes × Nat} (hg : g ∈ (s.dictDelC (cString (e.1 ++ behind e.1))).slotsmgrt_cached_ctx_connects) :
          g ∈ s.slotsmgrt_cached_ctx_connects := (mem_dictDelC.mp hg).1
      obtain ⟨hf', hfreed⟩ := ih hrest (mem_dictDelC.mpr ⟨hf, (hkeep e he hlate).symm⟩)
        fun g hg hout => hkeep g (hsub hg) (hout.of_closeTimedoutConn h₁)
      refine ⟨hf', fun hl hout => ?_⟩
      by_cases hconn : f.2 = e.2
      · exact last_time_foldlM hrest (hconn ▸ Function.update_self ..)
      · have hl : f ∈ l := (List.mem_cons.mp hl).resolve_left fun heq => hconn (heq ▸ rfl)
        obtain ⟨t, ht, hlate⟩ := hout
        exact hfreed hl ⟨t, (Function.update_of_ne hconn ..).trans ht, hlate⟩

/-- How far a name is from being taken out in place of another: one with a NUL in it never is. -/
def reach (name : Bytes) : Nat := if NulFree name then name.length + 1 else 0

theorem reach_lt {name name' : Bytes} {suffix : Bytes} (h : cString (name' ++ suffix) = name) (hne : name' ≠ name) :
    reach name' < reach name := by
  have hfree : NulFree name := h ▸ cString_nulFree _
  rw [reach, reach, if_pos hfree]
  split
  next hfree' =>
    have happend : name = name' ++ cString suffix := by
      rw [← h]
      exact List.takeWhile_append_of_pos fun c hc => by
        rw [bne_iff_ne]
        rintro rfl
        exact hfree' hc
    have hsuffix : cString suffix ≠ [] := by
      intro hnil
      rw [hnil, List.append_nil] at happend
      exact hne happend.symm
    have hpos := List.length_pos_of_ne_nil hsuffix
    rw [happend, List.length_append]
    omega
  next => omega

/-- **A sweep that leaves all connections open has found the names ended.** -/
theorem Kept.namesEnd (h : s.Kept) {s' : Cache} (hsweep : s.closeTimedoutConns unixtime behind = some s') (hopen : s'.AllOpen) :
    s.NamesEnd (.closeTimedoutConns unixtime behind) := by
  have main (n : Nat) : ∀ f ∈ s.slotsmgrt_cached_ctx_connects, s.TimedOut unixtime f → reach f.1 = n →
      cString (f.1 ++ behind f.1) = f.1 := by
    induction n using Nat.strong_induction_on with
    | h n ih =>
      intro f hf hout hn
      by_contra hwrong
      have hkeep : ∀ e ∈ s.slotsmgrt_cached_ctx_connects, s.TimedOut unixtime e → cString (e.1 ++ behind e.1) ≠ f.1 := by
        intro e he hlate hname
        have hne : e.1 ≠ f.1 := by
          intro heq
          rw [h.names e he f hf heq] at hname
          exact hwrong hname
        have hright := ih (reach e.1) (hn ▸ reach_lt hname hne) e he hlate rfl
        exact hne (hright.symm.trans hname)
      obtain ⟨hf', hfreed⟩ := foldlM_stale hsweep hf hkeep
      exact hopen f hf' (hfreed hf hout)
  exact fun f hf hout => main _ f hf hout rfl

/-! ### The runs -/

theorem Kept.call (h : s.Kept) {c : CacheCall} (hend : s.NamesEnd c) (hover : ¬ s.Overruns c) :
    ∃ s', s.call c = some s' ∧ s'.Kept ∧ s.SweptExactly s' c := by
  cases c with
  | getConnCtx unixtime target w c =>
    have hfits (hget : s.dictGetC (getConnName target w) = none) : c.overruns (getConnName target w) = false :=
      Bool.eq_false_iff.mpr fun hc => hover ⟨hget, hc⟩
    obtain ⟨s', hcall, hkept⟩ := h.getConnCtx unixtime (getConnName target w) hfits
    exact ⟨s', hcall, hkept, trivial⟩
  | closeConn target w =>
    obtain ⟨s', hcall, hkept⟩ := h.closeConn (getConnName target w)
    exact ⟨s', hcall, hkept, trivial⟩
  | closeTimedoutConns unixtime behind => exact h.foldlM hend

/-- A call that overruns `errLog` reaches no state, and is no sweep. -/
theorem Overruns.ends {c : CacheCall} (hover : s.Overruns c) : s.NamesEnd c ∧ s.call c = none := by
  cases c with
  | getConnCtx unixtime target w c =>
    refine ⟨trivial, ?_⟩
    rw [Cache.call, Cache.getConnCtx, hover.1]
    exact if_pos hover.2
  | _ => exact hover.elim

theorem KeptOpen.allOpen {cs : List CacheCall} (h : s.KeptOpen cs) : s.AllOpen := by
  cases cs with
  | nil => exact h
  | cons c cs => exact h.1

theorem Kept.keptOpen_iff (h : s.Kept) (cs : List CacheCall) : s.KeptOpen cs ↔ s.AllEnd cs := by
  induction cs generalizing s with
  | nil => exact iff_of_true h.allOpen trivial
  | cons c cs ih =>
    rw [KeptOpen, AllEnd]
    by_cases hover : s.Overruns c
    · obtain ⟨hend, hcall⟩ := hover.ends
      refine iff_of_true ⟨h.allOpen, .inl hover⟩ ⟨hend, fun s' hs' => ?_⟩
      rw [hcall] at hs'
      cases hs'
    constructor
    · rintro ⟨-, hnever | ⟨s', hcall, -, hrest⟩⟩
      · exact absurd hnever hover
      have hend : s.NamesEnd c := by
        cases c with
        | closeTimedoutConns unixtime behind => exact h.namesEnd hcall hrest.allOpen
        | _ => trivial
      obtain ⟨s₁, hcall₁, hkept, -⟩ := h.call hend hover
      refine ⟨hend, fun s₂ hcall₂ => ?_⟩
      rw [hcall] at hcall₁ hcall₂
      cases hcall₁
      cases hcall₂
      exact (ih hkept).mp hrest
    · rintro ⟨hend, hrest⟩
      obtain ⟨s', hcall, hkept, hexact⟩ := h.call hend hover
      exact ⟨h.allOpen, .inr ⟨s', hcall, hexact, (ih hkept).mpr (hrest s' hcall)⟩⟩

end

/-- **When every cached connection is open**: over any run of lookups, closes and sweeps nothing that
is freed is used or stays in the cache, if and only if each sweep finds the name of each entry that
is timed out without a NUL in it and with one right behind it. -/
theorem cached_open_iff (cs : List CacheCall) : init.KeptOpen cs ↔ init.AllEnd cs := kept_init.keptOpen_iff cs

/-- A digit behind the name. -/
theorem not_cached_open : ¬ init.KeptOpen
    [.getConnCtx 0 ⟨[104], [49]⟩ ⟨7, by decide⟩ .connected, .closeTimedoutConns 31 fun _ => [48]] := by
  rw [kept_init.keptOpen_iff]
  rintro ⟨-, h⟩
  obtain ⟨hend, -⟩ := h _ rfl
  exact absurd (hend (getConnName ⟨[104], [49]⟩ ⟨7, by decide⟩, 0) (List.mem_singleton.mpr rfl) ⟨0, rfl, by decide⟩) (by decide)

end Cache
end RedisXSlot
