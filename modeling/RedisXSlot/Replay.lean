import RedisXSlot.Coverage

/-! Replaying events into the index.

Between two events the module remembers the first half of a rename and of a move: a key,
and a database. What the events should come to is said without a memory (`reference`): an
event that completes a pair looks for its other half in the past. As long as the pairs of
each kind do not overlap among themselves, whatever else falls between their halves, the
module agrees (`replay_exact`). -/
namespace RedisXSlot

/-- What the module hears of: a notification, a new node of the skiplist drawing its level, or a
flush that starts or ends. -/
inductive ModuleEvent where
  | notification (e : KeyspaceEvent) (draws : Nat)
  | flush (start : Bool) (dbnum : Option Nat)

section Hash
variable (hash : Bytes → Nat) (conf : SlotsMetaInfo)

def ModuleState.handle (m : ModuleState) : ModuleEvent → ModuleState
  | .notification e draws => notify hash conf draws m e
  | .flush start dbnum => { m with slots := flushdbCallback conf m.slots start dbnum }

end Hash

/-! ### The reference -/

/-- A change of the keys of the databases. -/
inductive Change where
  | add (db : Nat) (key : Bytes)
  | remove (db : Nat) (key : Bytes)
  | transfer (db : Nat) (key : Bytes) (dst : Nat) (newkey : Bytes)
  | flush (dbnum : Option Nat)

def Change.apply (ks : Nat → Set Bytes) : Change → Nat → Set Bytes
  | .add db key => Function.update ks db (insert key (ks db))
  | .remove db key => Function.update ks db (ks db \ {key})
  | .transfer db key dst newkey =>
    let ks := Function.update ks db (ks db \ {key})
    Function.update ks dst (insert newkey (ks dst))
  | .flush (some db) => Function.update ks db ∅
  | .flush none => fun _ => ∅

/-- The latest generic event of this name; the past is given newest first. -/
def latest (event : String) : List ModuleEvent → Option KeyspaceEvent
  | [] => none
  | .notification e _ :: past => if e.type ∈ genericMask ∧ e.event = event then some e else latest event past
  | .flush .. :: past => latest event past

/-- The change an event makes, after this past. -/
def ModuleEvent.change (past : List ModuleEvent) : ModuleEvent → Option Change
  | .notification e _ =>
    if e.type ∈ typeChangeMask then some (.add e.db e.key)
    else if e.type ∈ genericMask then
      if e.event = "del" ∨ e.event = "expired" then some (.remove e.db e.key)
      else if e.event = "rename_to" then (latest "rename_from" past).map fun f => .transfer f.db f.key e.db e.key
      else if e.event = "move_to" then (latest "move_from" past).map fun f => .transfer f.db f.key e.db e.key
      else none
    else none
  | .flush start dbnum => if start then some (.flush dbnum) else none

/-- The keys of the databases after the events. -/
def reference (past : List ModuleEvent) (ks : Nat → Set Bytes) : List ModuleEvent → Nat → Set Bytes
  | [] => ks
  | e :: es => reference (e :: past) (((e.change past).map (·.apply ks)).getD ks) es

/-! ### Pairs of events -/

/-- The events of a pair's two names, in order. -/
def halves (first second : String) (es : List ModuleEvent) : List KeyspaceEvent :=
  es.filterMap fun e => match e with
    | .notification e _ => if e.type ∈ genericMask ∧ (e.event = first ∨ e.event = second) then some e else none
    | .flush .. => none

/-- Each first half is followed by its second, and then by the next pair. -/
inductive Paired (first second : String) (R : KeyspaceEvent → KeyspaceEvent → Prop) : List KeyspaceEvent → Prop where
  | nil : Paired first second R []
  | pair {f e : KeyspaceEvent} {es : List KeyspaceEvent} :
      f.event = first → e.event = second → R f e → Paired first second R es → Paired first second R (f :: e :: es)

/-- Renames complete one another within a database, and moves with the same key. -/
structure PairsComplete (es : List ModuleEvent) : Prop where
  rename : Paired "rename_from" "rename_to" (fun f e => f.db = e.db) (halves "rename_from" "rename_to" es)
  move : Paired "move_from" "move_to" (fun f e => f.key = e.key) (halves "move_from" "move_to" es)

namespace Paired
variable {first second : String} {R : KeyspaceEvent → KeyspaceEvent → Prop} {waiting : Option KeyspaceEvent}
  {e : KeyspaceEvent} {es : List KeyspaceEvent}

/-- Nothing waits for its second half when a first one comes. -/
theorem of_first (hne : first ≠ second) (he : e.event = first) (h : Paired first second R (waiting.toList ++ e :: es)) :
    waiting = none := by
  cases waiting with
  | none => rfl
  | some f =>
    cases h with
    | pair _ he' _ _ => exact absurd (he.symm.trans he') hne

/-- A second half has a first one waiting for it. -/
theorem of_second (hne : first ≠ second) (he : e.event = second)
    (h : Paired first second R (waiting.toList ++ e :: es)) :
    ∃ f, waiting = some f ∧ R f e ∧ Paired first second R es := by
  cases waiting with
  | none =>
    cases h with
    | pair hf _ _ _ => exact absurd (hf.symm.trans he) hne
  | some f =>
    cases h with
    | pair _ _ hR h => exact ⟨f, rfl, hR, h⟩

end Paired

/-! ### The module follows the reference -/

section
variable {hash : Bytes → Nat} {conf : SlotsMetaInfo} {s : Slots} {ks : Nat → Set Bytes}

/-- Only databases that exist are looked at. -/
def SameKeys (conf : SlotsMetaInfo) (s : Slots) (ks : Nat → Set Bytes) : Prop :=
  ∀ db < conf.databases, s.keys conf db = ks db

theorem SameKeys.add (hwf : s.Wf hash conf) (h : SameKeys conf s ks) (db : Nat) (key : Bytes) (draws : Nat) :
    SameKeys conf (slotsAdd hash conf s db key draws) ((Change.add db key).apply ks) := by
  intro i hi
  ext k
  rw [(keys_slotsAdd hwf db key draws).2 i k, h i hi, Change.apply]
  by_cases hdb : i = db
  · subst hdb
    simp
  · simp [hdb]

theorem SameKeys.remove (hwf : s.Wf hash conf) (h : SameKeys conf s ks) (db : Nat) (key : Bytes) :
    SameKeys conf (slotsDel hash conf s db key) ((Change.remove db key).apply ks) := by
  intro i hi
  ext k
  rw [(keys_slotsDel hwf db key).2 i k, h i hi, Change.apply]
  by_cases hdb : i = db
  · subst hdb
    simp [and_comm]
  · simp [hdb]

theorem SameKeys.transfer (hwf : s.Wf hash conf) (h : SameKeys conf s ks) (db : Nat) (key : Bytes) (dst : Nat)
    (newkey : Bytes) (draws : Nat) :
    SameKeys conf (slotsAdd hash conf (slotsDel hash conf s db key) dst newkey draws)
      ((Change.transfer db key dst newkey).apply ks) :=
  (h.remove hwf db key).add (keys_slotsDel hwf db key).1 dst newkey draws

theorem SameKeys.flush (hwf : s.Wf hash conf) (h : SameKeys conf s ks) (dbnum : Option Nat) :
    SameKeys conf (flushdbCallback conf s true dbnum) ((Change.flush dbnum).apply ks) := by
  intro i hi
  rw [(flushdbCallback_spec hwf true dbnum).2 i, h i hi]
  cases dbnum with
  | none => simp [Change.apply, hi]
  | some db =>
    by_cases hdb : i = db
    · subst hdb
      simp [Change.apply]
    · simp [Change.apply, hdb, Ne.symm hdb]

end

section
variable {hash : Bytes → Nat} {conf : SlotsMetaInfo} {m : ModuleState} {e : KeyspaceEvent} {draws : Nat}

theorem notify_of_typeChange (h : e.type ∈ typeChangeMask) :
    notify hash conf draws m e = { m with slots := slotsAdd hash conf m.slots e.db e.key draws } := by
  have hg : e.type ∉ genericMask := by
    revert h
    cases e.type <;> simp [typeChangeMask, genericMask]
  rw [notify, if_pos h, if_neg hg, notifyTypeChangeCallback]

theorem notify_of_generic (h : e.type ∈ genericMask) :
    notify hash conf draws m e = notifyGenericCallback hash conf m e draws := by
  have ht : e.type ∉ typeChangeMask := by
    revert h
    cases e.type <;> simp [typeChangeMask, genericMask]
  rw [notify, if_neg ht, if_pos h]

theorem notify_of_other (ht : e.type ∉ typeChangeMask) (hg : e.type ∉ genericMask) :
    notify hash conf draws m e = m := by
  rw [notify, if_neg ht, if_neg hg]

end

/-- The module has followed the reference; `r` and `v` are the halves of a rename and of a move that
wait for the other. -/
structure Follows (hash : Bytes → Nat) (conf : SlotsMetaInfo) (past : List ModuleEvent)
    (r v : Option KeyspaceEvent) (m : ModuleState) (ks : Nat → Set Bytes) : Prop where
  quiet : m.Quiet hash conf
  keys : SameKeys conf m.slots ks
  rename : ∀ f, r = some f → m.from_key = some f.key ∧ latest "rename_from" past = some f
  move : ∀ f, v = some f → m.from_dbid = f.db ∧ latest "move_from" past = some f

section
variable {hash : Bytes → Nat} {conf : SlotsMetaInfo} {past : List ModuleEvent} {r v : Option KeyspaceEvent}
  {m : ModuleState} {ks : Nat → Set Bytes} {es : List ModuleEvent}

theorem latest_cons (event : String) (e : KeyspaceEvent) (draws : Nat) (past : List ModuleEvent) :
    latest event (.notification e draws :: past) =
      if e.type ∈ genericMask ∧ e.event = event then some e else latest event past := rfl

theorem halves_cons (first second : String) (e : KeyspaceEvent) (draws : Nat) (es : List ModuleEvent) :
    halves first second (.notification e draws :: es) =
      if e.type ∈ genericMask ∧ (e.event = first ∨ e.event = second) then e :: halves first second es
      else halves first second es := by
  unfold halves
  split
  next h => exact List.filterMap_cons_some (if_pos h)
  next h => exact List.filterMap_cons_none (if_neg h)

/-- An event that is no first half may change the index, and nothing that is remembered. -/
theorem Follows.frame (h : Follows hash conf past r v m ks) {e : ModuleEvent} {slots : Slots} {ks' : Nat → Set Bytes}
    (hwf : slots.Wf hash conf) (hkeys : SameKeys conf slots ks')
    (hr : latest "rename_from" (e :: past) = latest "rename_from" past)
    (hv : latest "move_from" (e :: past) = latest "move_from" past) :
    Follows hash conf (e :: past) r v { m with slots } ks' where
  quiet := ⟨hwf, h.quiet.flag⟩
  keys := hkeys
  rename f hf := hr ▸ h.rename f hf
  move f hf := hv ▸ h.move f hf

/-- What is still to come completes the halves that wait. -/
def Completes (r v : Option KeyspaceEvent) (es : List ModuleEvent) : Prop :=
  Paired "rename_from" "rename_to" (fun f e => f.db = e.db) (r.toList ++ halves "rename_from" "rename_to" es) ∧
    Paired "move_from" "move_to" (fun f e => f.key = e.key) (v.toList ++ halves "move_from" "move_to" es)

/-- A generic notification, by its name. -/
theorem Follows.step_generic (h : Follows hash conf past r v m ks) {e : KeyspaceEvent} {draws : Nat}
    (hg : e.type ∈ genericMask) (hc : Completes r v (.notification e draws :: es)) :
    ∃ r' v', Completes r' v' es ∧ Follows hash conf (.notification e draws :: past) r' v'
      (notifyGenericCallback hash conf m e draws)
      ((((ModuleEvent.notification e draws).change past).map (·.apply ks)).getD ks) := by
  have ht : e.type ∉ typeChangeMask := by
    revert hg
    cases e.type <;> simp [typeChangeMask, genericMask]
  obtain ⟨hcr, hcv⟩ := hc
  rw [halves_cons] at hcr hcv
  simp only [hg, true_and] at hcr hcv
  simp only [ModuleEvent.change, if_neg ht, if_pos hg]
  by_cases hdel : e.event = "del" ∨ e.event = "expired"
  · rw [if_pos hdel, notifyGenericCallback, if_pos hdel]
    refine ⟨r, v, ⟨?_, ?_⟩, h.frame (keys_slotsDel h.quiet.wf e.db e.key).1 (h.keys.remove h.quiet.wf e.db e.key) ?_ ?_⟩
    · rcases hdel with he | he <;> simpa [he] using hcr
    · rcases hdel with he | he <;> simpa [he] using hcv
    · rcases hdel with he | he <;> simp [latest_cons, he]
    · rcases hdel with he | he <;> simp [latest_cons, he]
  rw [if_neg hdel, notifyGenericCallback, if_neg hdel]
  by_cases hrf : e.event = "rename_from"
  · simp only [hrf, h.quiet.flag, String.reduceEq, true_or, false_or, if_true, if_false] at hcr hcv ⊢
    obtain rfl := hcr.of_first (by decide) hrf
    refine ⟨some e, v, ⟨hcr, hcv⟩, ⟨⟨h.quiet.wf, rfl⟩, h.keys, fun f hf => ?_, fun f hf => ?_⟩⟩
    · cases hf
      exact ⟨rfl, by rw [latest_cons, if_pos ⟨hg, hrf⟩]⟩
    · rw [latest_cons, if_neg (by simp [hrf])]
      exact h.move f hf
  by_cases hrt : e.event = "rename_to"
  · simp only [hrt, String.reduceEq, or_true, false_or, if_true, if_false] at hcr hcv ⊢
    obtain ⟨f, rfl, hdb, hcr⟩ := hcr.of_second (by decide) hrt
    obtain ⟨hfrom, hlatest⟩ := h.rename f rfl
    simp only [hfrom, hlatest, moveKey, hdb, Option.map_some, Option.getD_some]
    refine ⟨none, v, ⟨hcr, hcv⟩, ⟨⟨?_, rfl⟩, h.keys.transfer h.quiet.wf _ _ _ _ _, by simp, fun f hf => ?_⟩⟩
    · exact (keys_slotsAdd (keys_slotsDel h.quiet.wf _ _).1 _ _ _).1
    · rw [latest_cons, if_neg (by simp [hrt])]
      exact h.move f hf
  by_cases hmf : e.event = "move_from"
  · simp only [hmf, h.quiet.flag, String.reduceEq, true_or, false_or, if_true, if_false] at hcr hcv ⊢
    obtain rfl := hcv.of_first (by decide) hmf
    refine ⟨r, some e, ⟨hcr, hcv⟩, ⟨⟨h.quiet.wf, rfl⟩, h.keys, fun f hf => ?_, fun f hf => ?_⟩⟩
    · rw [latest_cons, if_neg (by simp [hmf])]
      exact h.rename f hf
    · cases hf
      exact ⟨rfl, by rw [latest_cons, if_pos ⟨hg, hmf⟩]⟩
  by_cases hmt : e.event = "move_to"
  · simp only [hmt, String.reduceEq, or_true, false_or, if_true, if_false] at hcr hcv ⊢
    obtain ⟨f, rfl, hkey, hcv⟩ := hcv.of_second (by decide) hmt
    obtain ⟨hfrom, hlatest⟩ := h.move f rfl
    simp only [hfrom, hlatest, moveKey, ← hkey, Option.map_some, Option.getD_some]
    refine ⟨r, none, ⟨hcr, hcv⟩, ⟨⟨?_, rfl⟩, h.keys.transfer h.quiet.wf _ _ _ _ _, fun f hf => ?_, by simp⟩⟩
    · exact (keys_slotsAdd (keys_slotsDel h.quiet.wf _ _).1 _ _ _).1
    · rw [latest_cons, if_neg (by simp [hmt])]
      exact h.rename f hf
  simp only [hrf, hrt, hmf, hmt, h.quiet.flag, or_self, if_false] at hcr hcv ⊢
  refine ⟨r, v, ⟨hcr, hcv⟩, h.frame h.quiet.wf h.keys ?_ ?_⟩
  · rw [latest_cons, if_neg (by simp [hrf])]
  · rw [latest_cons, if_neg (by simp [hmf])]

/-- **One event.** -/
theorem Follows.step (h : Follows hash conf past r v m ks) {e : ModuleEvent} (hc : Completes r v (e :: es)) :
    ∃ r' v', Completes r' v' es ∧ Follows hash conf (e :: past) r' v' (m.handle hash conf e)
      (((e.change past).map (·.apply ks)).getD ks) := by
  cases e with
  | flush start dbnum =>
    refine ⟨r, v, hc, ?_⟩
    cases start with
    | true =>
      exact h.frame (flushdbCallback_spec h.quiet.wf true dbnum).1 (h.keys.flush h.quiet.wf dbnum) rfl rfl
    | false => exact h.frame h.quiet.wf h.keys rfl rfl
  | notification e draws =>
    rw [ModuleState.handle]
    by_cases hg : e.type ∈ genericMask
    · rw [notify_of_generic hg]
      exact h.step_generic hg hc
    · obtain ⟨hcr, hcv⟩ := hc
      rw [halves_cons, if_neg fun hc => hg hc.1] at hcr hcv
      have hlatest (event : String) : latest event (.notification e draws :: past) = latest event past := by
        rw [latest_cons, if_neg fun hc => hg hc.1]
      refine ⟨r, v, ⟨hcr, hcv⟩, ?_⟩
      by_cases ht : e.type ∈ typeChangeMask
      · rw [notify_of_typeChange ht, ModuleEvent.change, if_pos ht]
        exact h.frame (keys_slotsAdd h.quiet.wf e.db e.key draws).1 (h.keys.add h.quiet.wf e.db e.key draws)
          (hlatest _) (hlatest _)
      · rw [notify_of_other ht hg, ModuleEvent.change, if_neg ht, if_neg hg]
        exact h.frame h.quiet.wf h.keys (hlatest _) (hlatest _)

/-- **All events.** -/
theorem Follows.run (h : Follows hash conf past r v m ks) (hc : Completes r v es) :
    SameKeys conf (es.foldl (ModuleState.handle hash conf) m).slots (reference past ks es) := by
  induction es generalizing past r v m ks with
  | nil => exact h.keys
  | cons e es ih =>
    obtain ⟨r', v', hc', h'⟩ := h.step hc
    exact ih h' hc'

end

/-- **Replay is exact**: whatever falls between the halves of a pair, the index of every database
ends with the keys the reference gives it. -/
theorem replay_exact (hash : Bytes → Nat) (conf : SlotsMetaInfo) {es : List ModuleEvent} (hpairs : PairsComplete es) :
    ∀ db < conf.databases,
      (es.foldl (ModuleState.handle hash conf) .init).slots.keys conf db = reference [] (fun _ => ∅) es db := by
  have hinit : Follows hash conf [] none none .init fun _ => ∅ :=
    ⟨quiet_init, fun db _ => Set.ext fun k => by simp [Slots.keys, DbSlotInfo.keys, ModuleState.init, slotsInit], by simp,
      by simp⟩
  exact hinit.run ⟨hpairs.rename, hpairs.move⟩

/-- A move of one key falls into a rename of another, onto a name that is taken. -/
def overlapping : List ModuleEvent :=
  [.notification ⟨.string, "set", 0, [97]⟩ 0, .notification ⟨.hash, "hset", 0, [98]⟩ 0,
    .notification ⟨.generic, "rename_from", 0, [97]⟩ 0, .notification ⟨.generic, "move_from", 0, [98]⟩ 0,
    .notification ⟨.generic, "move_to", 1, [98]⟩ 0, .notification ⟨.generic, "rename_to", 0, [98]⟩ 0]

theorem replay_exact_overlapping :
    (overlapping.foldl (ModuleState.handle (fun _ => 0) conf16) .init).slots.keys conf16 1 =
      reference [] (fun _ => ∅) overlapping 1 :=
  @replay_exact (fun _ => 0) conf16 overlapping ⟨.pair rfl rfl rfl .nil, .pair rfl rfl rfl .nil⟩ 1 (by decide)

end RedisXSlot
