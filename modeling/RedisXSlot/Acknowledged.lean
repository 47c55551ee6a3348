import RedisXSlot.RestoreProofs

/-! What a successful SLOTSRESTORE says.

`restoreOneWithReplace` tells three outcomes apart, and the loop around it asks only for
one of them: a RESTORE without a reply, or with a null one, counts like one that was
executed. The source unlinks its copies all the same (`restore_success_iff`). -/
namespace RedisXSlot
open Interaction

def Call.isRestore : Call → Bool
  | .restore .. => true
  | _ => false

/-- The RESTOREs of a trace, in order. -/
def restores (t : Trace) : Trace := t.filter (·.call.isRestore)

/-- The TTL a key is restored with. -/
def DumpObj.restoreTtl (obj : DumpObj) : Int64 := if obj.ttlms < 0 then 0 else obj.ttlms

/-- RESTORE was executed for the object. -/
def DumpObj.RestoredBy (obj : DumpObj) (e : Event) : Prop :=
  ∃ status, e = ⟨.restore obj.key obj.restoreTtl obj.val, Reply.string status⟩

/-- The patterns of replies RESTORE has: a status, an error, a null one, or none at all. -/
def RestoreReplies (t : Trace) : Prop :=
  ∀ key ttlms val a, (⟨.restore key ttlms val, a⟩ : Event) ∈ t →
    a = .error ∨ a = .nil ∨ a = .null ∨ ∃ status, a = .string status

/-- A result that is no error is the number of triples, and RESTORE was executed for each
of them. -/
def MeansRestored (argv : List Bytes) (t : Trace) (r : Int) : Prop :=
  r ≠ SLOTS_MGRT_ERR → r = ((argv.length - 1) / 3 : Nat) ∧
    ∃ objs, decodeTriples argv.tail = some objs ∧ objs.length = (argv.length - 1) / 3 ∧
      List.Forall₂ DumpObj.RestoredBy objs (restores t)

@[simp] theorem restores_append (t t' : Trace) : restores (t ++ t') = restores t ++ restores t' := List.filter_append ..

/-- As many objects as triples. -/
theorem decodeTriples_length {args : List Bytes} {objs : List DumpObj} (h : decodeTriples args = some objs) :
    objs.length = args.length / 3 := by
  fun_induction decodeTriples args generalizing objs with
  | case1 => cases h
  | case2 key ttl val rest ttlms httl ih =>
    obtain ⟨objs, hrest, rfl⟩ := Option.map_eq_some_iff.mp h
    rw [List.length_cons, ih hrest]
    simp only [List.length_cons]
    omega
  | case3 args hne =>
    cases h
    rcases args with - | ⟨a, - | ⟨b, - | ⟨c, rest⟩⟩⟩
    · rfl
    · simp
    · simp
    · exact absurd rfl (hne a b c rest)

/-- One RESTORE is asked for. -/
theorem restoreOneWithReplace_restores_one (obj : DumpObj) :
    Spec (restoreOneWithReplace obj) fun t _ =>
      (restores t).map (·.call) = [.restore (cString obj.key) obj.restoreTtl obj.val] := by
  unfold restoreOneWithReplace
  dsimp only
  rw [Prog.perform_bind]
  refine .call fun (a : Reply) => ?_
  cases a with
  | null | nil | error => exact .ret rfl
  | string | integer | other => exact .call fun u => .ret rfl

/-- A restore loop that gets through has asked for each object. -/
theorem restoreAll_calls (objs : List DumpObj) :
    Spec (restoreAll objs) fun t ok => ok = true →
      (restores t).map (·.call) = objs.map fun obj => .restore (cString obj.key) obj.restoreTtl obj.val := by
  induction objs with
  | nil => exact .ret fun _ => rfl
  | cons obj objs ih =>
    unfold restoreAll
    apply (restoreOneWithReplace_restores_one obj).bind
    intro t r hone
    split
    next => exact .ret (by simp)
    next =>
      apply ih.mono
      intro t' ok hrest hok
      rw [restores_append, List.map_append, hone, hrest hok]
      rfl

/-- A RESTORE got no reply, or a null one. -/
def Unanswered (t : Trace) : Prop :=
  ∃ key ttlms val, (⟨.restore key ttlms val, Reply.null⟩ : Event) ∈ t ∨ (⟨.restore key ttlms val, Reply.nil⟩ : Event) ∈ t

/-- A RESTORE with the object's key as a C string is one for the object if it has a status for
a reply, and the key no NUL. -/
theorem restoredBy_iff {obj : DumpObj} {e : Event} (h : e.call = .restore (cString obj.key) obj.restoreTtl obj.val) :
    obj.RestoredBy e ↔
      (∃ status, e = ⟨.restore (cString obj.key) obj.restoreTtl obj.val, Reply.string status⟩) ∧ NulFree obj.key := by
  constructor
  · rintro ⟨status, rfl⟩
    have hkey : obj.key = cString obj.key := (Call.restore.inj h).1
    rw [← hkey]
    exact ⟨⟨status, rfl⟩, cString_eq_self_iff.mp hkey.symm⟩
  · rintro ⟨⟨status, rfl⟩, hnul⟩
    rw [cString_of_nulFree hnul]
    exact ⟨status, rfl⟩

theorem forall₂_restoredBy_iff {objs : List DumpObj} {es : Trace}
    (h : es.map (·.call) = objs.map fun obj => .restore (cString obj.key) obj.restoreTtl obj.val) :
    List.Forall₂ DumpObj.RestoredBy objs es ↔
      (∀ e ∈ es, ∃ key ttlms val status, e = ⟨.restore key ttlms val, Reply.string status⟩) ∧
        ∀ obj ∈ objs, NulFree obj.key := by
  induction objs generalizing es with
  | nil =>
    obtain rfl := List.map_eq_nil_iff.mp h
    simp
  | cons obj objs ih =>
    obtain ⟨e, es, rfl, he, hes⟩ := List.map_eq_cons_iff.mp h
    rw [List.forall₂_cons, restoredBy_iff he, ih hes, List.forall_mem_cons, List.forall_mem_cons]
    constructor
    · rintro ⟨⟨⟨status, rfl⟩, hnul⟩, hrest, hnuls⟩
      exact ⟨⟨⟨_, _, _, status, rfl⟩, hrest⟩, hnul, hnuls⟩
    · rintro ⟨⟨⟨key, ttlms, val, status, rfl⟩, hrest⟩, hnul, hnuls⟩
      cases he
      exact ⟨⟨⟨status, rfl⟩, hnul⟩, hrest, hnuls⟩

/-- A command that succeeds has asked for each object it decoded. -/
theorem slotsRestoreCmd_calls {argv : List Bytes} {objs : List DumpObj} (hobjs : decodeTriples argv.tail = some objs)
    {t : Trace} {r : Int} (hrun : Runs (slotsRestoreCmd argv) t (some r)) (hr : r ≠ SLOTS_MGRT_ERR) :
    r = objs.length ∧
      (restores t).map (·.call) = objs.map fun obj => .restore (cString obj.key) obj.restoreTtl obj.val := by
  unfold slotsRestoreCmd at hrun
  rw [hobjs] at hrun
  obtain ⟨ok, t₁, t₂, rfl, hall, hret⟩ := Runs.of_bind hrun
  cases ok with
  | true =>
    obtain ⟨rfl, ho⟩ := Runs.ret_iff.mp hret
    cases ho
    rw [List.append_nil]
    exact ⟨rfl, (restoreAll_calls objs).of_runs hall rfl⟩
  | false =>
    obtain ⟨-, ho⟩ := Runs.ret_iff.mp hret
    cases ho
    exact absurd rfl hr

/-- **When success means restored**: a TTL is no number, or a RESTORE is refused, so that there
is no success; or every RESTORE is answered and no key has a NUL. -/
theorem restore_success_iff {argv : List Bytes} {t : Trace} {o : Option Int}
    (hrun : Runs (slotsRestoreCmd argv) t o) (hreplies : RestoreReplies t) :
    ∃ r, o = some r ∧ (MeansRestored argv t r ↔
      decodeTriples argv.tail = none ∨ Refused t ∨
        (¬ Unanswered t ∧ ∀ objs, decodeTriples argv.tail = some objs → ∀ obj ∈ objs, NulFree obj.key)) := by
  obtain ⟨r, rfl, hr, -⟩ := slotsRestoreCmd_spec argv hrun
  refine ⟨r, rfl, ?_⟩
  by_cases herr : r = SLOTS_MGRT_ERR
  · have hfail : decodeTriples argv.tail = none ∨ Refused t := by
      by_contra hno
      push Not at hno
      exact hr.mpr ⟨Option.isSome_iff_ne_none.mpr hno.1, hno.2⟩ herr
    refine iff_of_true (fun hne => absurd herr hne) ?_
    rw [← or_assoc]
    exact .inl hfail
  · obtain ⟨hsome, hnot⟩ := hr.mp herr
    obtain ⟨objs, hobjs⟩ := Option.isSome_iff_exists.mp hsome
    obtain ⟨rfl, hcalls⟩ := slotsRestoreCmd_calls hobjs hrun herr
    have hlen : objs.length = (argv.length - 1) / 3 := by rw [decodeTriples_length hobjs, List.length_tail]
    have hstatus : (∀ e ∈ restores t, ∃ key ttlms val status, e = ⟨.restore key ttlms val, Reply.string status⟩) ↔
        ¬ Unanswered t := by
      constructor
      · rintro hall ⟨key, ttlms, val, hm | hm⟩
        · obtain ⟨_, _, _, _, he⟩ := hall _ (List.mem_filter.mpr ⟨hm, rfl⟩)
          cases he
        · obtain ⟨_, _, _, _, he⟩ := hall _ (List.mem_filter.mpr ⟨hm, rfl⟩)
          cases he
      · rintro hno ⟨c, a⟩ he
        obtain ⟨hm, hc⟩ := List.mem_filter.mp he
        cases c with
        | restore key ttlms val =>
          rcases hreplies key ttlms val a hm with rfl | rfl | rfl | ⟨status, rfl⟩
          · exact absurd ⟨_, _, _, hm⟩ hnot
          · exact absurd ⟨key, ttlms, val, .inr hm⟩ hno
          · exact absurd ⟨key, ttlms, val, .inl hm⟩ hno
          · exact ⟨key, ttlms, val, status, rfl⟩
        | _ => cases hc
    have hiff := forall₂_restoredBy_iff hcalls
    rw [hstatus] at hiff
    constructor
    · intro hmean
      obtain ⟨-, objs', ho, -, hall⟩ := hmean herr
      obtain rfl : objs = objs' := Option.some.inj (hobjs.symm.trans ho)
      obtain ⟨hans, hnul⟩ := hiff.mp hall
      exact .inr (.inr ⟨hans, fun objs' ho => Option.some.inj (hobjs.symm.trans ho) ▸ hnul⟩)
    · rintro (hnone | href | ⟨hans, hnul⟩) -
      · rw [hobjs] at hnone
        cases hnone
      · exact absurd href hnot
      · exact ⟨congrArg Nat.cast hlen, objs, hobjs, hlen, hiff.mpr ⟨hans, hnul objs hobjs⟩⟩

/-- A command with one triple. -/
def oneTriple : List Bytes := [slotsrestoreName, [97], [48], [1]]

/-- Its RESTORE, answered by a status, and the notification. -/
def executed : Trace := [⟨.restore [97] 0 [1], Reply.string [79, 75]⟩, ⟨.notifyOne [97], ()⟩]

theorem restore_success_iff_executed : ∃ r, some (1 : Int) = some r ∧ (MeansRestored oneTriple executed r ↔
    decodeTriples oneTriple.tail = none ∨ Refused executed ∨
      (¬ Unanswered executed ∧ ∀ objs, decodeTriples oneTriple.tail = some objs → ∀ obj ∈ objs, NulFree obj.key)) := by
  have hrun : Runs (slotsRestoreCmd oneTriple) executed (some 1) := .call _ (.call _ (.ret _))
  refine restore_success_iff hrun fun key ttlms val a hm => ?_
  rcases List.mem_cons.mp hm with he | hm
  · cases he
    exact .inr (.inr (.inr ⟨_, rfl⟩))
  · cases List.mem_singleton.mp hm

/-- RESTORE is refused without a reply, nothing is restored, and the result is 1. -/
theorem not_restore_success : Runs (slotsRestoreCmd oneTriple) [⟨.restore [97] 0 [1], Reply.null⟩] (some 1) ∧
    RestoreReplies [⟨.restore [97] 0 [1], Reply.null⟩] ∧
    ¬ MeansRestored oneTriple [⟨.restore [97] 0 [1], Reply.null⟩] 1 := by
  refine ⟨.call _ (.ret _), fun key ttlms val a hm => ?_, fun h => ?_⟩
  · cases List.mem_singleton.mp hm
    exact .inr (.inr (.inl rfl))
  · obtain ⟨-, objs, -, -, hall⟩ := h (by decide)
    cases hall with
    | cons hfirst _ =>
      obtain ⟨status, he⟩ := hfirst
      obtain ⟨-, hans⟩ := Interaction.Event.mk.inj he
      cases eq_of_heq hans

end RedisXSlot
