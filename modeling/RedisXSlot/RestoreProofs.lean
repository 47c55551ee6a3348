import RedisXSlot.Keyspace

/-! What the target makes of a SLOTSRESTORE, and what the source hears of it.

`slotsRestoreCmd` decodes what the source encoded (`decodeTriples_restoreCommand`) and,
unless a RESTORE is refused, puts in every object it decodes. A synchronous target tells
the source whether it got through. An async target does not: its reply callback replies
with the integer result whatever it is, so SLOTS_MGRT_ERR arrives as the integer -1
(`slotsRestoreAsync_agrees_iff`). -/
namespace RedisXSlot
open Interaction

/-! ### Decoding -/

/-- The target decodes what the source encoded. -/
theorem decodeTriples_args (objs : List DumpObj) :
    decodeTriples (objs.flatMap DumpObj.args) = some (objs.map DumpObj.sent) := by
  induction objs with
  | nil => rfl
  | cons obj objs ih =>
    rw [List.flatMap_cons, DumpObj.args]
    simp only [List.cons_append, List.nil_append, decodeTriples, string2ll_ttlText, Int64.ofInt_toInt]
    rw [ih]
    rfl

theorem decodeTriples_restoreCommand (objs : List DumpObj) :
    decodeTriples (restoreCommand objs).tail = some (objs.map DumpObj.sent) := decodeTriples_args objs

/-- A command with at least one triple has the right arity. -/
theorem badArity_restoreCommand {objs : List DumpObj} (hne : objs ≠ []) :
    badArity (restoreCommand objs) = false := by
  have hpos : 0 < objs.length := List.length_pos_iff.mpr hne
  have hlen : (restoreCommand objs).length = objs.length * 3 + 1 := by
    rw [restoreCommand, List.length_cons, flatMap_args_length]
  simp only [badArity, hlen, Bool.or_eq_false_iff, decide_eq_false_iff_not, bne_eq_false_iff_eq]
  omega

/-! ### Restoring -/

/-- A RESTORE was refused. -/
def Refused (t : Trace) : Prop := ∃ key ttlms val, (⟨.restore key ttlms val, .error⟩ : Event) ∈ t

theorem refused_append {t t' : Trace} : Refused (t ++ t') ↔ Refused t ∨ Refused t' := by
  simp only [Refused, List.mem_append, exists_or]

theorem not_refused_nil : ¬ Refused [] := by
  rintro ⟨_, _, _, h⟩
  cases h

theorem RedisReplies.of_append {t t' : Trace} (h : RedisReplies (t ++ t')) :
    RedisReplies t ∧ RedisReplies t' :=
  ⟨fun k x v a hm => h k x v a (List.mem_append_left t' hm),
    fun k x v a hm => h k x v a (List.mem_append_right t hm)⟩

theorem restoreOneWithReplace_spec (obj : DumpObj) :
    Spec (restoreOneWithReplace obj) fun t r => (r = SLOTS_MGRT_ERR ↔ Refused t) ∧
      (RedisReplies t → r ≠ SLOTS_MGRT_ERR →
        ∀ now ks, targetAfter now ks t = restoreEach now [obj] ks) := by
  dsimp only [restoreOneWithReplace]
  rw [Prog.perform_bind]
  refine .call fun (a : Reply) => ?_
  have hquiet : a ≠ .error → ∀ t : Trace, ¬ Refused t →
      ¬ Refused (⟨.restore (cString obj.key) (if obj.ttlms < 0 then 0 else obj.ttlms) obj.val, a⟩ :: t) := by
    rintro ha t ht ⟨k, x, v, hm⟩
    rcases List.mem_cons.mp hm with he | hm
    · cases he
      exact ha rfl
    · exact ht ⟨k, x, v, hm⟩
  have hreply (h : RedisReplies [(⟨.restore (cString obj.key) (if obj.ttlms < 0 then 0 else obj.ttlms)
      obj.val, a⟩ : Event)]) : a = .error ∨ ∃ s, a = .string s :=
    h _ _ _ a (List.mem_singleton.mpr rfl)
  cases a with
  | error => exact .ret ⟨⟨fun _ => ⟨_, _, _, List.mem_singleton.mpr rfl⟩, fun _ => rfl⟩,
      fun _ hr => absurd rfl hr⟩
  | null | nil =>
    refine .ret ⟨⟨fun h => absurd h (by decide), fun h => absurd h (hquiet (by simp) [] not_refused_nil)⟩,
      fun h _ => ?_⟩
    rcases hreply h with h | ⟨s, h⟩ <;> cases h
  | string s =>
    refine .call fun u => .ret ⟨⟨fun h => absurd h (by decide), fun h => absurd h (hquiet (by simp) _ ?_)⟩,
      fun _ _ now ks => rfl⟩
    rintro ⟨_, _, _, hm⟩
    cases List.mem_singleton.mp hm
  | integer | other =>
    refine .call fun u => .ret ⟨⟨fun h => absurd h (by decide), fun h => absurd h (hquiet (by simp) _ ?_)⟩,
      fun h _ => ?_⟩
    · rintro ⟨_, _, _, hm⟩
      cases List.mem_singleton.mp hm
    · rcases hreply (RedisReplies.of_append (t := [_]) h).1 with h | ⟨s, h⟩ <;> cases h

/-- **The restore loop** gets through exactly if no RESTORE is refused, and then every
object is in. -/
theorem restoreAll_spec (objs : List DumpObj) :
    Spec (restoreAll objs) fun t ok => (ok = true ↔ ¬ Refused t) ∧
      (RedisReplies t → ok = true → ∀ now ks, targetAfter now ks t = restoreEach now objs ks) := by
  induction objs with
  | nil => exact .ret ⟨⟨fun _ => not_refused_nil, fun _ => rfl⟩, fun _ _ _ _ => rfl⟩
  | cons obj objs ih =>
    simp only [restoreAll]
    refine (restoreOneWithReplace_spec obj).bind ?_
    rintro t r ⟨hr, heff⟩
    by_cases he : r = SLOTS_MGRT_ERR
    · simp only [if_pos he]
      refine .ret ⟨⟨by simp, fun h => absurd ?_ h⟩, by simp⟩
      rw [List.append_nil]
      exact hr.mp he
    · simp only [if_neg he]
      refine ih.mono ?_
      rintro t' ok ⟨hok, heff'⟩
      refine ⟨?_, fun hreply h now ks => ?_⟩
      · rw [hok, refused_append, ← hr]
        simp [he]
      · obtain ⟨h₁, h₂⟩ := hreply.of_append
        rw [targetAfter_append, heff h₁ he, heff' h₂ h]
        rfl

theorem slotsRestoreCmd_spec (argv : List Bytes) :
    Spec (slotsRestoreCmd argv) fun t r => (r ≠ SLOTS_MGRT_ERR ↔ (decodeTriples argv.tail).isSome ∧ ¬ Refused t) ∧
      (RedisReplies t → r ≠ SLOTS_MGRT_ERR →
        ∃ objs, decodeTriples argv.tail = some objs ∧ ∀ now ks, targetAfter now ks t = restoreEach now objs ks) := by
  dsimp only [slotsRestoreCmd]
  cases hd : decodeTriples argv.tail with
  | none => exact .ret ⟨by simp, fun _ h => absurd rfl h⟩
  | some objs =>
    dsimp only [restoreMutli]
    refine (restoreAll_spec objs).bind ?_
    rintro t ok ⟨hok, heff⟩
    cases ok with
    | true =>
      refine .ret ⟨?_, fun hreply _ => ⟨objs, rfl, ?_⟩⟩
      · rw [List.append_nil]
        exact ⟨fun _ => ⟨rfl, hok.mp rfl⟩, fun _ => natCast_ne_err _⟩
      · rw [List.append_nil] at hreply ⊢
        exact heff hreply rfl
    | false =>
      refine .ret ⟨?_, fun _ h => absurd rfl h⟩
      rw [List.append_nil]
      exact ⟨fun h => absurd rfl h, fun h => absurd (hok.mpr h.2) (by simp)⟩

/-! ### What the source hears -/

/-- The surroundings of a target: whether a thread starts, and the answers to the
RESTOREs of a command, in order. -/
def targetServer (started : Bool) (outcomes : List Reply) : (c : Call) → Answer c × List Reply
  | .restore .. => (outcomes.headD .null, outcomes.tail)
  | .pthreadCreate => (started, outcomes)
  | c => (agreeable (fun _ => .nil) c, outcomes)

/-- The reply of a target to `argv`. -/
def targetReply (async started : Bool) (outcomes : List Reply) (argv : List Bytes) : Option ClientReply :=
  (play (targetServer started) (slotsRestoreRedisCommand async argv) outcomes).2.1

/-- What `doSplitRestoreCommand` makes of a reply. -/
def splitResult (reply : ClientReply) (argv : List Bytes) (start_pos end_pos : Nat) : Option Int :=
  (play (fun _ c => match c with
    | .command _ => (NetAnswer.reply reply.toWire, ())
    | c => (agreeable (fun _ => .nil) c, ())) (doSplitRestoreCommand argv start_pos end_pos) ()).2.1

/-- Every TTL is a number and no RESTORE is refused. -/
def restoresCleanly (outcomes : List Reply) (argv : List Bytes) : Bool :=
  match decodeTriples argv.tail with
  | none => false
  | some objs => (outcomes.take objs.length).all (· != .error)

theorem play_restoreOneWithReplace (started : Bool) (obj : DumpObj) (outcomes : List Reply) :
    ∃ r : Int, (play (targetServer started) (restoreOneWithReplace obj) outcomes).2 = (some r, outcomes.tail) ∧
      (r = SLOTS_MGRT_ERR ↔ outcomes.headD .null = .error) := by
  cases outcomes with
  | nil => exact ⟨0, rfl, by decide⟩
  | cons a outcomes =>
    cases a with
    | error => exact ⟨SLOTS_MGRT_ERR, rfl, by simp⟩
    | null | nil => exact ⟨0, rfl, by simp [SLOTS_MGRT_ERR]⟩
    | integer | string | other => exact ⟨1, rfl, by simp [SLOTS_MGRT_ERR]⟩

theorem play_restoreAll (started : Bool) (objs : List DumpObj) (outcomes : List Reply) :
    (play (targetServer started) (restoreAll objs) outcomes).2.1 =
      some ((outcomes.take objs.length).all (· != .error)) := by
  induction objs generalizing outcomes with
  | nil => simp [restoreAll, play]
  | cons obj objs ih =>
    obtain ⟨r, hplay, hr⟩ := play_restoreOneWithReplace started obj outcomes
    simp only [restoreAll]
    rw [play_bind hplay]
    cases outcomes with
    | nil =>
      have hne : ¬ r = SLOTS_MGRT_ERR := fun h => absurd (hr.mp h) (by decide)
      simp only [if_neg hne, List.tail_nil, ih, List.take_nil]
    | cons a outcomes =>
      simp only [List.headD_cons] at hr
      by_cases ha : a = .error
      · rw [if_pos (hr.mpr ha), ha]
        rfl
      · rw [if_neg (fun h => ha (hr.mp h)), List.tail_cons, ih]
        simp [ha]

/-- The result of the command is SLOTS_MGRT_ERR unless it restores cleanly. -/
theorem play_slotsRestoreCmd (started : Bool) (outcomes : List Reply) (argv : List Bytes) :
    ∃ r, (play (targetServer started) (slotsRestoreCmd argv) outcomes).2.1 = some r ∧
      (r = SLOTS_MGRT_ERR ↔ restoresCleanly outcomes argv = false) := by
  simp only [slotsRestoreCmd, restoresCleanly]
  cases decodeTriples argv.tail with
  | none => exact ⟨SLOTS_MGRT_ERR, rfl, by simp⟩
  | some objs =>
    have hall := play_restoreAll started objs outcomes
    simp only [restoreMutli]
    rw [play_bind (Prod.ext hall rfl)]
    cases (outcomes.take objs.length).all (· != .error) with
    | true => exact ⟨objs.length, rfl, by simp [natCast_ne_err]⟩
    | false => exact ⟨SLOTS_MGRT_ERR, rfl, by simp⟩

/-- A synchronous target's reply is an error unless the command restores cleanly. -/
theorem targetReply_sync (started : Bool) (outcomes : List Reply) (argv : List Bytes) :
    ∃ reply, targetReply false started outcomes argv = some reply ∧
      (reply.toWire = .error ↔ badArity argv = true ∨ restoresCleanly outcomes argv = false) := by
  simp only [targetReply, slotsRestoreRedisCommand, Bool.false_eq_true, if_false]
  cases badArity argv with
  | true => exact ⟨.wrongArity, rfl, by simp [ClientReply.toWire]⟩
  | false =>
    obtain ⟨r, hplay, hr⟩ := play_slotsRestoreCmd started outcomes argv
    simp only [Bool.false_eq_true, if_false, false_or]
    rw [play_bind (Prod.ext hplay rfl)]
    by_cases he : r = SLOTS_MGRT_ERR
    · rw [if_pos he]
      exact ⟨_, rfl, ⟨fun _ => hr.mp he, fun _ => rfl⟩⟩
    · rw [if_neg he]
      exact ⟨_, rfl, ⟨fun h => by simp [ClientReply.toWire] at h, fun h => absurd (hr.mpr h) he⟩⟩

theorem play_slotsRestoreAsyncBlock (started : Bool) (outcomes : List Reply) {argv : List Bytes}
    (hb : badArity argv = false) :
    (play (targetServer started) (slotsRestoreAsyncBlock argv) outcomes).2.1 =
      if started then
        (play (targetServer started) (slotsRestoreCmd argv >>= fun r => return .integer r) outcomes).2.1
      else some (.error CANT_START_THREAD) := by
  dsimp only [slotsRestoreAsyncBlock]
  rw [hb]
  cases started <;> rfl

/-- An async target's reply is an error only if the command never ran. -/
theorem targetReply_async (started : Bool) (outcomes : List Reply) (argv : List Bytes) :
    ∃ reply, targetReply true started outcomes argv = some reply ∧
      (reply.toWire = .error ↔ badArity argv = true ∨ started = false) := by
  rw [targetReply, slotsRestoreRedisCommand, if_pos rfl]
  cases hb : badArity argv with
  | true =>
    rw [slotsRestoreAsyncBlock, hb]
    exact ⟨.wrongArity, rfl, by simp [ClientReply.toWire]⟩
  | false =>
    rw [play_slotsRestoreAsyncBlock started outcomes hb]
    cases started with
    | false => exact ⟨.error CANT_START_THREAD, rfl, by simp [ClientReply.toWire]⟩
    | true =>
      obtain ⟨r, hplay, -⟩ := play_slotsRestoreCmd true outcomes argv
      rw [if_pos rfl, play_bind (Prod.ext hplay rfl)]
      exact ⟨.integer r, rfl, by simp [ClientReply.toWire]⟩

/-- The source takes error replies for failures, and nothing else. -/
theorem splitResult_err_iff (reply : ClientReply) (argv : List Bytes) {start_pos end_pos : Nat}
    (h : start_pos < end_pos) :
    splitResult reply argv start_pos end_pos = some SLOTS_MGRT_ERR ↔ reply.toWire = .error := by
  have hcn : ¬ ((end_pos : Int) - start_pos ≤ 0) := by omega
  dsimp only [splitResult, doSplitRestoreCommand]
  rw [if_neg hcn, Prog.perform_bind]
  simp only [play]
  cases reply.toWire with
  | error => simp [play]
  | integer | status =>
    simp only [Prog.pure_eq, play, Option.some.injEq, reduceCtorEq, iff_false, SLOTS_MGRT_ERR]
    omega

/-- A source cannot tell the modes of a target apart by whether a command failed, and
hears of every command that ended in SLOTS_MGRT_ERR. -/
structure Agrees (started : Bool) (outcomes : List Reply) (argv : List Bytes) : Prop where
  verdict : ∀ sync async, targetReply false started outcomes argv = some sync →
    targetReply true started outcomes argv = some async → ∀ sargv start_pos end_pos, start_pos < end_pos →
      (splitResult async sargv start_pos end_pos = some SLOTS_MGRT_ERR ↔
        splitResult sync sargv start_pos end_pos = some SLOTS_MGRT_ERR)
  reported : badArity argv = false → started = true →
    (play (targetServer started) (slotsRestoreCmd argv) outcomes).2.1 = some SLOTS_MGRT_ERR →
    ∀ async, targetReply true started outcomes argv = some async →
      ∀ sargv start_pos end_pos, start_pos < end_pos →
        splitResult async sargv start_pos end_pos = some SLOTS_MGRT_ERR

/-- **When the modes of a target agree.** Once its thread has started, an async target
reports success, so it agrees with a synchronous one exactly on commands that succeed. -/
theorem slotsRestoreAsync_agrees_iff (started : Bool) (outcomes : List Reply) (argv : List Bytes) :
    Agrees started outcomes argv ↔
      badArity argv = true ∨ started = restoresCleanly outcomes argv := by
  obtain ⟨sync, hsync, hs⟩ := targetReply_sync started outcomes argv
  obtain ⟨async, hasync, ha⟩ := targetReply_async started outcomes argv
  constructor
  · intro h
    have hv := h.verdict sync async hsync hasync [] 0 1 (by decide)
    rw [splitResult_err_iff _ _ (by decide), splitResult_err_iff _ _ (by decide), hs, ha] at hv
    cases hb : badArity argv with
    | true => exact .inl rfl
    | false =>
      simp only [hb, Bool.false_eq_true, false_or] at hv
      exact .inr (Bool.eq_iff_iff.mpr (not_iff_not.mp (by simpa using hv)))
  · intro h
    refine ⟨?_, ?_⟩
    · intro s a hs' ha' sargv start_pos end_pos hlt
      obtain rfl : sync = s := Option.some.inj (hsync.symm.trans hs')
      obtain rfl : async = a := Option.some.inj (hasync.symm.trans ha')
      rw [splitResult_err_iff _ _ hlt, splitResult_err_iff _ _ hlt, hs, ha]
      rcases h with h | h
      · simp [h]
      · rw [h]
    · intro hb hstarted hcmd
      obtain ⟨r, hplay, hr⟩ := play_slotsRestoreCmd started outcomes argv
      obtain rfl : r = SLOTS_MGRT_ERR := Option.some.inj (hplay.symm.trans hcmd)
      have hclean := hr.mp rfl
      rcases h with h | h
      · rw [hb] at h
        cases h
      · rw [hstarted, hclean] at h
        cases h

/-- A TTL that is no number: the async target replies with the integer -1. -/
theorem slotsRestoreAsync_hides_bad_ttl : ¬ Agrees true [] [slotsrestoreName, [97], [120], [118]] := by
  intro h
  have hv := h.verdict (.error REDISXSLOT_ERRORMSG_MGRT) (.integer (-1)) (by decide) (by decide) [] 0 1
    (by decide)
  exact absurd (hv.mpr (by decide)) (by decide)

end RedisXSlot
