import RedisXSlot.Intact

/-! Whether expiry survives a migration.

The TTL is asked for after the value, and on the way to the target every number that is
not positive becomes 0, which RESTORE takes for no expiry. So a dump keeps its expiry
exactly if PTTL still finds it: a key with an expiry must then have more than 0
milliseconds left, and one without must not have been given any (`expiry_survives_iff`). -/
namespace RedisXSlot
open Interaction

variable {hash : Bytes → Nat} {conf : SlotsMetaInfo} {db : Nat}

/-- In the course of `ls` from `s` on the key is dumped as `entry`; its TTL is asked for
when the source is `s₂`, and is `n`. In between there are only moves of others. -/
inductive DumpedAt (hash : Bytes → Nat) (conf : SlotsMetaInfo) (db : Nat) (s : Source) (key : Bytes) :
    List Label → Entry → Source → Int64 → Prop where
  | mk {pre post : List Label} {mid : List Move} {s₁ m s₂ s₃ : Source} {entry : Entry} {n : Int64} :
      Path (Source.step hash conf db) s pre s₁ → s₁.live key = some entry →
      s₁.call hash conf db ⟨.dump key, Reply.string entry.val⟩ m →
      Path (Source.step hash conf db) m (mid.map .move) s₂ →
      s₂.call hash conf db ⟨.pttl key, Reply.integer n⟩ s₃ →
      DumpedAt hash conf db s key (pre ++ .call ⟨.dump key, Reply.string entry.val⟩ ::
        (mid.map .move ++ .call ⟨.pttl key, Reply.integer n⟩ :: post)) entry s₂ n

/-- One of the commands makes every target that runs it without an error restore the key
with this TTL and value. -/
def Restored (cmds : List (List Bytes)) (key : Bytes) (ttlms : Int64) (val : Bytes) : Prop :=
  ∃ argv ∈ cmds, ∀ t r, Runs (slotsRestoreCmd argv) t (some r) → r ≠ SLOTS_MGRT_ERR → RedisReplies t →
    ∃ status, (⟨.restore (cString key) ttlms val, Reply.string status⟩ : Event) ∈ t

/-- What was dumped, its TTL reported as `n`, keeps its expiry with the TTL it is restored with:
whenever that is, the new entry has an expiry if and only if the old one had, and does
not live longer than reported. -/
def ExpiryKept (entry : Entry) (n ttlms : Int64) : Prop :=
  ∀ (now : Int) (ks : Keyspace) (key : Bytes) (new : Entry), ks.restore now key ttlms entry.val key = some new →
    (new.expire.isSome ↔ entry.expire.isSome) ∧ ∀ w, new.expire = some w → w - now ≤ n.toInt

/-! ### What was dumped is restored -/

/-- Two answers in a row that make an object make a slot. -/
theorem Dumped.mem_slots {keys : List Bytes} {t : Trace} {slots : List (Option DumpObj)} (h : Dumped keys t slots)
    {obj : DumpObj} (hin : obj.dumpEvents <:+: t) : some obj ∈ slots := by
  obtain ⟨pre, post, rfl⟩ := hin
  generalize ht : pre ++ obj.dumpEvents ++ post = t at h
  induction h generalizing pre with
  | nil => simp [DumpObj.dumpEvents] at ht
  | skip hskip _ ih =>
    cases hskip with
    | absent a ha =>
      rcases pre with - | ⟨e, pre⟩
      · simp only [DumpObj.dumpEvents, List.nil_append, List.cons_append, List.cons.injEq] at ht
        obtain ⟨he, -⟩ := ht
        cases he
        rcases ha with ha | ha <;> cases ha
      · exact List.mem_cons_of_mem _ (ih pre (List.cons.inj ht).2)
    | gone val a ha =>
      rcases pre with - | ⟨e, - | ⟨e', pre⟩⟩
      · simp only [DumpObj.dumpEvents, List.nil_append, List.cons_append, List.cons.injEq] at ht
        obtain ⟨-, he, -⟩ := ht
        cases he
        rcases ha with ha | ha <;> cases ha
      · simp only [DumpObj.dumpEvents, List.nil_append, List.cons_append, List.cons.injEq] at ht
        obtain ⟨-, he, -⟩ := ht
        cases he
      · exact List.mem_cons_of_mem _ (ih pre (List.cons.inj (List.cons.inj ht).2).2)
  | dump obj' _ ih =>
    rcases pre with - | ⟨e, - | ⟨e', pre⟩⟩
    · simp only [DumpObj.dumpEvents, List.nil_append, List.cons_append, List.cons.injEq] at ht
      obtain ⟨he, he', -⟩ := ht
      obtain ⟨key, val, ttlms⟩ := obj
      obtain ⟨key', val', ttlms'⟩ := obj'
      cases he
      cases he'
      exact List.mem_cons_self ..
    · simp only [DumpObj.dumpEvents, List.nil_append, List.cons_append, List.cons.injEq] at ht
      obtain ⟨-, he, -⟩ := ht
      cases he
    · exact List.mem_cons_of_mem _ (ih pre (List.cons.inj (List.cons.inj ht).2).2)

/-- The call asks for a dump or a TTL. -/
def Call.isDump : Call → Bool
  | .dump _ | .pttl _ => true
  | _ => false

theorem OnlyDumps.filter {t : Trace} (h : OnlyDumps t) : t.filter (·.call.isDump) = t := by
  refine List.filter_eq_self.mpr fun e he => ?_
  obtain ⟨key, hc | hc⟩ := h e he <;> (rw [hc]; rfl)

theorem Succeeded.mem_objs {mconf : MgrtConf} {keys : List Bytes} {t : Trace} {objs : List DumpObj}
    (h : Succeeded mconf keys t objs) {obj : DumpObj} (hin : obj.dumpEvents <:+: t) : obj ∈ objs := by
  cases h with
  | @mk t t' t'' slots _ ks hd hslots hnet hdel =>
    have hn : t'.filter (·.call.isDump) = [] := List.filter_eq_nil_iff.mpr fun e he => by
      have := hnet e he
      cases hc : e.call <;> simp_all [Call.isNet, Call.isDump]
    have hu : t''.filter (·.call.isDump) = [] := List.filter_eq_nil_iff.mpr fun e he => by
      have hc : e.call ∈ ks.map Call.unlink := hdel ▸ List.mem_map_of_mem he
      obtain ⟨key, -, hc⟩ := List.mem_map.mp hc
      simp [← hc, Call.isDump]
    have hin := hin.filter (·.call.isDump)
    rw [List.filter_append, List.filter_append, hd.onlyDumps.filter, hn, hu, List.append_nil, List.append_nil] at hin
    exact (hslots obj).mp (hd.mem_slots hin)

theorem restoreOneWithReplace_restores (obj : DumpObj) :
    Spec (restoreOneWithReplace obj) fun t r => r ≠ SLOTS_MGRT_ERR → RedisReplies t →
      ∃ status, (⟨.restore (cString obj.key) (if obj.ttlms < 0 then 0 else obj.ttlms) obj.val,
        Reply.string status⟩ : Event) ∈ t := by
  dsimp only [restoreOneWithReplace]
  rw [Prog.perform_bind]
  refine .call fun (a : Reply) => ?_
  cases a with
  | error => exact .ret fun hr => absurd rfl hr
  | null | nil => exact .ret fun _ h => absurd (h _ _ _ _ (List.mem_cons_self ..)) (by simp)
  | string status => exact .call fun u => .ret fun _ _ => ⟨status, List.mem_cons_self ..⟩
  | integer | other => exact .call fun u => .ret fun _ h => absurd (h _ _ _ _ (List.mem_cons_self ..)) (by simp)

/-- A restore loop that gets through has restored every object. -/
theorem restoreAll_restores (objs : List DumpObj) :
    Spec (restoreAll objs) fun t ok => ok = true → RedisReplies t → ∀ obj ∈ objs,
      ∃ status, (⟨.restore (cString obj.key) (if obj.ttlms < 0 then 0 else obj.ttlms) obj.val,
        Reply.string status⟩ : Event) ∈ t := by
  induction objs with
  | nil => exact .ret fun _ _ obj hobj => absurd hobj List.not_mem_nil
  | cons obj objs ih =>
    simp only [restoreAll]
    refine (restoreOneWithReplace_restores obj).bind fun t r hone => ?_
    by_cases he : r = SLOTS_MGRT_ERR
    · rw [if_pos he]
      exact .ret (by simp)
    · rw [if_neg he]
      refine ih.mono fun t' ok hall hok hreply o ho => ?_
      obtain ⟨h₁, h₂⟩ := hreply.of_append
      rcases List.mem_cons.mp ho with rfl | ho
      · obtain ⟨status, hm⟩ := hone he h₁
        exact ⟨status, List.mem_append_left t' hm⟩
      · obtain ⟨status, hm⟩ := hall hok h₂ o ho
        exact ⟨status, List.mem_append_right t hm⟩

/-- A target that runs a command of the source restores each of its objects. -/
theorem restored_of_mem {cmds : List (List Bytes)} {g : List DumpObj} (hg : restoreCommand g ∈ cmds)
    {obj : DumpObj} (hobj : obj ∈ g) : Restored cmds obj.key obj.ttlArg obj.val := by
  refine ⟨_, hg, fun t r hrun hr hreply => ?_⟩
  simp only [slotsRestoreCmd, decodeTriples_restoreCommand, restoreMutli] at hrun
  obtain ⟨ok, t, t', rfl, hall, hrun⟩ := (restoreAll_restores (g.map DumpObj.sent)).bind_runs hrun
  cases ok with
  | false =>
    obtain ⟨-, he⟩ := Runs.ret_iff.mp hrun
    cases he
    exact absurd rfl hr
  | true =>
    obtain ⟨rfl, -⟩ := Runs.ret_iff.mp hrun
    rw [List.append_nil] at hreply ⊢
    obtain ⟨status, hm⟩ := hall rfl hreply obj.sent (List.mem_map_of_mem hobj)
    rw [ttlArg_sent] at hm
    exact ⟨status, hm⟩

/-! ### Expiry -/

/-- A TTL sent as `ttlArg` keeps the expiry of an entry if the number reported is positive
exactly for an entry with an expiry. -/
theorem expiryKept_iff (entry : Entry) (obj : DumpObj) :
    ExpiryKept entry obj.ttlms obj.ttlArg ↔ (0 < obj.ttlms.toInt ↔ entry.expire.isSome) := by
  have hpos : obj.ttlms > 0 ↔ 0 < obj.ttlms.toInt := by
    rw [gt_iff_lt, Int64.lt_iff_toInt_lt, Int64.toInt_zero]
  have hrestore (now : Int) (ks : Keyspace) (key : Bytes) : ks.restore now key obj.ttlArg entry.val key =
      some ⟨entry.val, if obj.ttlms > 0 then some (now + obj.ttlms.toInt) else none⟩ := by
    have := congrFun (restore_ttlArg ks now key ⟨key, entry.val, obj.ttlms⟩) key
    rwa [Function.update_self] at this
  constructor
  · intro h
    rw [← (h 0 (fun _ => none) [] _ (hrestore ..)).1, ← hpos]
    by_cases hp : obj.ttlms > 0 <;> simp [hp]
  · intro h now ks key new hnew
    rw [hrestore] at hnew
    cases hnew
    rw [← h, ← hpos]
    by_cases hp : obj.ttlms > 0 <;> simp [hp, Int.add_comm]

/-- PTTL replies a positive number for a key whose expiry is still to come. -/
theorem Source.pttl_pos_iff {s : Source} {key : Bytes} :
    0 < s.pttl key ↔ ∃ val w, s.live key = some ⟨val, some w⟩ ∧ s.now < w := by
  rw [Source.pttl]
  split
  next h => simp [h]
  next h => simp [h]
  next val expire h => simp [h]

/-- **When expiry survives.** In a migration that succeeds every key dumped with a value is
restored by every target that does not report an error, and with its expiry if and only if, when
PTTL is asked, the key has an instant of expiry that is still to come, or had none when
it was dumped and has none now. -/
theorem expiry_survives_iff {mconf : MgrtConf} {keys : List Bytes} {ls : List Label} {r : Int}
    (hrun : Runs (migrateKeys mconf keys) (calls ls) (some r)) (hr : r ≠ SLOTS_MGRT_ERR) {s s₂ : Source}
    {key : Bytes} {entry : Entry} {n : Int64} (hdump : DumpedAt hash conf mconf.db s key ls entry s₂ n) :
    ∃ ttlms, Restored (acked (calls ls)) key ttlms entry.val ∧
      (ExpiryKept entry n ttlms ↔
        ((∃ val w, s₂.live key = some ⟨val, some w⟩ ∧ s₂.now < w) ↔ entry.expire.isSome)) := by
  obtain ⟨objs, hs⟩ := (migrateKeys_runs hrun).succeeded hr
  cases hdump with
  | @mk pre post mid s₁ m _ s₃ _ _ hpre hlive hcall hmid hpttl =>
    have hin : (⟨key, entry.val, n⟩ : DumpObj).dumpEvents <:+: calls (pre ++
        .call ⟨.dump key, Reply.string entry.val⟩ :: (mid.map .move ++ .call ⟨.pttl key, Reply.integer n⟩ :: post)) := by
      refine ⟨calls pre, calls post, ?_⟩
      simp [DumpObj.dumpEvents]
    obtain ⟨g, hg, hack⟩ := hs.carried (hs.mem_objs hin)
    refine ⟨_, restored_of_mem hack hg, ?_⟩
    obtain ⟨⟨n', hn, hval⟩, -⟩ := hpttl
    cases hn
    have hkept := expiryKept_iff entry ⟨key, entry.val, n⟩
    rwa [hval, Source.pttl_pos_iff] at hkept

/-- One key of value 1 moves over a cached connection; PTTL replies `n`, sent as `text`. -/
def solo (n : Int64) (text : Bytes) : Trace :=
  [⟨.dump [97], Reply.string [1]⟩, ⟨.pttl [97], Reply.integer n⟩, ⟨.getTid, worker⟩,
    ⟨.cachedConn workerConn, true⟩, ⟨.select 0, NetAnswer.reply .status⟩,
    ⟨.command [slotsrestoreName, [97], text, [1]], NetAnswer.reply (.integer 1)⟩, ⟨.closeConn [104] [49], ()⟩,
    ⟨.unlink [97], Reply.integer 1⟩]

theorem runs_solo_zero : Runs (migrateKeys oneConnection [[97]]) (solo 0 [48]) (some 1) :=
  .call _ (.call _ (.call _ (.call _ (.call _ (.call _ (.call _ (.call _ (.ret _))))))))

theorem runs_solo_ninety : Runs (migrateKeys oneConnection [[97]]) (solo 90 [57, 48]) (some 1) :=
  .call _ (.call _ (.call _ (.call _ (.call _ (.call _ (.call _ (.call _ (.ret _))))))))

/-- The key expires at 100, and it is `now`. -/
def expiring (now : Int) : Source := ⟨fun key => if key = [97] then some ⟨[1], some 100⟩ else none, now, .init⟩

/-- Nothing happens between the two calls of a synchronous migration. -/
theorem DumpedAt.sync {s : Source} {key : Bytes} {entry : Entry} (hlive : s.live key = some entry) {n : Int64}
    (hn : n.toInt = s.pttl key) (post : List Label) :
    DumpedAt hash conf db s key (.call ⟨.dump key, Reply.string entry.val⟩ :: .call ⟨.pttl key, Reply.integer n⟩ :: post)
      entry s n := by
  have htouch : s.touch hash conf db key = s := Source.touch_of_live hlive
  have hdump : s.call hash conf db ⟨.dump key, Reply.string entry.val⟩ s := 
    ⟨by rw [dumpReply, hlive]; rfl, htouch.symm⟩
  exact @DumpedAt.mk hash conf db s key [] post [] s s s s entry n rfl hlive hdump rfl ⟨⟨n, rfl, hn⟩, htouch.symm⟩

theorem dumpedAt_solo {now : Int} {n : Int64} (hlive : (expiring now).live [97] = some ⟨[1], some 100⟩)
    (hn : n.toInt = (expiring now).pttl [97]) (text : Bytes) :
    DumpedAt (fun _ => 0) conf16 0 (expiring now) [97] ((solo n text).map .call) ⟨[1], some 100⟩ (expiring now) n :=
  DumpedAt.sync hlive hn (((solo n text).drop 2).map .call)

/-- The target restores the key without expiry. -/
def restoreSolo : Trace := [⟨.restore [97] 0 [1], Reply.string []⟩, ⟨.notifyOne [97], ()⟩]

theorem runs_restoreSolo : Runs (slotsRestoreCmd [slotsrestoreName, [97], [48], [1]]) restoreSolo (some 1) :=
  .call _ (.call _ (.ret _))

theorem redisReplies_restoreSolo : RedisReplies restoreSolo := by
  intro key ttl val a hm
  rcases List.mem_cons.mp hm with he | hm
  · cases he
    exact .inr ⟨_, rfl⟩
  · cases List.mem_singleton.mp hm

theorem expiry_survives_iff_ninety : ∃ ttlms, Restored (acked (solo 90 [57, 48])) [97] ttlms [1] ∧
    ExpiryKept ⟨[1], some 100⟩ 90 ttlms := by
  obtain ⟨ttlms, h, hkept⟩ := @expiry_survives_iff (fun _ => 0) conf16 oneConnection [[97]]
    ((solo 90 [57, 48]).map .call) 1 (calls_map_call _ ▸ runs_solo_ninety) (by decide) (expiring 10) (expiring 10)
    [97] ⟨[1], some 100⟩ 90 (dumpedAt_solo rfl rfl _)
  rw [calls_map_call] at h
  exact ⟨ttlms, h, hkept.mpr ⟨fun _ => rfl, fun _ => ⟨_, _, rfl, by decide⟩⟩⟩

/-- In its last millisecond the key is reported with 0 left, and the target makes it persistent. -/
theorem not_expiry_survives : Runs (migrateKeys oneConnection [[97]]) (calls ((solo 0 [48]).map .call)) (some 1) ∧
    DumpedAt (fun _ => 0) conf16 0 (expiring 100) [97] ((solo 0 [48]).map .call) ⟨[1], some 100⟩ (expiring 100) 0 ∧
    ¬ ∃ ttlms, Restored (acked (calls ((solo 0 [48]).map .call))) [97] ttlms [1] ∧
      ExpiryKept ⟨[1], some 100⟩ 0 ttlms := by
  refine ⟨calls_map_call _ ▸ runs_solo_zero, dumpedAt_solo rfl rfl _, ?_⟩
  rintro ⟨ttlms, ⟨argv, hargv, hall⟩, hkept⟩
  rw [calls_map_call] at hargv
  obtain rfl : argv = [slotsrestoreName, [97], [48], [1]] := List.mem_singleton.mp hargv
  obtain ⟨status, hm⟩ := hall _ _ runs_restoreSolo (by decide) redisReplies_restoreSolo
  obtain rfl : ttlms = 0 := by
    rcases List.mem_cons.mp hm with he | hm
    · cases he
      rfl
    · cases List.mem_singleton.mp hm
  have := (hkept 0 (fun _ => none) [97] ⟨[1], none⟩ rfl).1.mpr rfl
  cases this

end RedisXSlot
