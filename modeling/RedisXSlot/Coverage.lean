import RedisXSlot.Commands
import RedisXSlot.SlotIndexProofs

/-! Whether the index covers the keyspace.

After every command the index of each database should hold the keys present there. It does
so as long as no key is evicted and no copy makes a new key, and no longer: nobody
listens to the events of these two (`Command.unnoticed`). -/
namespace RedisXSlot

variable {hash : Bytes → Nat} {conf : SlotsMetaInfo}

/-! ### Events -/

theorem Slots.keys_setInfo (s : Slots) (db i : Nat) (info : DbSlotInfo) :
    (s.setInfo db info).keys conf i = if i = db then info.keys conf else s.keys conf i := by
  by_cases hi : i = db
  · subst hi
    simp [keys]
  · simp [keys, hi, setInfo_info_of_ne]

theorem keys_slotsAdd {s : Slots} (h : s.Wf hash conf) (db : Nat) (key : Bytes) (draws : Nat) :
    (slotsAdd hash conf s db key draws).Wf hash conf ∧ ∀ i k, k ∈ (slotsAdd hash conf s db key draws).keys conf i ↔
      (i = db ∧ k = key) ∨ k ∈ s.keys conf i := by
  obtain ⟨info, heq, hwf, hkeys⟩ := slotsAdd_spec h db key draws
  refine ⟨heq ▸ h.setInfo hwf, fun i k => ?_⟩
  rw [heq, Slots.keys_setInfo, hkeys]
  split
  next hi => subst hi; simp
  next hi => simp [hi]

theorem keys_slotsDel {s : Slots} (h : s.Wf hash conf) (db : Nat) (key : Bytes) :
    (slotsDel hash conf s db key).Wf hash conf ∧ ∀ i k, k ∈ (slotsDel hash conf s db key).keys conf i ↔
      ¬ (i = db ∧ k = key) ∧ k ∈ s.keys conf i := by
  obtain ⟨info, heq, hwf, hkeys⟩ := slotsDel_spec h db key
  refine ⟨heq ▸ h.setInfo hwf, fun i k => ?_⟩
  rw [heq, Slots.keys_setInfo, hkeys]
  split
  next hi => subst hi; simp [and_comm]
  next hi => simp [hi]

variable (draws : Nat) (m : ModuleState) (db : Nat) (key : Bytes)

/-- An event of a type adds the key. -/
theorem notify_type (type : KeyType) (event : String) : notify hash conf draws m ⟨type.notify, event, db, key⟩ =
    { m with slots := slotsAdd hash conf m.slots db key draws } := by
  cases type <;> rfl

theorem notify_loaded (event : String) : notify hash conf draws m ⟨.loaded, event, db, key⟩ =
    { m with slots := slotsAdd hash conf m.slots db key draws } := rfl

theorem notify_del : notify hash conf draws m ⟨.generic, "del", db, key⟩ =
    { m with slots := slotsDel hash conf m.slots db key } := by
  simp [notify, typeChangeMask, genericMask, notifyGenericCallback]

theorem notify_expired : notify hash conf draws m ⟨.expired, "expired", db, key⟩ =
    { m with slots := slotsDel hash conf m.slots db key } := by
  simp [notify, typeChangeMask, genericMask, notifyGenericCallback]

/-- Nothing is subscribed to evictions. -/
theorem notify_evicted (event : String) : notify hash conf draws m ⟨.evicted, event, db, key⟩ = m := rfl

variable {m}

/-- Nothing handles a copy. -/
theorem notify_copy (hflag : m.cmd_flag = .CMD_NONE) :
    notify hash conf draws m ⟨.generic, "copy_to", db, key⟩ = m := by
  simp [notify, typeChangeMask, genericMask, notifyGenericCallback, hflag]

/-- The pair of a rename moves the key. -/
theorem notify_rename (hflag : m.cmd_flag = .CMD_NONE) (newkey : Bytes) :
    let m' := notify hash conf draws (notify hash conf draws m ⟨.generic, "rename_from", db, key⟩)
      ⟨.generic, "rename_to", db, newkey⟩
    m'.cmd_flag = .CMD_NONE ∧
      m'.slots = slotsAdd hash conf (slotsDel hash conf m.slots db key) db newkey draws := by
  simp [notify, typeChangeMask, genericMask, notifyGenericCallback, hflag, moveKey]

/-- The pair of a move moves the key. -/
theorem notify_move (hflag : m.cmd_flag = .CMD_NONE) (dst : Nat) :
    let m' := notify hash conf draws (notify hash conf draws m ⟨.generic, "move_from", db, key⟩)
      ⟨.generic, "move_to", dst, key⟩
    m'.cmd_flag = .CMD_NONE ∧
      m'.slots = slotsAdd hash conf (slotsDel hash conf m.slots db key) dst key draws := by
  simp [notify, typeChangeMask, genericMask, notifyGenericCallback, hflag, moveKey]

/-! ### Commands -/

/-- The index of each database is the set of keys present in it. -/
def Server.InSync (s : Server conf.databases) : Prop :=
  ∀ db : Fin conf.databases, s.mod.slots.keys conf db = {key | s.keyspace db key = true}

theorem Server.inSync_iff {s : Server conf.databases} :
    s.InSync ↔ ∀ (db : Fin conf.databases) key, key ∈ s.mod.slots.keys conf db ↔ s.keyspace db key = true :=
  forall_congr' fun _ => Set.ext_iff

variable (hash conf) in
/-- The index is well formed and no pair of events is half done. -/
structure ModuleState.Quiet (m : ModuleState) : Prop where
  wf : m.slots.Wf hash conf
  flag : m.cmd_flag = .CMD_NONE

/-- The command changes the keyspace and the index misses it. -/
def Command.unnoticed {databases : Nat} (ks : Keys databases) : Command databases → Bool
  | .evict db key => ks db key
  | .copy db key dst newkey replace => copies ks db key dst newkey replace && !ks dst newkey
  | _ => false

theorem Keys.set_eq_true_iff {databases : Nat} (ks : Keys databases) (db i : Fin databases) (key k : Bytes) (b : Bool) :
    ks.set db key b i k = true ↔ (i = db ∧ k = key ∧ b = true) ∨ (¬ (i = db ∧ k = key) ∧ ks i k = true) := by
  rw [Keys.set]
  split
  next h => simp [h]
  next h => exact ⟨fun hk => .inr ⟨h, hk⟩, fun hk => (hk.resolve_left fun hc => h ⟨hc.1, hc.2.1⟩).2⟩

theorem Keys.set_self {databases : Nat} {ks : Keys databases} {db : Fin databases} {key : Bytes} {b : Bool}
    (h : ks db key = b) : ks.set db key b = ks := by
  funext i k
  rw [Keys.set]
  split
  next hc => rw [hc.1, hc.2, h]
  next => rfl

theorem Keys.set_set {databases : Nat} (ks : Keys databases) (db : Fin databases) (key : Bytes) (b c : Bool) :
    (ks.set db key b).set db key c = ks.set db key c := by
  funext i k
  simp only [Keys.set]
  split <;> rfl

theorem Server.step_eq (s : Server conf.databases) (c : Command conf.databases) (draws : Nat) :
    s.step hash conf c draws = ⟨(c.execute s.keyspace).1,
      (c.execute s.keyspace).2.foldl (notify hash conf draws) (c.serverEvents hash conf s.mod)⟩ := rfl

section Step
variable {s : Server conf.databases} (hq : s.mod.Quiet hash conf) (hs : s.InSync)
include hq hs

/-- A key comes in on both sides. -/
theorem inSync_add (i : Fin conf.databases) (k : Bytes) :
    Server.InSync ⟨s.keyspace.set i k true, { s.mod with slots := slotsAdd hash conf s.mod.slots i k draws }⟩ := by
  rw [Server.inSync_iff] at hs ⊢
  intro j k'
  rw [(keys_slotsAdd hq.wf i k draws).2, hs, Keys.set_eq_true_iff, Fin.val_inj]
  tauto

/-- A key goes out on both sides. -/
theorem inSync_del (i : Fin conf.databases) (k : Bytes) :
    Server.InSync ⟨s.keyspace.set i k false, { s.mod with slots := slotsDel hash conf s.mod.slots i k }⟩ := by
  rw [Server.inSync_iff] at hs ⊢
  intro j k'
  rw [(keys_slotsDel hq.wf i k).2, hs, Keys.set_eq_true_iff, Fin.val_inj]
  simp

/-- A key moves on both sides. -/
theorem inSync_move {i j : Fin conf.databases} {k k' : Bytes} (hne : ¬ (i = j ∧ k = k')) {m : ModuleState}
    (hm : m.slots = slotsAdd hash conf (slotsDel hash conf s.mod.slots i k) j k' draws) :
    Server.InSync ⟨(s.keyspace.set j k' true).set i k false, m⟩ := by
  have hdel := keys_slotsDel hq.wf i k
  rw [Server.inSync_iff] at hs ⊢
  intro l k''
  simp only [hm, (keys_slotsAdd hdel.1 j k' draws).2, hdel.2, hs, Keys.set_eq_true_iff, Fin.val_inj]
  constructor
  · rintro (⟨rfl, rfl⟩ | ⟨hk, hin⟩)
    · exact .inr ⟨fun hc => hne ⟨hc.1.symm, hc.2.symm⟩, .inl ⟨rfl, rfl, trivial⟩⟩
    · by_cases hc : l = j ∧ k'' = k'
      · exact .inr ⟨hk, .inl ⟨hc.1, hc.2, trivial⟩⟩
      · exact .inr ⟨hk, .inr ⟨hc, hin⟩⟩
  · rintro (⟨-, -, hb⟩ | ⟨hk, ⟨rfl, rfl, -⟩ | ⟨-, hin⟩⟩)
    · cases hb
    · exact .inl ⟨rfl, rfl⟩
    · exact .inr ⟨hk, hin⟩

/-- **A command keeps the index in sync exactly if it does not go unnoticed.** -/
theorem step_inSync (c : Command conf.databases) : (s.step hash conf c draws).mod.Quiet hash conf ∧
    ((s.step hash conf c draws).InSync ↔ c.unnoticed s.keyspace = false) := by
  have hadd (i : Fin conf.databases) (k : Bytes) :
      ModuleState.Quiet hash conf { s.mod with slots := slotsAdd hash conf s.mod.slots i k draws } :=
    ⟨(keys_slotsAdd hq.wf i k draws).1, hq.flag⟩
  have hdel (i : Fin conf.databases) (k : Bytes) :
      ModuleState.Quiet hash conf { s.mod with slots := slotsDel hash conf s.mod.slots i k } :=
    ⟨(keys_slotsDel hq.wf i k).1, hq.flag⟩
  have hmove {i j : Fin conf.databases} {k k' : Bytes} {m : ModuleState} (hflag : m.cmd_flag = .CMD_NONE)
      (hm : m.slots = slotsAdd hash conf (slotsDel hash conf s.mod.slots i k) j k' draws) : m.Quiet hash conf :=
    ⟨hm ▸ (keys_slotsAdd (keys_slotsDel hq.wf i k).1 j k' draws).1, hflag⟩
  -- A command that fails leaves everything as it is.
  have hnone {c : Command conf.databases} (hstep : s.step hash conf c draws = s) (hc : c.unnoticed s.keyspace = false) :
      (s.step hash conf c draws).mod.Quiet hash conf ∧
        ((s.step hash conf c draws).InSync ↔ c.unnoticed s.keyspace = false) :=
    hstep.symm ▸ ⟨hq, iff_of_true hs hc⟩
  cases c with
  | write type event i k =>
    simp only [Server.step, Command.execute, Command.serverEvents, List.foldl, notify_type]
    exact ⟨hadd i k, iff_of_true (inSync_add draws hq hs i k) rfl⟩
  | load i k => exact ⟨hadd i k, iff_of_true (inSync_add draws hq hs i k) rfl⟩
  | drain type event i k =>
    cases hk : s.keyspace i k with
    | false => exact hnone (by simp [Server.step, Command.execute, Command.serverEvents, hk]) rfl
    | true =>
      have hq' := hadd i k
      have hs' := inSync_del hq' (inSync_add draws hq hs i k) i k
      rw [Keys.set_set] at hs'
      simp only [Server.step, Command.execute, Command.serverEvents, hk, if_true, List.foldl, notify_type, notify_del]
      exact ⟨⟨(keys_slotsDel hq'.wf i k).1, hq.flag⟩, iff_of_true hs' rfl⟩
  | del i k =>
    cases hk : s.keyspace i k with
    | false => exact hnone (by simp [Server.step, Command.execute, Command.serverEvents, hk]) rfl
    | true =>
      simp only [Server.step, Command.execute, Command.serverEvents, hk, if_true, List.foldl, notify_del]
      exact ⟨hdel i k, iff_of_true (inSync_del hq hs i k) rfl⟩
  | expire i k =>
    cases hk : s.keyspace i k with
    | false => exact hnone (by simp [Server.step, Command.execute, Command.serverEvents, hk]) rfl
    | true =>
      simp only [Server.step, Command.execute, Command.serverEvents, hk, if_true, List.foldl, notify_expired]
      exact ⟨hdel i k, iff_of_true (inSync_del hq hs i k) rfl⟩
  | evict i k =>
    cases hk : s.keyspace i k with
    | false => exact hnone (by simp [Server.step, Command.execute, Command.serverEvents, hk]) hk
    | true =>
      simp only [Server.step, Command.execute, Command.serverEvents, hk, if_true, List.foldl, notify_evicted]
      refine ⟨hq, iff_of_false (fun hsync => ?_) (by simp [Command.unnoticed, hk])⟩
      have hghost := ((Server.inSync_iff.mp hsync) i k).mp ((Server.inSync_iff.mp hs i k).mpr hk)
      simp [Keys.set] at hghost
  | rename i k k' =>
    by_cases hk : (s.keyspace i k && k ≠ k') = true
    · obtain ⟨hflag, hm⟩ := @notify_rename hash conf draws s.mod i k hq.flag k'
      have hne : k ≠ k' := of_decide_eq_true (Bool.and_eq_true_iff.mp hk).2
      rw [Server.step_eq, Command.execute, if_pos hk]
      exact ⟨hmove hflag hm, iff_of_true (inSync_move draws hq hs (fun hc => hne hc.2) hm) rfl⟩
    · exact hnone (by rw [Server.step_eq, Command.execute, if_neg hk]; rfl) rfl
  | move i j k =>
    by_cases hk : (s.keyspace i k && i ≠ j && !s.keyspace j k) = true
    · obtain ⟨hflag, hm⟩ := @notify_move hash conf draws s.mod i k hq.flag j
      have hne : i ≠ j := of_decide_eq_true (Bool.and_eq_true_iff.mp (Bool.and_eq_true_iff.mp hk).1).2
      rw [Server.step_eq, Command.execute, if_pos hk]
      exact ⟨hmove hflag hm, iff_of_true (inSync_move draws hq hs (fun hc => hne hc.1) hm) rfl⟩
    · exact hnone (by rw [Server.step_eq, Command.execute, if_neg hk]; rfl) rfl
  | copy i k j k' replace =>
    cases hc : Command.copies s.keyspace i k j k' replace with
    | false =>
      exact hnone (by simp [Server.step, Command.execute, Command.serverEvents, hc]) (by simp [Command.unnoticed, hc])
    | true =>
      simp only [Server.step, Command.execute, Command.serverEvents, hc, if_true, List.foldl,
        notify_copy draws _ _ hq.flag, Command.unnoticed, Bool.true_and]
      refine ⟨hq, ?_⟩
      cases hk : s.keyspace j k' with
      | true =>
        rw [Keys.set_self hk]
        exact iff_of_true hs rfl
      | false =>
        refine iff_of_false (fun hsync => ?_) nofun
        have hin := ((Server.inSync_iff.mp hsync) j k').mpr (by simp [Keys.set])
        rw [Server.inSync_iff.mp hs, hk] at hin
        cases hin
  | flush dbnum =>
    have hstart := flushdbCallback_spec hq.wf true (dbnum.map Fin.val)
    refine ⟨⟨hstart.1, hq.flag⟩, iff_of_true (Server.inSync_iff.mpr fun j k => ?_) rfl⟩
    show k ∈ Slots.keys conf (flushdbCallback conf s.mod.slots true (dbnum.map Fin.val)) j ↔
      (if dbnum = some j ∨ dbnum = none then false else s.keyspace j k) = true
    rw [hstart.2]
    cases dbnum with
    | none => simp [j.isLt]
    | some d =>
      by_cases hd : d = j
      · simp [hd]
      · simp [hd, Fin.val_inj, Server.inSync_iff.mp hs]
  | cron child rounds =>
    have hm := dbSlotCron_moved child rounds hq.wf
    refine ⟨⟨hm.wf hq.wf, hq.flag⟩, iff_of_true (Server.inSync_iff.mpr fun j k => ?_) rfl⟩
    exact (Set.ext_iff.mp (hm.keys j) k).trans (Server.inSync_iff.mp hs j k)

end Step

/-! ### Runs -/

variable (hash conf) in
/-- The index is in sync now and after each of the commands. -/
def Server.AlwaysInSync (s : Server conf.databases) : List (Command conf.databases × Nat) → Prop
  | [] => s.InSync
  | c :: cmds => s.InSync ∧ (s.step hash conf c.1 c.2).AlwaysInSync cmds

/-- No command goes unnoticed, from this keyspace on. -/
def Keys.noticed {databases : Nat} (ks : Keys databases) : List (Command databases) → Bool
  | [] => true
  | c :: cmds => !c.unnoticed ks && noticed (c.execute ks).1 cmds

theorem alwaysInSync_iff {s : Server conf.databases} (hq : s.mod.Quiet hash conf) (hs : s.InSync)
    (cmds : List (Command conf.databases × Nat)) :
    s.AlwaysInSync hash conf cmds ↔ s.keyspace.noticed (cmds.map Prod.fst) = true := by
  induction cmds generalizing s with
  | nil => exact iff_of_true hs rfl
  | cons c cmds ih =>
    obtain ⟨hq', hstep⟩ := step_inSync c.2 hq hs c.1
    rw [Server.AlwaysInSync, and_iff_right hs, List.map_cons, Keys.noticed, Bool.and_eq_true, Bool.not_eq_true']
    by_cases hc : c.1.unnoticed s.keyspace = false
    · rw [ih hq' (hstep.mpr hc), and_iff_right hc]
      rfl
    · refine iff_of_false (fun h => hc (hstep.mp ?_)) fun h => hc h.1
      cases cmds with
      | nil => exact h
      | cons => exact h.1

theorem quiet_init : ModuleState.init.Quiet hash conf := ⟨fun _ => DbSlotInfo.wf_init, rfl⟩

theorem inSync_init : (Server.init conf.databases).InSync := by
  intro db
  ext key
  simp [Server.init, ModuleState.init, slotsInit, Slots.keys, DbSlotInfo.keys]

/-- **When the index covers the keyspace**: after every command of a run the index of each
database is the set of its keys, if and only if the run evicts no key and makes no new
key by copying. -/
theorem index_covers_iff (hash : Bytes → Nat) (conf : SlotsMetaInfo) (cmds : List (Command conf.databases × Nat)) :
    (Server.init conf.databases).AlwaysInSync hash conf cmds ↔
      (Server.init conf.databases).keyspace.noticed (cmds.map Prod.fst) = true :=
  alwaysInSync_iff quiet_init inSync_init cmds

def conf16 : SlotsMetaInfo := ⟨1024, 16, true, by decide⟩

/-- A hash that tells keys apart by their last byte. -/
def lastByte (key : Bytes) : Nat := (key.getLastD 0).toNat

/-- Evicting the only key leaves a ghost, and copying it makes a key out of sight. -/
theorem not_index_covers :
    ¬ (Server.init conf16.databases).AlwaysInSync (fun _ => 0) conf16
      [(.write .string "set" ⟨0, by decide⟩ [97], 0), (.evict ⟨0, by decide⟩ [97], 0)] ∧
    ¬ (Server.init conf16.databases).AlwaysInSync (fun _ => 0) conf16
      [(.write .string "set" ⟨0, by decide⟩ [97], 0),
        (.copy ⟨0, by decide⟩ [97] ⟨0, by decide⟩ [98] false, 0)] := by
  constructor
  · rw [alwaysInSync_iff quiet_init inSync_init]
    decide
  · rw [alwaysInSync_iff quiet_init inSync_init]
    decide

end RedisXSlot
