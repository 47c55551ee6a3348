import RedisXSlot.Coverage
import RedisXSlot.Restore

/-! Restoring while clients go on.

An async target runs each SLOTSRESTORE in a thread of its own, which takes the lock for a
RESTORE, lets it go, and takes it again to raise the event of the key's type. In between a
key is there and not indexed, and clients and other workers may delete it, rename it, move
it, write it or restore it again. A command changes the keyspace and the index by the same
keys, so a key that is not indexed stays the business of a worker that has not notified
yet (`async_restore_covers`). -/
namespace RedisXSlot
open Interaction

/-- The module hears of what the command does. -/
def Command.handled {databases : Nat} : Command databases → Bool
  | .evict .. | .copy .. => false
  | _ => true

/-- A thread that runs `slotsRestoreCmd`, in the database of its client, and what it has left to do. -/
structure Worker (databases : Nat) where
  db : Fin databases
  todo : Act Int

structure AsyncTarget (databases : Nat) where
  server : Server databases
  workers : List (Worker databases)

def AsyncTarget.init (databases : Nat) : AsyncTarget databases := ⟨.init databases, []⟩

/-- It has restored the key and not notified. -/
def Worker.Restored {databases : Nat} (w : Worker databases) (key : Bytes) : Prop :=
  ∃ k, w.todo = .call (.notifyOne key) k

def Worker.Finished {databases : Nat} (w : Worker databases) : Prop := ∃ r, w.todo = .ret r

section Hash
variable (hash : Bytes → Nat) (conf : SlotsMetaInfo)

/-- The server answers a call of a worker, under the lock. -/
inductive Serves (s : Server conf.databases) (db : Fin conf.databases) :
    (c : Call) → Answer c → Server conf.databases → Prop where
  | restored (key : Bytes) (ttlms : Int64) (val : Bytes) (r : Reply) (draws : Nat) :
      r ≠ .null → r ≠ .nil → r ≠ .error →
      Serves s db (.restore key ttlms val) r
        ⟨s.keyspace.set db key true, notify hash conf draws s.mod ⟨.generic, "restore", db, key⟩⟩
  /-- The RESTORE is refused, or there is no reply. -/
  | refused (key : Bytes) (ttlms : Int64) (val : Bytes) (r : Reply) : r = .null ∨ r = .nil ∨ r = .error →
      Serves s db (.restore key ttlms val) r s
  /-- `notifyOne` finds the key, of some type. -/
  | notified (key : Bytes) (type : KeyType) (draws : Nat) : s.keyspace db key = true →
      Serves s db (.notifyOne key) () ⟨s.keyspace, notify hash conf draws s.mod ⟨type.notify, "slotsmgrt-restore", db, key⟩⟩
  | missing (key : Bytes) : s.keyspace db key = false → Serves s db (.notifyOne key) () s

inductive AsyncTarget.Step : AsyncTarget conf.databases → AsyncTarget conf.databases → Prop where
  | command (s : Server conf.databases) (workers : List (Worker conf.databases)) (c : Command conf.databases) (draws : Nat) :
      c.handled = true → Step ⟨s, workers⟩ ⟨s.step hash conf c draws, workers⟩
  /-- A thread is created for a SLOTSRESTORE. -/
  | start (s : Server conf.databases) (workers : List (Worker conf.databases)) (db : Fin conf.databases) (argv : List Bytes) :
      (∀ objs, decodeTriples argv.tail = some objs → ∀ obj ∈ objs, NulFree obj.key) →
      Step ⟨s, workers⟩ ⟨s, workers ++ [⟨db, slotsRestoreCmd argv⟩]⟩
  | work (s s' : Server conf.databases) (pre post : List (Worker conf.databases)) (db : Fin conf.databases) (c : Call)
      (k : Answer c → Act Int) (a : Answer c) : Serves hash conf s db c a s' →
      Step ⟨s, pre ++ ⟨db, .call c k⟩ :: post⟩ ⟨s', pre ++ ⟨db, k a⟩ :: post⟩

def AsyncTarget.Reachable : AsyncTarget conf.databases → Prop :=
  Relation.ReflTransGen (AsyncTarget.Step hash conf) (.init conf.databases)

end Hash

variable {hash : Bytes → Nat} {conf : SlotsMetaInfo}

/-! ### Commands -/

/-- The keyspace and the index lose the same keys and get the same keys. -/
def Server.SameChange (s s' : Server conf.databases) : Prop :=
  ∃ gone added : Fin conf.databases → Bytes → Prop, ∀ db key,
    (s'.keyspace db key = true ↔ added db key ∨ ¬ gone db key ∧ s.keyspace db key = true) ∧
    (key ∈ s'.mod.slots.keys conf db ↔ added db key ∨ ¬ gone db key ∧ key ∈ s.mod.slots.keys conf db)

section
variable {s s' : Server conf.databases}

theorem Server.SameChange.refl (s : Server conf.databases) : s.SameChange s :=
  ⟨fun _ _ => False, fun _ _ => False, fun _ _ => by simp⟩

theorem sameChange_add (hq : s.mod.Quiet hash conf) (i : Fin conf.databases) (k : Bytes) (draws : Nat) :
    s.SameChange ⟨s.keyspace.set i k true, { s.mod with slots := slotsAdd hash conf s.mod.slots i k draws }⟩ := by
  refine ⟨fun _ _ => False, fun j k' => j = i ∧ k' = k, fun j k' => ⟨?_, ?_⟩⟩
  · rw [Keys.set_eq_true_iff]
    tauto
  · rw [(keys_slotsAdd hq.wf i k draws).2, Fin.val_inj]
    tauto

theorem sameChange_del (hq : s.mod.Quiet hash conf) (i : Fin conf.databases) (k : Bytes) :
    s.SameChange ⟨s.keyspace.set i k false, { s.mod with slots := slotsDel hash conf s.mod.slots i k }⟩ := by
  refine ⟨fun j k' => j = i ∧ k' = k, fun _ _ => False, fun j k' => ⟨?_, ?_⟩⟩
  · rw [Keys.set_eq_true_iff]
    simp
  · rw [(keys_slotsDel hq.wf i k).2, Fin.val_inj]
    simp

theorem sameChange_move (hq : s.mod.Quiet hash conf) {i j : Fin conf.databases} {k k' : Bytes}
    (hne : ¬ (i = j ∧ k = k')) {m : ModuleState} {draws : Nat}
    (hm : m.slots = slotsAdd hash conf (slotsDel hash conf s.mod.slots i k) j k' draws) :
    s.SameChange ⟨(s.keyspace.set j k' true).set i k false, m⟩ := by
  have hdel := keys_slotsDel hq.wf i k
  refine ⟨fun l k'' => l = i ∧ k'' = k, fun l k'' => l = j ∧ k'' = k', fun l k'' => ⟨?_, ?_⟩⟩
  · have hsource : l = j ∧ k'' = k' → ¬ (l = i ∧ k'' = k) := by
      rintro ⟨rfl, rfl⟩ ⟨rfl, rfl⟩
      exact hne ⟨rfl, rfl⟩
    simp only [Keys.set_eq_true_iff]
    tauto
  · rw [hm, (keys_slotsAdd hdel.1 j k' draws).2, hdel.2, Fin.val_inj, Fin.val_inj]

/-- Notifying of a RESTORE does nothing. -/
theorem notify_restore {m : ModuleState} (hflag : m.cmd_flag = .CMD_NONE) (draws db : Nat) (key : Bytes) :
    notify hash conf draws m ⟨.generic, "restore", db, key⟩ = m := by
  simp [notify, typeChangeMask, genericMask, notifyGenericCallback, hflag]

/-- **A command the module hears of changes the keyspace and the index alike.** -/
theorem handled_step (hq : s.mod.Quiet hash conf) {c : Command conf.databases} (hc : c.handled = true) (draws : Nat) :
    (s.step hash conf c draws).mod.Quiet hash conf ∧ s.SameChange (s.step hash conf c draws) := by
  have hadd (i : Fin conf.databases) (k : Bytes) :
      ModuleState.Quiet hash conf { s.mod with slots := slotsAdd hash conf s.mod.slots i k draws } :=
    ⟨(keys_slotsAdd hq.wf i k draws).1, hq.flag⟩
  have hdel {m : ModuleState} (hm : m.Quiet hash conf) (i : Fin conf.databases) (k : Bytes) :
      ModuleState.Quiet hash conf { m with slots := slotsDel hash conf m.slots i k } :=
    ⟨(keys_slotsDel hm.wf i k).1, hm.flag⟩
  have hmove {i j : Fin conf.databases} {k k' : Bytes} {m : ModuleState} (hflag : m.cmd_flag = .CMD_NONE)
      (hm : m.slots = slotsAdd hash conf (slotsDel hash conf s.mod.slots i k) j k' draws) : m.Quiet hash conf :=
    ⟨hm ▸ (keys_slotsAdd (keys_slotsDel hq.wf i k).1 j k' draws).1, hflag⟩
  -- A command that fails leaves everything as it is.
  have hnone {t : Server conf.databases} (hstep : t = s) : t.mod.Quiet hash conf ∧ s.SameChange t :=
    hstep.symm ▸ ⟨hq, .refl s⟩
  cases c with
  | write type event i k =>
    simp only [Server.step, Command.execute, Command.serverEvents, List.foldl, notify_type]
    exact ⟨hadd i k, sameChange_add hq i k draws⟩
  | load i k => exact ⟨hadd i k, sameChange_add hq i k draws⟩
  | drain type event i k =>
    cases hk : s.keyspace i k with
    | false => exact hnone (by simp [Server.step, Command.execute, Command.serverEvents, hk])
    | true =>
      simp only [Server.step, Command.execute, Command.serverEvents, hk, if_true, List.foldl, notify_type, notify_del]
      refine ⟨hdel (hadd i k) i k, fun j k' => j = i ∧ k' = k, fun _ _ => False, fun j k' => ⟨?_, ?_⟩⟩
      · rw [Keys.set_eq_true_iff]
        simp
      · rw [(keys_slotsDel (hadd i k).wf i k).2, (keys_slotsAdd hq.wf i k draws).2, Fin.val_inj]
        tauto
  | del i k =>
    cases hk : s.keyspace i k with
    | false => exact hnone (by simp [Server.step, Command.execute, Command.serverEvents, hk])
    | true =>
      simp only [Server.step, Command.execute, Command.serverEvents, hk, if_true, List.foldl, notify_del]
      exact ⟨hdel hq i k, sameChange_del hq i k⟩
  | expire i k =>
    cases hk : s.keyspace i k with
    | false => exact hnone (by simp [Server.step, Command.execute, Command.serverEvents, hk])
    | true =>
      simp only [Server.step, Command.execute, Command.serverEvents, hk, if_true, List.foldl, notify_expired]
      exact ⟨hdel hq i k, sameChange_del hq i k⟩
  | evict i k => cases hc
  | copy i k j k' replace => cases hc
  | rename i k k' =>
    by_cases hk : (s.keyspace i k && k ≠ k') = true
    · obtain ⟨hflag, hm⟩ := @notify_rename hash conf draws s.mod i k hq.flag k'
      have hne : k ≠ k' := of_decide_eq_true (Bool.and_eq_true_iff.mp hk).2
      rw [Server.step_eq, Command.execute, if_pos hk]
      exact ⟨hmove hflag hm, sameChange_move hq (fun hc => hne hc.2) hm⟩
    · exact hnone (by rw [Server.step_eq, Command.execute, if_neg hk]; rfl)
  | move i j k =>
    by_cases hk : (s.keyspace i k && i ≠ j && !s.keyspace j k) = true
    · obtain ⟨hflag, hm⟩ := @notify_move hash conf draws s.mod i k hq.flag j
      have hne : i ≠ j := of_decide_eq_true (Bool.and_eq_true_iff.mp (Bool.and_eq_true_iff.mp hk).1).2
      rw [Server.step_eq, Command.execute, if_pos hk]
      exact ⟨hmove hflag hm, sameChange_move hq (fun hc => hne hc.1) hm⟩
    · exact hnone (by rw [Server.step_eq, Command.execute, if_neg hk]; rfl)
  | flush dbnum =>
    have hstart := flushdbCallback_spec hq.wf true (dbnum.map Fin.val)
    refine ⟨⟨hstart.1, hq.flag⟩, fun j _ => dbnum = some j ∨ dbnum = none, fun _ _ => False, fun j k => ⟨?_, ?_⟩⟩
    · show (if dbnum = some j ∨ dbnum = none then false else s.keyspace j k) = true ↔ _
      split <;> simp_all
    · show k ∈ Slots.keys conf (flushdbCallback conf s.mod.slots true (dbnum.map Fin.val)) j ↔ _
      rw [hstart.2]
      cases dbnum with
      | none => simp [j.isLt]
      | some d =>
        by_cases hd : d = j
        · simp [hd]
        · simp [hd, Fin.val_inj]
  | cron child rounds =>
    have hm := dbSlotCron_moved child rounds hq.wf
    refine ⟨⟨hm.wf hq.wf, hq.flag⟩, fun _ _ => False, fun _ _ => False, fun j k => ⟨by simp [Server.step, Command.execute], ?_⟩⟩
    show k ∈ Slots.keys conf (dbSlotCron hash conf child rounds s.mod.slots) j ↔ _
    rw [hm.keys]
    simp

end

/-! ### Workers -/

/-- What a worker may have left to do: it notifies of a key right after restoring it. -/
inductive Restoring : Act Int → Prop where
  | done (r : Int) : Restoring (.ret r)
  | restore (key : Bytes) (ttlms : Int64) (val : Bytes) {k : Reply → Act Int} {next : Unit → Act Int}
      (refused : ∀ r, r = .null ∨ r = .nil ∨ r = .error → Restoring (k r))
      (restored : ∀ r, r ≠ .null → r ≠ .nil → r ≠ .error → k r = .call (.notifyOne key) next)
      (rest : Restoring (next ())) : Restoring (.call (.restore key ttlms val) k)
  | notify (key : Bytes) {k : Unit → Act Int} (rest : Restoring (k ())) : Restoring (.call (.notifyOne key) k)

theorem restoring_restoreAll {objs : List DumpObj} (hnul : ∀ obj ∈ objs, NulFree obj.key) {f : Bool → Act Int}
    (hf : ∀ b, Restoring (f b)) : Restoring (restoreAll objs >>= f) := by
  induction objs with
  | nil => exact hf true
  | cons obj objs ih =>
    obtain ⟨hobj, hrest⟩ := List.forall_mem_cons.mp hnul
    have hnext := ih hrest
    rw [restoreAll, restoreOneWithReplace, cString_of_nulFree hobj]
    refine @Restoring.restore obj.key _ obj.val _ (fun _ => restoreAll objs >>= f) (fun r hr => ?_)
      (fun r hnull hnil herror => ?_) hnext
    · rcases hr with rfl | rfl | rfl
      · exact hnext
      · exact hnext
      · exact hf false
    · cases r with
      | null => exact absurd rfl hnull
      | nil => exact absurd rfl hnil
      | error => exact absurd rfl herror
      | _ => rfl

theorem restoring_slotsRestoreCmd {argv : List Bytes}
    (hnul : ∀ objs, decodeTriples argv.tail = some objs → ∀ obj ∈ objs, NulFree obj.key) :
    Restoring (slotsRestoreCmd argv) := by
  rw [slotsRestoreCmd]
  cases hdec : decodeTriples argv.tail with
  | none => exact .done _
  | some objs =>
    refine restoring_restoreAll (hnul objs hdec) fun b => ?_
    cases b <;> exact .done _

/-! ### Runs -/

/-- Nothing is indexed that is not there, and what is there and not indexed is with a worker. -/
structure AsyncTarget.Tracked (hash : Bytes → Nat) (conf : SlotsMetaInfo) (t : AsyncTarget conf.databases) : Prop where
  quiet : t.server.mod.Quiet hash conf
  indexed : ∀ (db : Fin conf.databases) key, key ∈ t.server.mod.slots.keys conf db → t.server.keyspace db key = true
  pending : ∀ (db : Fin conf.databases) key, t.server.keyspace db key = true → key ∉ t.server.mod.slots.keys conf db →
    ∃ w ∈ t.workers, w.db = db ∧ w.Restored key
  restoring : ∀ w ∈ t.workers, Restoring w.todo

theorem mem_of_mem_middle {α : Type} {pre post : List α} {x w : α} (h : w ∈ pre ++ x :: post) :
    w = x ∨ ∀ y, w ∈ pre ++ y :: post := by
  rcases List.mem_append.mp h with hpre | hmid
  · exact .inr fun y => List.mem_append_left _ hpre
  · rcases List.mem_cons.mp hmid with rfl | hpost
    · exact .inl rfl
    · exact .inr fun y => List.mem_append_right _ (List.mem_cons_of_mem _ hpost)

theorem forall_mem_middle {α : Type} {p : α → Prop} {pre post : List α} {x y : α}
    (h : ∀ w ∈ pre ++ x :: post, p w) (hy : p y) : ∀ w ∈ pre ++ y :: post, p w := by
  intro w hw
  rcases mem_of_mem_middle hw with rfl | hother
  · exact hy
  · exact h w (hother x)

namespace AsyncTarget
variable {t t' : AsyncTarget conf.databases}

theorem tracked_init : (init conf.databases).Tracked hash conf where
  quiet := quiet_init
  indexed db key h := ((Server.inSync_iff.mp inSync_init) db key).mp h
  pending db key h := by cases h
  restoring := nofun

theorem Tracked.command {s : Server conf.databases} {workers : List (Worker conf.databases)}
    (h : Tracked hash conf ⟨s, workers⟩) {c : Command conf.databases} (hc : c.handled = true) (draws : Nat) :
    Tracked hash conf ⟨s.step hash conf c draws, workers⟩ := by
  obtain ⟨hquiet, gone, added, hsame⟩ := handled_step h.quiet hc draws
  refine ⟨hquiet, fun db key hin => ?_, fun db key hthere hout => ?_, h.restoring⟩
  · rw [(hsame db key).1]
    exact ((hsame db key).2.mp hin).imp_right fun ⟨hgone, hin⟩ => ⟨hgone, h.indexed db key hin⟩
  · rcases (hsame db key).1.mp hthere with hadded | ⟨hgone, hthere⟩
    · exact absurd ((hsame db key).2.mpr (.inl hadded)) hout
    · exact h.pending db key hthere fun hin => hout ((hsame db key).2.mpr (.inr ⟨hgone, hin⟩))

/-- What a worker does next leaves the keys of the others with them. -/
theorem Tracked.work {s s' : Server conf.databases} {pre post : List (Worker conf.databases)} {db : Fin conf.databases}
    {c : Call} {k : Answer c → Act Int} {a : Answer c} (h : Tracked hash conf ⟨s, pre ++ ⟨db, .call c k⟩ :: post⟩)
    (hserves : Serves hash conf s db c a s') : Tracked hash conf ⟨s', pre ++ ⟨db, k a⟩ :: post⟩ := by
  have htodo : Restoring (.call c k) := h.restoring ⟨db, .call c k⟩ (by simp)
  cases hserves with
  | restored key ttlms val r draws hnull hnil herror =>
    cases htodo with
    | restore _ _ _ refused restored rest =>
      have hnext := restored r hnull hnil herror
      rw [notify_restore h.quiet.flag]
      refine ⟨h.quiet, fun i k' hin => ?_, fun i k' hthere hout => ?_, forall_mem_middle h.restoring (hnext ▸ .notify key rest)⟩
      · rw [Keys.set_eq_true_iff]
        by_cases hkey : i = db ∧ k' = key
        · exact .inl ⟨hkey.1, hkey.2, rfl⟩
        · exact .inr ⟨hkey, h.indexed i k' hin⟩
      · rcases (Keys.set_eq_true_iff ..).mp hthere with ⟨rfl, rfl, -⟩ | ⟨-, hthere⟩
        -- The key restored is this worker's now.
        · exact ⟨⟨i, k r⟩, by simp, rfl, _, hnext⟩
        · obtain ⟨w, hw, hdb, hrestored⟩ := h.pending i k' hthere hout
          rcases mem_of_mem_middle hw with rfl | hother
          · obtain ⟨_, heq⟩ := hrestored
            cases heq
          · exact ⟨w, hother _, hdb, hrestored⟩
  | refused key ttlms val r hrefused =>
    cases htodo with
    | restore _ _ _ refused restored rest =>
      refine ⟨h.quiet, h.indexed, fun i k' hthere hout => ?_, forall_mem_middle h.restoring (refused r hrefused)⟩
      obtain ⟨w, hw, hdb, hrestored⟩ := h.pending i k' hthere hout
      rcases mem_of_mem_middle hw with rfl | hother
      · obtain ⟨_, heq⟩ := hrestored
        cases heq
      · exact ⟨w, hother _, hdb, hrestored⟩
  | notified key type draws hkey =>
    cases htodo with
    | notify _ rest =>
      rw [notify_type]
      obtain ⟨hwf, hkeys⟩ := keys_slotsAdd h.quiet.wf db key draws
      refine ⟨⟨hwf, h.quiet.flag⟩, fun i k' hin => ?_, fun i k' hthere hout => ?_, forall_mem_middle h.restoring rest⟩
      · rcases (hkeys i k').mp hin with ⟨hi, rfl⟩ | hin
        · exact Fin.val_inj.mp hi ▸ hkey
        · exact h.indexed i k' hin
      · rw [hkeys, not_or] at hout
        obtain ⟨w, hw, hdb, hrestored⟩ := h.pending i k' hthere hout.2
        rcases mem_of_mem_middle hw with rfl | hother
        -- The key of this worker is indexed now.
        · obtain ⟨_, heq⟩ := hrestored
          cases heq
          exact absurd ⟨congrArg Fin.val hdb.symm, rfl⟩ hout.1
        · exact ⟨w, hother _, hdb, hrestored⟩
  | missing key hkey =>
    cases htodo with
    | notify _ rest =>
      refine ⟨h.quiet, h.indexed, fun i k' hthere hout => ?_, forall_mem_middle h.restoring rest⟩
      obtain ⟨w, hw, hdb, hrestored⟩ := h.pending i k' hthere hout
      rcases mem_of_mem_middle hw with rfl | hother
      -- The key of this worker is gone.
      · obtain ⟨_, heq⟩ := hrestored
        cases heq
        subst hdb
        rw [hkey] at hthere
        cases hthere
      · exact ⟨w, hother _, hdb, hrestored⟩

theorem Tracked.step (h : t.Tracked hash conf) (hstep : Step hash conf t t') : t'.Tracked hash conf := by
  cases hstep with
  | command s workers c draws hc => exact h.command hc draws
  | start s workers db argv hnul =>
    refine ⟨h.quiet, h.indexed, fun i key hthere hout => ?_, fun w hw => ?_⟩
    · obtain ⟨w, hw, hrest⟩ := h.pending i key hthere hout
      exact ⟨w, List.mem_append_left _ hw, hrest⟩
    · rcases List.mem_append.mp hw with hw | hw
      · exact h.restoring w hw
      · cases List.mem_singleton.mp hw
        exact restoring_slotsRestoreCmd hnul
  | work s s' pre post db c k a hserves => exact h.work hserves

theorem Reachable.tracked (h : t.Reachable hash conf) : t.Tracked hash conf := by
  induction h with
  | refl => exact tracked_init
  | tail _ hstep ih => exact ih.step hstep

/-- **Restoring while clients go on leaves no key out of the index.** In every reachable state an
indexed key is there, and a key that is there and not indexed is one that a worker has
restored and not notified of; so when all workers are done the index is the keyspace. -/
theorem async_restore_covers (hash : Bytes → Nat) (conf : SlotsMetaInfo) {t : AsyncTarget conf.databases}
    (h : t.Reachable hash conf) :
    (∀ (db : Fin conf.databases) key, key ∈ t.server.mod.slots.keys conf db → t.server.keyspace db key = true) ∧
    (∀ (db : Fin conf.databases) key, t.server.keyspace db key = true → key ∉ t.server.mod.slots.keys conf db →
      ∃ w ∈ t.workers, w.db = db ∧ w.Restored key) ∧
    ((∀ w ∈ t.workers, w.Finished) → t.server.InSync) := by
  have ht := h.tracked
  refine ⟨ht.indexed, ht.pending, fun hfinished => Server.inSync_iff.mpr fun db key => ⟨ht.indexed db key, fun hthere => ?_⟩⟩
  by_contra hout
  obtain ⟨w, hw, -, k, hcall⟩ := ht.pending db key hthere hout
  obtain ⟨r, hret⟩ := hfinished w hw
  rw [hcall] at hret
  cases hret

/-- A SLOTSRESTORE of one key, without a TTL. -/
def restoreOne : List Bytes := [[], [97], [48], [118]]

/-- It has restored the key, and the rest is to come. -/
theorem reachable_gap : ∃ k, Reachable (fun _ => 0) conf16
    ⟨⟨(Server.init conf16.databases).keyspace.set ⟨0, by decide⟩ [97] true, .init⟩,
      [⟨⟨0, by decide⟩, .call (.notifyOne [97]) k⟩]⟩ := by
  have hdec : decodeTriples restoreOne.tail = some [⟨[97], [118], 0⟩] := by decide
  have htodo : ∃ k, slotsRestoreCmd restoreOne = .call (.restore [97] 0 [118]) k ∧
      ∃ k', k (.string []) = .call (.notifyOne [97]) k' := by
    rw [slotsRestoreCmd, hdec]
    exact ⟨_, rfl, _, rfl⟩
  obtain ⟨k, hcmd, k', hk⟩ := htodo
  have hstart : Step (fun _ => 0) conf16 (init _) ⟨.init _, [⟨⟨0, by decide⟩, slotsRestoreCmd restoreOne⟩]⟩ :=
    .start _ _ _ _ (by
      rw [hdec]
      rintro objs ⟨⟩
      decide)
  have hserves : Serves (fun _ => 0) conf16 (Server.init _) ⟨0, by decide⟩ (.restore [97] 0 [118]) (.string []) _ :=
    .restored [97] 0 [118] (.string []) 0 nofun nofun nofun
  have hwork := Step.work _ _ [] [] _ _ k _ hserves
  rw [hk, notify_restore rfl] at hwork
  rw [hcmd] at hstart
  exact ⟨k', .tail (.single hstart) hwork⟩

theorem async_restore_covers_gap : ∃ t : AsyncTarget conf16.databases, t.server.keyspace ⟨0, by decide⟩ [97] = true ∧
    [97] ∉ t.server.mod.slots.keys conf16 0 ∧ ∃ w ∈ t.workers, w.db = ⟨0, by decide⟩ ∧ w.Restored [97] := by
  obtain ⟨k, hreach⟩ := reachable_gap
  have hthere : (Server.init conf16.databases).keyspace.set ⟨0, by decide⟩ [97] true ⟨0, by decide⟩ [97] = true := by
    rw [Keys.set_eq_true_iff]
    exact .inl ⟨rfl, rfl, rfl⟩
  have hout : [97] ∉ ModuleState.init.slots.keys conf16 0 := by rintro ⟨⟩
  exact ⟨_, hthere, hout, (async_restore_covers (fun _ => 0) conf16 hreach).2.1 ⟨0, by decide⟩ [97] hthere hout⟩

end AsyncTarget
end RedisXSlot
