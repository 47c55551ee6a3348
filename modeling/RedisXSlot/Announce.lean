import RedisXSlot.Acknowledged
import RedisXSlot.Workers

/-! Which of the keys it restores a target takes into its index.

RESTORE itself raises an event that the module makes nothing of, so `notifyOne` looks at the
type of what has been restored and raises the event of that type. It does so for five
types; a stream or the value of another module can be dumped, sent and restored too
(`restored_indexed_iff`). -/
namespace RedisXSlot
open Interaction

/-- The types of the values that DUMP and RESTORE know. -/
inductive ValueType where
  | basic (type : KeyType)
  | stream
  | module

/-- Redis with the types of its values, and the module in it. -/
structure TypedServer (databases : Nat) where
  keyspace : Fin databases → Bytes → Option ValueType
  mod : ModuleState

/-- The key is restored in the trace: RESTORE is executed for it. -/
def RestoredIn (t : Trace) (key : Bytes) : Prop :=
  ∃ ttlms val status, (⟨.restore key ttlms val, Reply.string status⟩ : Event) ∈ t

/-- It is restored with a value of one of the five types; `payload` is the type of what a payload holds. -/
def RestoredBasic (payload : Bytes → Option ValueType) (t : Trace) (key : Bytes) : Prop :=
  ∃ ttlms val status type, (⟨.restore key ttlms val, Reply.string status⟩ : Event) ∈ t ∧ payload val = some (.basic type)

/-- The key is in the table of its slot, and among the tagged keys if it has a tag. -/
def Slots.Indexed (conf : SlotsMetaInfo) (s : Slots) (db : Nat) (key : Bytes) : Prop :=
  key ∈ (s.table db (slotsNum conf.hash_slots_size key)).keys ∧
    (hasTag key = true → ∃ items, (s.db_slot_infos db).tagged_key_list.Represents items ∧ tagItem key ∈ items)

section Hash
variable (hash : Bytes → Nat) (conf : SlotsMetaInfo)

/-- `notifyOne`, for a key that is there. -/
def ValueType.notifyOne (db : Nat) (key : Bytes) (draws : Nat) (m : ModuleState) : ValueType → ModuleState
  | .basic type => notify hash conf draws m ⟨type.notify, "slotsmgrt-restore", db, key⟩
  -- todo: a type from outside needs an event that somebody is subscribed to.
  | .stream | .module => m

namespace TypedServer

def setKey {databases : Nat} (s : TypedServer databases) (db : Fin databases) (key : Bytes) (v : Option ValueType) :
    Fin databases → Bytes → Option ValueType := fun d k => if d = db ∧ k = key then v else s.keyspace d k

/-- What the server makes of a call of SLOTSRESTORE. Redis takes the time once for a command, so
no key expires within it. -/
inductive Answers (payload : Bytes → Option ValueType) (db : Fin conf.databases) (s : TypedServer conf.databases) :
    Event → TypedServer conf.databases → Prop where
  | restored (key : Bytes) (ttlms : Int64) (val status : Bytes) (type : ValueType) (draws : Nat) : payload val = some type →
      Answers payload db s ⟨.restore key ttlms val, Reply.string status⟩
        ⟨s.setKey db key (some type), notify hash conf draws s.mod ⟨.generic, "restore", db, key⟩⟩
  /-- An error reply, a null one, or none. -/
  | refused (key : Bytes) (ttlms : Int64) (val : Bytes) (r : Reply) : r = .error ∨ r = .nil ∨ r = .null →
      Answers payload db s ⟨.restore key ttlms val, r⟩ s
  | found (key : Bytes) (type : ValueType) (draws : Nat) : s.keyspace db key = some type →
      Answers payload db s ⟨.notifyOne key, ()⟩ ⟨s.keyspace, type.notifyOne hash conf db key draws s.mod⟩
  | missing (key : Bytes) : s.keyspace db key = none → Answers payload db s ⟨.notifyOne key, ()⟩ s

/-- A key expires. -/
def expire (s : TypedServer conf.databases) (e : Fin conf.databases × Bytes) : TypedServer conf.databases :=
  if (s.keyspace e.1 e.2).isSome then
    ⟨s.setKey e.1 e.2 none, notify hash conf 0 s.mod ⟨.expired, "expired", e.1, e.2⟩⟩
  else s

/-- Whatever expires, the keys that are restored in the trace and still there are indexed. -/
def KeepsIndexed (db : Fin conf.databases) (t : Trace) (s : TypedServer conf.databases) : Prop :=
  ∀ expired : List (Fin conf.databases × Bytes), ∀ key, RestoredIn t key →
    ((expired.foldl (expire hash conf) s).keyspace db key).isSome →
      (expired.foldl (expire hash conf) s).mod.slots.Indexed conf db key

end TypedServer
end Hash

variable {hash : Bytes → Nat} {conf : SlotsMetaInfo}

/-- In a well-formed index a key that is in its table is in everything. -/
theorem Slots.Wf.indexed_iff {s : Slots} (h : s.Wf hash conf) (db : Nat) (key : Bytes) :
    s.Indexed conf db key ↔ key ∈ s.keys conf db := by
  constructor
  · exact fun hin => hin.1
  · intro hin
    obtain ⟨items, hz, hitems⟩ := (h db).tagged
    exact ⟨hin, fun htag => ⟨items, hz, (hitems _).mpr ⟨htag, rfl, hin⟩⟩⟩

theorem RestoredIn.append {t t' : Trace} {key : Bytes} :
    RestoredIn (t ++ t') key ↔ RestoredIn t key ∨ RestoredIn t' key := by
  simp only [RestoredIn, List.mem_append, exists_or]

theorem RestoredBasic.append {payload : Bytes → Option ValueType} {t t' : Trace} {key : Bytes} :
    RestoredBasic payload (t ++ t') key ↔ RestoredBasic payload t key ∨ RestoredBasic payload t' key := by
  simp only [RestoredBasic, List.mem_append, or_and_right, exists_or]

namespace TypedServer
variable {s s' m : TypedServer conf.databases} {db : Fin conf.databases} {payload : Bytes → Option ValueType} {t t' : Trace}

/-! ### The command -/

/-- What a part of a SLOTSRESTORE does: the keys it restores are there, and those of the five
types go into the index. -/
structure Announces (hash : Bytes → Nat) (conf : SlotsMetaInfo) (payload : Bytes → Option ValueType) (db : Fin conf.databases)
    (t : Trace) (s s' : TypedServer conf.databases) : Prop where
  quiet : s'.mod.Quiet hash conf
  present : ∀ key, RestoredIn t key ∨ (s.keyspace db key).isSome → (s'.keyspace db key).isSome
  index : ∀ key, key ∈ s'.mod.slots.keys conf db ↔ key ∈ s.mod.slots.keys conf db ∨ RestoredBasic payload t key

theorem Announces.nil (hq : s.mod.Quiet hash conf) : Announces hash conf payload db [] s s where
  quiet := hq
  present _ h := h.resolve_left fun ⟨_, _, _, hmem⟩ => List.not_mem_nil hmem
  index _ := (or_iff_left fun ⟨_, _, _, _, hmem, _⟩ => List.not_mem_nil hmem).symm

theorem Announces.append (h : Announces hash conf payload db t s m) (h' : Announces hash conf payload db t' m s') :
    Announces hash conf payload db (t ++ t') s s' where
  quiet := h'.quiet
  present key hkey := by
    rw [RestoredIn.append, or_comm (a := RestoredIn t key), or_assoc] at hkey
    exact h'.present key (hkey.imp_right (h.present key))
  index key := by rw [h'.index, h.index, RestoredBasic.append, or_assoc]

theorem setKey_apply (s : TypedServer conf.databases) (db d : Fin conf.databases) (key k : Bytes) (v : Option ValueType) :
    s.setKey db key v d k = if d = db ∧ k = key then v else s.keyspace d k := rfl

theorem setKey_self {key : Bytes} {v : Option ValueType} : s.setKey db key v db key = v := if_pos ⟨rfl, rfl⟩

/-- A RESTORE that is not executed. -/
theorem Announces.refused (hq : s.mod.Quiet hash conf) {key : Bytes} {ttlms : Int64} {val : Bytes} {r : Reply}
    (hr : ∀ status, r ≠ .string status) : Announces hash conf payload db [⟨.restore key ttlms val, r⟩] s s := by
  have hnone (key' : Bytes) : ¬ RestoredIn [⟨.restore key ttlms val, r⟩] key' := by
    rintro ⟨ttlms', val', status, hmem⟩
    cases List.mem_singleton.mp hmem
    exact hr status rfl
  refine ⟨hq, fun key' h => h.resolve_left (hnone key'), fun key' => (or_iff_left ?_).symm⟩
  rintro ⟨ttlms', val', status, type, hmem, -⟩
  exact hnone key' ⟨ttlms', val', status, hmem⟩

/-- A RESTORE that is executed, and the notification. -/
theorem Announces.restored (hq : s.mod.Quiet hash conf) (key : Bytes) (ttlms : Int64) {val : Bytes} (status : Bytes)
    {type : ValueType} (htype : payload val = some type) (draws : Nat) :
    Announces hash conf payload db [⟨.restore key ttlms val, Reply.string status⟩, ⟨.notifyOne key, ()⟩] s
      ⟨s.setKey db key (some type), type.notifyOne hash conf db key draws s.mod⟩ := by
  have hone {ttlms' : Int64} {key' val' status' : Bytes} (hmem : (⟨.restore key' ttlms' val', Reply.string status'⟩ : Event) ∈
      [⟨.restore key ttlms val, Reply.string status⟩, ⟨.notifyOne key, ()⟩]) : key' = key ∧ val' = val := by
    rcases List.mem_cons.mp hmem with h | h
    · cases h
      exact ⟨rfl, rfl⟩
    · cases List.mem_singleton.mp h
  have hpresent (key' : Bytes) (h : RestoredIn [⟨.restore key ttlms val, Reply.string status⟩, ⟨.notifyOne key, ()⟩] key' ∨
      (s.keyspace db key').isSome) : (s.setKey db key (some type) db key').isSome := by
    rw [setKey_apply]
    split
    next => rfl
    next hne =>
      refine h.resolve_left ?_
      rintro ⟨ttlms', val', status', hmem⟩
      exact hne ⟨rfl, (hone hmem).1⟩
  cases type with
  | basic type =>
    have hbasic (key' : Bytes) : RestoredBasic payload
        [⟨.restore key ttlms val, Reply.string status⟩, ⟨.notifyOne key, ()⟩] key' ↔ key' = key := by
      constructor
      · rintro ⟨ttlms', val', status', type', hmem, -⟩
        exact (hone hmem).1
      · rintro rfl
        exact ⟨ttlms, val, status, type, List.mem_cons_self, htype⟩
    rw [ValueType.notifyOne, notify_type]
    obtain ⟨hwf, hkeys⟩ := keys_slotsAdd hq.wf db key draws
    refine ⟨⟨hwf, hq.flag⟩, hpresent, fun key' => ?_⟩
    rw [hkeys, hbasic, or_comm, and_iff_right rfl]
  | stream | module =>
    refine ⟨hq, hpresent, fun key' => (or_iff_left ?_).symm⟩
    rintro ⟨ttlms', val', status', type', hmem, hpayload⟩
    rw [(hone hmem).2, htype] at hpayload
    cases hpayload

/-- One triple. -/
theorem restoreOneWithReplace_announces {obj : DumpObj} (hnul : NulFree obj.key) :
    Spec (restoreOneWithReplace obj) fun t _ => ∀ s s' : TypedServer conf.databases, s.mod.Quiet hash conf →
      Path (Answers hash conf payload db) s t s' → Announces hash conf payload db t s s' := by
  unfold restoreOneWithReplace
  dsimp only
  rw [cString_of_nulFree hnul, Prog.perform_bind]
  refine .call fun (a : Reply) => ?_
  cases a with
  | null | nil | error =>
    refine .ret fun s s' hq hpath => ?_
    obtain ⟨m, hstep, rfl⟩ := hpath
    cases hstep with
    | refused => exact .refused hq nofun
  | integer n | other =>
    refine .call fun u => .ret fun s s' hq hpath => ?_
    obtain ⟨m, hstep, -⟩ := hpath
    cases hstep with
    | refused _ _ _ _ hr => rcases hr with h | h | h <;> cases h
  | string status =>
    refine .call fun u => .ret fun s s' hq hpath => ?_
    obtain ⟨m, hstep, s₁, hnotify, rfl⟩ := hpath
    cases hstep with
    | refused _ _ _ _ hr => rcases hr with h | h | h <;> cases h
    | restored _ _ _ _ type draws htype =>
      rw [notify_restore hq.flag] at hnotify
      cases hnotify with
      | missing _ hmissing => cases setKey_self.symm.trans hmissing
      | found _ type' draws' hfound =>
        obtain rfl : type = type' := Option.some.inj (setKey_self.symm.trans hfound)
        exact .restored hq obj.key _ status htype draws'

theorem restoreAll_announces {objs : List DumpObj} (hnul : ∀ obj ∈ objs, NulFree obj.key) :
    Spec (restoreAll objs) fun t _ => ∀ s s' : TypedServer conf.databases, s.mod.Quiet hash conf →
      Path (Answers hash conf payload db) s t s' → Announces hash conf payload db t s s' := by
  induction objs with
  | nil =>
    refine .ret fun s s' hq hpath => ?_
    cases hpath
    exact .nil hq
  | cons obj objs ih =>
    obtain ⟨hobj, hobjs⟩ := List.forall_mem_cons.mp hnul
    unfold restoreAll
    apply (restoreOneWithReplace_announces hobj).bind
    intro t r hone
    split
    next =>
      rw [Prog.pure_eq]
      exact .ret (by simpa using hone)
    next =>
      apply (ih hobjs).mono
      intro t' ok hall s s' hq hpath
      obtain ⟨m, hpath, hrest⟩ := path_append.mp hpath
      have hfirst := hone s m hq hpath
      exact hfirst.append (hall m s' hfirst.quiet hrest)

/-- The command without its reply. -/
theorem slotsRestoreCmd_announces {argv : List Bytes}
    (hnul : ∀ objs, decodeTriples argv.tail = some objs → ∀ obj ∈ objs, NulFree obj.key) (hq : s.mod.Quiet hash conf)
    {r : Int} (hrun : Runs (slotsRestoreCmd argv) t (some r)) (hpath : Path (Answers hash conf payload db) s t s') :
    Announces hash conf payload db t s s' := by
  unfold slotsRestoreCmd at hrun
  cases hdec : decodeTriples argv.tail with
  | none =>
    rw [hdec] at hrun
    obtain ⟨rfl, -⟩ := Runs.ret_iff.mp hrun
    cases hpath
    exact .nil hq
  | some objs =>
    rw [hdec] at hrun
    obtain ⟨ok, t₁, t₂, rfl, hall, hok⟩ := Runs.of_bind hrun
    have ht₂ : t₂ = [] := by
      split at hok
      next => exact (Runs.ret_iff.mp hok).1
      next => exact (Runs.ret_iff.mp hok).1
    rw [ht₂, List.append_nil] at hpath ⊢
    exact (restoreAll_announces (hnul objs hdec)).of_runs hall s s' hq hpath

/-- **A SLOTSRESTORE announces the keys of the five types.** -/
theorem slotsRestoreRedisCommand_announces {argv : List Bytes}
    (hnul : ∀ objs, decodeTriples argv.tail = some objs → ∀ obj ∈ objs, NulFree obj.key) (hq : s.mod.Quiet hash conf)
    {reply : ClientReply} (hrun : Runs (slotsRestoreRedisCommand false argv) t (some reply))
    (hpath : Path (Answers hash conf payload db) s t s') : Announces hash conf payload db t s s' := by
  unfold slotsRestoreRedisCommand at hrun
  rw [if_neg Bool.false_ne_true] at hrun
  split at hrun
  next =>
    obtain ⟨rfl, -⟩ := Runs.ret_iff.mp hrun
    cases hpath
    exact .nil hq
  next =>
    obtain ⟨r, t₁, t₂, rfl, hcmd, hret⟩ := Runs.of_bind hrun
    have ht₂ : t₂ = [] := by
      split at hret
      next => exact (Runs.ret_iff.mp hret).1
      next => exact (Runs.ret_iff.mp hret).1
    rw [ht₂, List.append_nil] at hpath ⊢
    exact slotsRestoreCmd_announces hnul hq hcmd hpath

/-! ### Expiry -/

theorem expire_spec (hq : s.mod.Quiet hash conf) (e : Fin conf.databases × Bytes) :
    (s.expire hash conf e).mod.Quiet hash conf ∧ ∀ key, ((s.expire hash conf e).keyspace db key).isSome →
      key ∈ s.mod.slots.keys conf db → key ∈ (s.expire hash conf e).mod.slots.keys conf db := by
  rw [expire]
  split
  next =>
    rw [notify_expired]
    obtain ⟨hwf, hkeys⟩ := keys_slotsDel hq.wf e.1 e.2
    refine ⟨⟨hwf, hq.flag⟩, fun key hthere hin => (hkeys db key).mpr ⟨fun heq => ?_, hin⟩⟩
    dsimp only at hthere
    rw [setKey_apply, if_pos ⟨Fin.ext heq.1, heq.2⟩] at hthere
    cases hthere
  next => exact ⟨hq, fun key _ hin => hin⟩

theorem isSome_of_expire {e : Fin conf.databases × Bytes} {key : Bytes} (h : ((s.expire hash conf e).keyspace db key).isSome) :
    (s.keyspace db key).isSome := by
  rw [expire] at h
  split at h
  next =>
    dsimp only at h
    rw [setKey_apply] at h
    split at h
    next => cases h
    next => exact h
  next => exact h

/-- What is indexed stays so until it expires. -/
theorem keepsIndexed_iff (hq : s.mod.Quiet hash conf) (t : Trace) : s.KeepsIndexed hash conf db t ↔
    ∀ key, RestoredIn t key → (s.keyspace db key).isSome → key ∈ s.mod.slots.keys conf db := by
  constructor
  · intro h key hres hthere
    exact (hq.wf.indexed_iff db key).mp (h [] key hres hthere)
  · intro h expired
    induction expired generalizing s with
    | nil => exact fun key hres hthere => (hq.wf.indexed_iff db key).mpr (h key hres hthere)
    | cons e expired ih =>
      obtain ⟨hq', hkeep⟩ := expire_spec hq e
      exact ih hq' fun key hres hthere => hkeep key hthere (h key hres (isSome_of_expire hthere))

end TypedServer

/-- **When every restored key is indexed**: if each key that is restored was in the index before, or
is restored with a value of one of the five types. -/
theorem restored_indexed_iff {s s' : TypedServer conf.databases} {db : Fin conf.databases} {payload : Bytes → Option ValueType}
    (hq : s.mod.Quiet hash conf) {argv : List Bytes}
    (hnul : ∀ objs, decodeTriples argv.tail = some objs → ∀ obj ∈ objs, NulFree obj.key) {t : Trace} {n : Int}
    (hrun : Runs (slotsRestoreRedisCommand false argv) t (some (.integer n)))
    (hpath : Path (TypedServer.Answers hash conf payload db) s t s') :
    s'.KeepsIndexed hash conf db t ↔
      ∀ key, RestoredIn t key → key ∈ s.mod.slots.keys conf db ∨ RestoredBasic payload t key := by
  have h := TypedServer.slotsRestoreRedisCommand_announces hnul hq hrun hpath
  rw [TypedServer.keepsIndexed_iff h.quiet]
  refine forall_congr' fun key => forall_congr' fun hres => ?_
  rw [forall_prop_of_true (h.present key (.inl hres)), h.index]

/-- An empty server that has executed SLOTSRESTORE of one key with a value of the type. -/
def restoredServer (type : ValueType) : TypedServer conf16.databases :=
  ⟨TypedServer.setKey ⟨fun _ _ => none, .init⟩ ⟨0, by decide⟩ [97] (some type),
    type.notifyOne (fun _ => 0) conf16 0 [97] 0 .init⟩

theorem path_restoredServer (type : ValueType) : Path (TypedServer.Answers (fun _ => 0) conf16 (fun _ => some type) ⟨0, by decide⟩)
    ⟨fun _ _ => none, .init⟩ executed (restoredServer type) := by
  have hrestored := @TypedServer.Answers.restored (fun _ => 0) conf16 (fun _ => some type) ⟨0, by decide⟩
    ⟨fun _ _ => none, .init⟩ [97] 0 [1] [79, 75] type 0 rfl
  rw [notify_restore rfl] at hrestored
  exact ⟨_, hrestored, _, .found [97] type 0 rfl, rfl⟩

theorem runs_oneTriple : Runs (slotsRestoreRedisCommand false oneTriple) executed (some (.integer 1)) :=
  .call _ (.call _ (.ret _))

theorem nulFree_oneTriple (objs : List DumpObj) (h : decodeTriples oneTriple.tail = some objs) :
    ∀ obj ∈ objs, NulFree obj.key := by
  obtain rfl : [⟨[97], [1], 0⟩] = objs := Option.some.inj h
  exact List.forall_mem_singleton.mpr (by decide)

/-- A string. -/
theorem restored_indexed_iff_string : (restoredServer (.basic .string)).KeepsIndexed (fun _ => 0) conf16 ⟨0, by decide⟩ executed ↔
    ∀ key, RestoredIn executed key → key ∈ ModuleState.init.slots.keys conf16 0 ∨
      RestoredBasic (fun _ => some (.basic .string)) executed key :=
  restored_indexed_iff quiet_init nulFree_oneTriple runs_oneTriple (path_restoredServer (.basic .string))

/-- A stream is restored, SLOTSRESTORE replies with 1, and the index does not know of it. -/
theorem not_restored_indexed : ∃ s' : TypedServer conf16.databases,
    Runs (slotsRestoreRedisCommand false oneTriple) executed (some (.integer 1)) ∧
    Path (TypedServer.Answers (fun _ => 0) conf16 (fun _ => some .stream) ⟨0, by decide⟩) ⟨fun _ _ => none, .init⟩ executed s' ∧
    ¬ s'.KeepsIndexed (fun _ => 0) conf16 ⟨0, by decide⟩ executed := by
  refine ⟨_, runs_oneTriple, path_restoredServer .stream, fun h => ?_⟩
  have hin := (h [] [97] ⟨0, [1], [79, 75], List.mem_cons_self⟩ rfl).1
  exact List.not_mem_nil hin

end RedisXSlot
