import RedisXSlot.Dict
import RedisXSlot.Skiplist
import RedisXSlot.Slot

/-! The slot index: which keys of each database are in which slot.

Every database has a dictionary per slot and one skiplist of all its tagged keys. Keys
enter and leave one at a time, a flush empties a database or all of them, and the cron
resizes and rehashes the dictionaries. The hash function of the dictionaries is seeded at
start and is any function `hash` here. -/
namespace RedisXSlot

def CRON_DBS_PER_CALL : Nat := 16
def CRON_DB_SLOTS_PER_CALL : Nat := 1024
def HASHTABLE_MIN_FILL : Nat := 10

def MAX_HASH_SLOTS_MASK : Nat := 0x0000ffff
def MAX_HASH_SLOTS_SIZE : Nat := MAX_HASH_SLOTS_MASK + 1

/-- `slots_meta_info`, as `redisModule_SlotsInit` lets it pass. -/
structure SlotsMetaInfo where
  hash_slots_size : UInt32
  databases : Nat
  activerehashing : Bool
  size_pos : 0 < hash_slots_size.toNat

/-- The other check of `redisModule_SlotsInit`, which few of the results need. -/
def SlotsMetaInfo.Accepted (conf : SlotsMetaInfo) : Prop := conf.hash_slots_size.toNat ≤ MAX_HASH_SLOTS_SIZE

/-- `db_slot_info`. The value of a key is the text of its checksum, which nothing reads. -/
structure DbSlotInfo where
  slotkey_tables : Nat → Dict Bytes UInt32
  tagged_key_list : Skiplist

def DbSlotInfo.setTable (info : DbSlotInfo) (slot : Nat) (d : Dict Bytes UInt32) : DbSlotInfo :=
  { info with slotkey_tables := Function.update info.slotkey_tables slot d }

/-- `db_slot_infos` and the static counters of `dbSlotCron`. -/
structure Slots where
  db_slot_infos : Nat → DbSlotInfo
  resize_db : Nat
  resize_db_slot : Nat
  rehash_db : Nat

namespace Slots

def table (s : Slots) (db slot : Nat) : Dict Bytes UInt32 := (s.db_slot_infos db).slotkey_tables slot

def setInfo (s : Slots) (db : Nat) (info : DbSlotInfo) : Slots :=
  { s with db_slot_infos := Function.update s.db_slot_infos db info }

def setTable (s : Slots) (db slot : Nat) (d : Dict Bytes UInt32) : Slots :=
  s.setInfo db ((s.db_slot_infos db).setTable slot d)

end Slots

/-- `Slots_Init`. -/
def slotsInit : Slots := ⟨fun _ => ⟨fun _ => .create, .create⟩, 0, 0, 0⟩

section Hash
variable (hash : Bytes → Nat) (conf : SlotsMetaInfo)

/-- `Slots_Add`; a new node of the skiplist draws its level. -/
def slotsAdd (s : Slots) (db : Nat) (key : Bytes) (draws : Nat) : Slots :=
  let slot := slotsNum conf.hash_slots_size key
  let info := s.db_slot_infos db
  match (info.slotkey_tables slot).add hash key (slotsCrc key) with
  | (d, r) =>
    let info := info.setTable slot d
    if r ∧ hasTag key then
      s.setInfo db { info with tagged_key_list := info.tagged_key_list.insert (slotsCrc key).toNat key draws }
    else s.setInfo db info

/-- `Slots_Del`. -/
def slotsDel (s : Slots) (db : Nat) (key : Bytes) : Slots :=
  let slot := slotsNum conf.hash_slots_size key
  let info := s.db_slot_infos db
  match (info.slotkey_tables slot).delete hash key with
  | (d, r) =>
    let info := info.setTable slot d
    if r ∧ hasTag key then
      s.setInfo db { info with tagged_key_list := (info.tagged_key_list.delete (slotsCrc key).toNat key).1 }
    else s.setInfo db info

/-! ### Flushing -/

/-- Empty the dictionaries of the slots below `n` and the skiplist. -/
def flushDb (n : Nat) (info : DbSlotInfo) : DbSlotInfo where
  slotkey_tables slot :=
    let d := info.slotkey_tables slot
    if slot < n ∧ d.size ≠ 0 then d.empty else d
  tagged_key_list := if info.tagged_key_list.length ≠ 0 then .create else info.tagged_key_list

/-- `FlushdbCallback`; `dbnum` is `none` for -1, all databases. -/
def flushdbCallback (s : Slots) (start : Bool) (dbnum : Option Nat) : Slots :=
  if !start then s
  else
    let n := conf.hash_slots_size.toNat
    match dbnum with
    | some db => s.setInfo db (flushDb n (s.db_slot_infos db))
    | none =>
      { s with
        db_slot_infos := fun db =>
          if db < conf.databases then flushDb n (s.db_slot_infos db) else s.db_slot_infos db }

/-! ### The cron -/

def htNeedsResize (d : Dict Bytes UInt32) : Bool :=
  d.slots > DICT_HT_INITIAL_SIZE && d.size * 100 / d.slots < HASHTABLE_MIN_FILL

def tryResizeDbSlotHashTables (s : Slots) (db slot : Nat) : Slots :=
  if htNeedsResize (s.table db slot) then
    match (s.table db slot).resize with
    | some d => s.setTable db slot d
    | none => s
  else s

/-- `incrementallyDbSlotRehash`: whether some rehashing was performed. -/
def incrementallyDbSlotRehash (rounds : Nat) (s : Slots) (db slot : Nat) : Slots × Bool :=
  if (s.table db slot).isRehashing then (s.setTable db slot ((s.table db slot).rehashMilliseconds hash rounds), true)
  else (s, false)

/-- One step of the resize loops. -/
def resizeSlot (s : Slots) : Slots :=
  { tryResizeDbSlotHashTables s s.resize_db s.resize_db_slot with
    resize_db_slot := (s.resize_db_slot + 1) % conf.hash_slots_size.toNat }

def resizeDb (n : Nat) (s : Slots) : Slots :=
  let s := (resizeSlot conf)^[n] s
  { s with resize_db := (s.resize_db + 1) % conf.databases }

/-- The inner rehash loop, from `slot` on with `n` slots left: whether some work was done. -/
def rehashSlots (rounds : Nat) : Nat → Nat → Slots → Slots × Bool
  | 0, _, s => (s, false)
  | n + 1, slot, s =>
    match incrementallyDbSlotRehash hash rounds s s.rehash_db slot with
    | (s, true) => (s, true)
    -- If this db didn't need rehash, we'll try the next one.
    | (s, false) => rehashSlots rounds n (slot + 1) { s with rehash_db := (s.rehash_db + 1) % conf.databases }

def rehashDbs (rounds : Nat) : Nat → Slots → Slots
  | 0, s => s
  | n + 1, s =>
    match rehashSlots hash conf rounds conf.hash_slots_size.toNat 0 s with
    | (s, true) => s
    | (s, false) => rehashDbs rounds n s

/-- `dbSlotCron`. `child` says if the server has an active child, and `rounds` how often a
rehashing comes round within its millisecond. -/
def dbSlotCron (child : Bool) (rounds : Nat) (s : Slots) : Slots :=
  let dbs_per_call := min CRON_DBS_PER_CALL conf.databases
  let db_slots_per_call := min CRON_DB_SLOTS_PER_CALL conf.hash_slots_size.toNat
  let s := (resizeDb conf db_slots_per_call)^[dbs_per_call] s
  if !conf.activerehashing || child then s else rehashDbs hash conf rounds conf.databases s

/-! ### Runs -/

/-- What happens to the index, each with the chances it takes. -/
inductive SlotsOp where
  | add (db : Nat) (key : Bytes) (draws : Nat)
  | del (db : Nat) (key : Bytes)
  | flush (start : Bool) (dbnum : Option Nat)
  | cron (child : Bool) (rounds : Nat)

/-- The database an operation is on, if it is on one. -/
def SlotsOp.db : SlotsOp → Option Nat
  | .add db _ _ | .del db _ => some db
  | .flush _ dbnum => dbnum
  | .cron .. => none

def Slots.step (s : Slots) : SlotsOp → Slots
  | .add db key draws => slotsAdd hash conf s db key draws
  | .del db key => slotsDel hash conf s db key
  | .flush start dbnum => flushdbCallback conf s start dbnum
  | .cron child rounds => dbSlotCron hash conf child rounds s

def Slots.run (s : Slots) (ops : List SlotsOp) : Slots := ops.foldl (Slots.step hash conf) s

end Hash
end RedisXSlot
