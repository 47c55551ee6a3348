import RedisXSlot.Migrate
import RedisXSlot.Restore
import RedisXSlot.SlotIndex

/-! Migrating out of a slot: one key at a time, or a key with all that share its tag.

A command draws a key from the slot's table, migrates it and replies with the number of
keys migrated and the number left in the slot. The latter travels in an out parameter,
`left`, which the command sets to 0 and which not every return sets again. -/
namespace RedisXSlot
open Interaction

namespace Skiplist

/-- The loop of `SlotsMGRT_TagKeys` from a node on. -/
def walk (z : Skiplist) (crc : Int) : Nat → Option Nat → List Bytes
  | 0, _ => []
  | _ + 1, none => []
  | fuel + 1, some x => if z.score x = crc then z.member x :: z.walk crc fuel (z.forward 0 x) else []

/-- The members with the checksum; every step passes a node, so `length` steps will do. -/
def taggedKeys (z : Skiplist) (crc : UInt32) : List Bytes :=
  z.walk crc.toNat z.length (z.firstInRange ⟨crc.toNat, crc.toNat, false, false⟩)

end Skiplist

/-- An `unsigned long` put into an `int`. -/
def toCInt (n : Nat) : Int := (n : Int).bmod (2 ^ 32)

section
variable (info : SlotsMetaInfo) (conf : MgrtConf)

/-- `SlotsMGRT_SlotOneKey`: the result and `left`. -/
def slotsmgrtSlotOneKey (slot : Nat) (left : Int) : Act (Int × Int) := do
  match ← ask (.randomKey conf.db slot) with
  | none => return (0, left)
  | some key =>
    let ret ← slotsmgrtOneKey conf key
    if ret = SLOTS_MGRT_ERR then return (SLOTS_MGRT_ERR, left)
    else
      let s : Nat ← ask (.slotSize conf.db slot)
      return (ret, toCInt s)

/-- `SlotsMGRT_TagKeys` from the length of its list of keys on. -/
def slotsmgrtListedKeys (slot : Nat) (keys : List Bytes) (left : Int) : Act (Int × Int) := do
  let max := toCInt keys.length
  if max = 0 then return (0, left)
  -- So many pointers cannot be allocated: `max` goes through a `size_t`.
  else if max < 0 then .fault
  else
    let ret ← migrateKeys conf (keys.take max.toNat)
    let s : Nat ← ask (.slotSize conf.db slot)
    return (ret, toCInt s)

/-- `SlotsMGRT_TagKeys`: the result and `left`. -/
def slotsmgrtTagKeys (key : Bytes) (left : Int) : Act (Int × Int) := do
  if !hasTag key then
    let ret ← slotsmgrtOneKey conf key
    return (ret, left)
  else
    let slot := slotsNum info.hash_slots_size key
    let s : Nat ← ask (.slotSize conf.db slot)
    if s = 0 then return (0, left)
    else
      -- like read current snapshot, but not iter
      let keys : List Bytes ← ask (.taggedKeys conf.db (slotsCrc key))
      slotsmgrtListedKeys conf slot keys left

/-- `SlotsMGRT_TagSlotKeys`. -/
def slotsmgrtTagSlotKeys (slot : Nat) (left : Int) : Act (Int × Int) := do
  match ← ask (.randomKey conf.db slot) with
  | none => return (0, left)
  | some key => slotsmgrtTagKeys info conf key left

/-- The two commands `<name> host port timeout slot [type]`, which differ in what they do to
the slot. A slot below 0 passes the check and is no index: undefined behaviour. -/
def slotCommand (run : MgrtConf → Nat → Int → Act (Int × Int)) (argv : List Bytes) : Act ClientReply := do
  if argv.length ≠ 5 ∧ argv.length ≠ 6 then return .wrongArity
  else
    let conf := { conf with
      host := cString (argv.getD 1 [])
      port := cString (argv.getD 2 [])
      mgrtType := argv[5]?.map cString }
    match string2ll (argv.getD 3 []), string2ll (argv.getD 4 []) with
    | some _, some slot =>
      if slot ≥ info.hash_slots_size.toNat then return .error REDISXSLOT_ERRORMSG_SYNTAX
      else
        let slot : Int := slot.bmod (2 ^ 32)
        if 0 ≤ slot ∧ slot < info.hash_slots_size.toNat then
          let (r, left) ← run conf slot.toNat 0
          if r = SLOTS_MGRT_ERR then return .error REDISXSLOT_ERRORMSG_MGRT else return .array [r, left]
        else .fault
    | _, _ => return .error REDISXSLOT_ERRORMSG_SYNTAX

def slotsMGRTSlotRedisCommand (argv : List Bytes) : Act ClientReply := slotCommand info conf slotsmgrtSlotOneKey argv

def slotsMGRTTagSlotRedisCommand (argv : List Bytes) : Act ClientReply :=
  slotCommand info conf (slotsmgrtTagSlotKeys info) argv

/-- `SlotsMGRT_TagKeys` with a NULL `left`: the size is not asked for again. -/
def slotsmgrtTagKeysOnly (key : Bytes) : Act Int := do
  if !hasTag key then slotsmgrtOneKey conf key
  else
    let slot := slotsNum info.hash_slots_size key
    let s : Nat ← ask (.slotSize conf.db slot)
    if s = 0 then return 0
    else
      let keys : List Bytes ← ask (.taggedKeys conf.db (slotsCrc key))
      let max := toCInt keys.length
      if max = 0 then return 0
      else if max < 0 then .fault
      else migrateKeys conf (keys.take max.toNat)

/-- The two commands `<name> host port timeout key [type]`. -/
def keyCommand (run : MgrtConf → Bytes → Act Int) (argv : List Bytes) : Act ClientReply := do
  if argv.length ≠ 5 ∧ argv.length ≠ 6 then return .wrongArity
  else
    let conf := { conf with
      host := cString (argv.getD 1 [])
      port := cString (argv.getD 2 [])
      mgrtType := argv[5]?.map cString }
    match string2ll (argv.getD 3 []) with
    | some _ =>
      let r ← run conf (argv.getD 4 [])
      if r = SLOTS_MGRT_ERR then return .error REDISXSLOT_ERRORMSG_MGRT else return .integer r
    | none => return .error REDISXSLOT_ERRORMSG_SYNTAX

def slotsMGRTOneRedisCommand (argv : List Bytes) : Act ClientReply := keyCommand conf slotsmgrtOneKey argv

def slotsMGRTTagOneRedisCommand (argv : List Bytes) : Act ClientReply :=
  keyCommand conf (slotsmgrtTagKeysOnly info) argv

end
end RedisXSlot
