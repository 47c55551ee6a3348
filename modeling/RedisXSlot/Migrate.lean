import RedisXSlot.Send

/-! Moving keys off the source: dump them, send the dumps, unlink the keys.

`getRdbDumpObjs` leaves a slot of `objs` unwritten for every key that turns out to be
absent, and counts the others. `migrateKeys` sends as many slots, from the first on, as
keys were counted: a slot that was not written holds an indeterminate pointer, and
reading it is a fault. Afterwards every key it was given is unlinked. -/
namespace RedisXSlot
open Interaction

/-- The result code of `dumpObj` together with the object it may have made. -/
inductive DumpResult where
  | nothing
  | err
  | obj (obj : DumpObj)

def dumpObj (key : Bytes) : Act DumpResult := do
  match ← ask (.dump key) with
  | .null => return .nothing
  | .nil => return .nothing
  | .string val =>
    match ← ask (.pttl key) with
    | .null => return .nothing
    | .nil => return .nothing
    | .integer ttlms => return .obj ⟨key, val, ttlms⟩
    | _ => return .err
  | _ => return .err

/-- The loop of `getRdbDumpObjs`: `j` objects so far, `objs` the slots passed, `none` for
one that was not written. The pool variant is never taken: `slots_dump_threads` is 0. -/
def dumpLoop : List Bytes → Int → List (Option DumpObj) → Act (Int × List (Option DumpObj))
  | [], j, objs => return (j, objs)
  | key :: keys, j, objs => do
    match ← dumpObj key with
    | .nothing => dumpLoop keys j (objs ++ [none])
    | .err => return (SLOTS_MGRT_ERR, objs)
    | .obj obj => dumpLoop keys (j + 1) (objs ++ [some obj])

def getRdbDumpObjs (keys : List Bytes) : Act (Int × List (Option DumpObj)) := do
  if keys.length ≤ 0 then return (SLOTS_MGRT_NOTHING, [])
  else dumpLoop keys 0 []

/-- The first `n` slots, if all of them were written. -/
def readObjs : Nat → List (Option DumpObj) → Option (List DumpObj)
  | 0, _ => some []
  | n + 1, some obj :: objs => (readObjs n objs).map (obj :: ·)
  | _ + 1, _ => none

/-- The loop of `delKeys`, `ret` keys deleted so far. -/
def delLoop : List Bytes → Int → Act Int
  | [], ret => return ret
  | key :: keys, ret => do
    match ← ask (.unlink key) with
    | .null => delLoop keys ret
    | .nil => delLoop keys ret
    | .integer _ => delLoop keys (ret + 1)
    | _ => return SLOTS_MGRT_ERR

def delKeys (keys : List Bytes) : Act Int := delLoop keys 0

def migrateKeys (conf : MgrtConf) (keys : List Bytes) : Act Int := do
  if keys.length ≤ 0 then return 0
  else
    -- get rdb dump objs
    let (ret, slots) ← getRdbDumpObjs keys
    if ret = SLOTS_MGRT_NOTHING then return 0
    else if ret = SLOTS_MGRT_ERR then return SLOTS_MGRT_ERR
    else
      match readObjs ret.toNat slots with
      | none => .fault
      | some objs =>
        -- migrate
        let m_ret ← mgrt conf objs
        if m_ret = SLOTS_MGRT_ERR then return SLOTS_MGRT_ERR
        else if m_ret = 0 then return m_ret
        -- del (unlink async del)
        else delKeys keys

/-- `SlotsMGRT_OneKey`. -/
def slotsmgrtOneKey (conf : MgrtConf) (key : Bytes) : Act Int := migrateKeys conf [key]

end RedisXSlot
