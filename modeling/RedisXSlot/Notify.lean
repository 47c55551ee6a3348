import RedisXSlot.SlotIndex

/-! Keyspace notifications: how the index follows the keyspace.

Redis raises an event, of some class, with a name, for a key of a database, whenever it
changes the key. The module subscribes one callback to the classes of the types it knows
and one to the generic class and the expired class. Renaming and moving raise a pair of
events, and what the first of them says is kept in static variables. -/
namespace RedisXSlot

/-- The classes of events, `REDISMODULE_NOTIFY_*`, that are of interest here. -/
inductive NotifyType where
  | generic | string | list | set | hash | zset | expired | evicted | loaded
  deriving DecidableEq

structure KeyspaceEvent where
  type : NotifyType
  event : String
  /-- `RedisModule_GetSelectedDb` within the callback. -/
  db : Nat
  key : Bytes

inductive CmdFlag where
  | CMD_NONE | CMD_RENAME | CMD_MOVE

/-- The index, and the static variables of `NotifyGenericCallback`. -/
structure ModuleState where
  slots : Slots
  from_key : Option Bytes
  to_key : Option Bytes
  from_dbid : Nat
  to_dbid : Nat
  cmd_flag : CmdFlag

/-- The module as it is loaded. -/
def ModuleState.init : ModuleState := ⟨slotsInit, none, none, 0, 0, .CMD_NONE⟩

section Hash
variable (hash : Bytes → Nat) (conf : SlotsMetaInfo)

/-- `NotifyTypeChangeCallback`. -/
def notifyTypeChangeCallback (m : ModuleState) (e : KeyspaceEvent) (draws : Nat) : ModuleState :=
  { m with slots := slotsAdd hash conf m.slots e.db e.key draws }

/-- `Slots_Del` and `Slots_Add` of a pair; the second event of a pair never comes without the
first, so neither key is NULL. -/
def moveKey (m : ModuleState) (from_dbid : Nat) (from_key : Option Bytes) (to_dbid : Nat) (to_key : Option Bytes)
    (draws : Nat) : ModuleState :=
  match from_key, to_key with
  | some from_key, some to_key =>
    { m with slots := slotsAdd hash conf (slotsDel hash conf m.slots from_dbid from_key) to_dbid to_key draws }
  | _, _ => m

/-- `NotifyGenericCallback`. -/
def notifyGenericCallback (m : ModuleState) (e : KeyspaceEvent) (draws : Nat) : ModuleState :=
  if e.event = "del" ∨ e.event = "expired" then { m with slots := slotsDel hash conf m.slots e.db e.key }
  else
    -- save event stat for pair events
    let m :=
      if e.event = "rename_from" then { m with from_key := some e.key }
      else if e.event = "rename_to" then { m with to_key := some e.key, cmd_flag := .CMD_RENAME }
      else if e.event = "move_from" then { m with from_dbid := e.db }
      else if e.event = "move_to" then { m with to_dbid := e.db, cmd_flag := .CMD_MOVE }
      else m
    match m.cmd_flag with
    | .CMD_NONE => m
    | .CMD_RENAME =>
      { moveKey hash conf m e.db m.from_key e.db m.to_key draws with
        from_key := none, to_key := none, cmd_flag := .CMD_NONE }
    | .CMD_MOVE =>
      { moveKey hash conf m m.from_dbid (some e.key) m.to_dbid (some e.key) draws with cmd_flag := .CMD_NONE }

/-- The classes `RedisModule_OnLoad` subscribes `NotifyTypeChangeCallback` to. -/
def typeChangeMask : List NotifyType := [.hash, .set, .string, .list, .zset, .loaded]

/-- The classes it subscribes `NotifyGenericCallback` to. -/
def genericMask : List NotifyType := [.generic, .expired]

/-- Redis calls every subscriber of the class. -/
def notify (draws : Nat) (m : ModuleState) (e : KeyspaceEvent) : ModuleState :=
  let m := if e.type ∈ typeChangeMask then notifyTypeChangeCallback hash conf m e draws else m
  if e.type ∈ genericMask then notifyGenericCallback hash conf m e draws else m

end Hash
end RedisXSlot
