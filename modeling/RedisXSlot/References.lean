import RedisXSlot.Notify
import RedisXSlot.Lib.Ledger

/-! The references of the index.

The slot tables and the skiplists point to `RedisModuleString`s, counted by Redis. A string
made by the module comes with one reference and `takeAndRef` takes another;
`RedisModule_FreeString` gives one back, and at the return of a callback so does automatic
memory, for the strings that were made with its context. Here the callbacks are what they do
to the pointers and the references, the tables of a database and its skiplist being lists. -/
namespace RedisXSlot

/-- Which string a `RedisModuleString *` points to. -/
inductive StrId where
  /-- Made by the server. -/
  | server (n : Nat)
  /-- Made by `RedisModule_CreateStringFromLongLong`. -/
  | value (n : Nat)
  /-- Made by `RedisModule_CreateStringFromString`. -/
  | copy (n : Nat)
  deriving DecidableEq

/-- A `RedisModuleString *`, with what `RedisModule_StringPtrLen` reads there. -/
structure Str where
  id : StrId
  text : Bytes

/-- A key as an event comes with it. -/
structure EventKey where
  n : Nat
  text : Bytes

def EventKey.str (key : EventKey) : Str := ⟨.server key.n, key.text⟩

/-- A `m_dictEntry` of a slot table of a database. -/
structure TableEntry where
  db : Nat
  key : Str
  val : StrId

/-- A node of the `tagged_key_list` of a database. -/
structure TagNode where
  db : Nat
  member : Str

def TableEntry.name (e : TableEntry) : Nat × Bytes := (e.db, e.key.text)
def TagNode.name (z : TagNode) : Nat × Bytes := (z.db, z.member.text)

/-- The index, and the static variables of `NotifyGenericCallback`. -/
structure RefState where
  ledger : Ledger StrId
  /-- How many strings the module has made. -/
  made : Nat
  /-- What automatic memory gives back at the return of the callback. -/
  autoMemory : List StrId
  entries : List TableEntry
  nodes : List TagNode
  from_key : Option Str
  to_key : Option Str
  from_dbid : Nat
  to_dbid : Nat
  cmd_flag : CmdFlag

/-- Names of entries compare by value. -/
instance : LawfulBEq (Nat × Bytes) := inferInstance

namespace RefState

def init : RefState := ⟨.init, 0, [], [], [], none, none, 0, 0, .CMD_NONE⟩

variable (s : RefState)

/-- `takeAndRef`. -/
def takeAndRef (str : Str) : RefState := { s with ledger := s.ledger.take str.id }

/-- `RedisModule_FreeString`. -/
def freeString (id : StrId) : RefState := { s with ledger := s.ledger.give id }

/-- `RedisModule_CreateStringFromLongLong`; `auto` says if automatic memory is on in the context. -/
def createStringFromLongLong (auto : Bool) : RefState × StrId :=
  let id := StrId.value s.made
  ({ s with
      ledger := s.ledger.take id
      made := s.made + 1
      autoMemory := if auto then id :: s.autoMemory else s.autoMemory }, id)

/-- `RedisModule_CreateStringFromString`, without a context. -/
def createStringFromString (str : Str) : RefState × Str :=
  let id := StrId.copy s.made
  ({ s with ledger := s.ledger.take id, made := s.made + 1 }, ⟨id, str.text⟩)

/-- The return of a callback. -/
def callbackReturn : RefState := { s with ledger := s.ledger.giveAll s.autoMemory, autoMemory := [] }

/-- `m_dictAdd`, to the table of the key's slot: true for DICT_OK. -/
def dictAdd (db : Nat) (key : Str) (val : StrId) : RefState × Bool :=
  if (db, key.text) ∈ s.entries.map TableEntry.name then (s, false)
  else ({ s with entries := ⟨db, key, val⟩ :: s.entries }, true)

/-- `m_dictDelete`: the destructors free the key and the value. -/
def dictDelete (db : Nat) (text : Bytes) : RefState × Bool :=
  match s.entries.find? fun e => e.name = (db, text) with
  | none => (s, false)
  | some e =>
    ((({ s with entries := s.entries.eraseP fun e => e.name = (db, text) }).freeString e.key.id).freeString e.val, true)

/-- `m_zslDelete`: the node is freed with its member. -/
def zslDelete (db : Nat) (text : Bytes) : RefState :=
  match s.nodes.find? fun z => z.name = (db, text) with
  | none => s
  | some z => ({ s with nodes := s.nodes.eraseP fun z => z.name = (db, text) }).freeString z.member.id

/-- `Slots_Add`, in a context with automatic memory or without. -/
def slotsAdd (auto : Bool) (db : Nat) (key : Str) : RefState :=
  match s.createStringFromLongLong auto with
  | (s, sval) =>
    match (s.takeAndRef key).dictAdd db key sval with
    | (s, false) => s
    | (s, true) =>
      if hasTag key.text then { s.takeAndRef key with nodes := ⟨db, key⟩ :: s.nodes } else s

/-- `Slots_Del`. -/
def slotsDel (db : Nat) (key : Str) : RefState :=
  match s.dictDelete db key.text with
  | (s, false) => s
  | (s, true) => if hasTag key.text then s.zslDelete db key.text else s

/-- Empty the dictionaries and the skiplists of some databases: each entry is freed with its key and
value, and each node with its member. -/
def flushDbs (hit : Nat → Bool) : RefState :=
  { s with
    ledger := (s.ledger.giveAll ((s.entries.filter fun e => hit e.db).flatMap fun e => [e.key.id, e.val])).giveAll
      ((s.nodes.filter fun z => hit z.db).map fun z => z.member.id)
    entries := s.entries.filter fun e => !hit e.db
    nodes := s.nodes.filter fun z => !hit z.db }

/-- `FlushdbCallback`; `dbnum` is `none` for -1, all databases. -/
def flushdbCallback (databases : Nat) (start : Bool) (dbnum : Option Nat) : RefState :=
  if !start then s
  else
    match dbnum with
    | some db => s.flushDbs fun i => i = db
    | none => s.flushDbs fun i => i < databases

/-- `NotifyTypeChangeCallback`, which does not turn automatic memory on. -/
def notifyTypeChangeCallback (db : Nat) (key : EventKey) : RefState :=
  (s.slotsAdd false db key.str).callbackReturn

/-- `Slots_Del` and `Slots_Add` of a pair; the second event of a pair never comes without the
first, so neither key is NULL. -/
def moveKey (from_dbid : Nat) (from_key : Option Str) (to_dbid : Nat) (to_key : Option Str) : RefState :=
  match from_key, to_key with
  | some from_key, some to_key => (s.slotsDel from_dbid from_key).slotsAdd true to_dbid to_key
  | _, _ => s

/-- Release the sources of a rename. -/
def releaseSources : RefState :=
  let s := match s.to_key with
    | some to_key => { s.freeString to_key.id with to_key := none }
    | none => s
  match s.from_key with
  | some from_key => { s.freeString from_key.id with from_key := none }
  | none => s

/-- `NotifyGenericCallback`, which turns automatic memory on. -/
def notifyGenericCallback (event : String) (db : Nat) (key : EventKey) : RefState :=
  if event = "del" ∨ event = "expired" then (s.slotsDel db key.str).callbackReturn
  else
    -- save event stat for pair events
    let s :=
      if event = "rename_from" then
        match s.createStringFromString key.str with
        | (s, str) => { s with from_key := some str }
      else if event = "rename_to" then
        match s.createStringFromString key.str with
        | (s, str) => { s with to_key := some str, cmd_flag := .CMD_RENAME }
      else if event = "move_from" then { s with from_dbid := db }
      else if event = "move_to" then { s with to_dbid := db, cmd_flag := .CMD_MOVE }
      else s
    match s.cmd_flag with
    | .CMD_NONE => s.callbackReturn
    | .CMD_RENAME => { (s.moveKey db s.from_key db s.to_key).releaseSources with cmd_flag := .CMD_NONE }.callbackReturn
    | .CMD_MOVE => { s.moveKey s.from_dbid (some key.str) s.to_dbid (some key.str) with cmd_flag := .CMD_NONE }.callbackReturn

end RefState

inductive Callback where
  | typeChange (db : Nat) (key : EventKey)
  | generic (event : String) (db : Nat) (key : EventKey)
  | flush (start : Bool) (dbnum : Option Nat)

def RefState.callback (databases : Nat) (s : RefState) : Callback → RefState
  | .typeChange db key => s.notifyTypeChangeCallback db key
  | .generic event db key => s.notifyGenericCallback event db key
  | .flush start dbnum => s.flushdbCallback databases start dbnum

/-- What the server calls the module back for. -/
inductive Report where
  /-- A key has been written. -/
  | changed (db : Nat) (key : EventKey)
  /-- A key is gone. -/
  | removed (expired : Bool) (db : Nat) (key : EventKey)
  | flushed (start : Bool) (dbnum : Option Nat)
  | renamed (db : Nat) (key newkey : EventKey)
  | moved (src dst : Nat) (key : EventKey)

/-- The callbacks of a report, the two of a pair one right after the other. -/
def Report.callbacks : Report → List Callback
  | .changed db key => [.typeChange db key]
  | .removed expired db key => [.generic (if expired then "expired" else "del") db key]
  | .flushed start dbnum => [.flush start dbnum]
  | .renamed db key newkey => [.generic "rename_from" db key, .generic "rename_to" db newkey]
  | .moved src dst key => [.generic "move_from" src key, .generic "move_to" dst key]

end RedisXSlot
