import RedisXSlot.Notify

/-! The Redis the module is loaded into, as far as keys and events go.

A database is the set of keys it holds. Each command says which keys it makes and removes
and which events it raises, in order, as Redis documents them; the module hears the
events as they come. A flush and the cron reach it as server events. -/
namespace RedisXSlot

/-- The keys present in each database. -/
abbrev Keys (databases : Nat) := Fin databases → Bytes → Bool

def Keys.set {databases : Nat} (ks : Keys databases) (db : Fin databases) (key : Bytes) (b : Bool) : Keys databases :=
  fun d k => if d = db ∧ k = key then b else ks d k

/-- The types of keys the module follows. -/
inductive KeyType where
  | string | list | set | hash | zset

def KeyType.notify : KeyType → NotifyType
  | .string => .string
  | .list => .list
  | .set => .set
  | .hash => .hash
  | .zset => .zset

inductive Command (databases : Nat) where
  /-- A write that makes or changes the key; `event` names the command. -/
  | write (type : KeyType) (event : String) (db : Fin databases) (key : Bytes)
  /-- A write that takes the last element out of the key. -/
  | drain (type : KeyType) (event : String) (db : Fin databases) (key : Bytes)
  | load (db : Fin databases) (key : Bytes)
  | del (db : Fin databases) (key : Bytes)
  | expire (db : Fin databases) (key : Bytes)
  | evict (db : Fin databases) (key : Bytes)
  | rename (db : Fin databases) (key newkey : Bytes)
  | move (db dst : Fin databases) (key : Bytes)
  | copy (db : Fin databases) (key : Bytes) (dst : Fin databases) (newkey : Bytes) (replace : Bool)
  | flush (dbnum : Option (Fin databases))
  | cron (child : Bool) (rounds : Nat)

/-- A copy is made: its source is there, and its place is free or may be taken. -/
def Command.copies {databases : Nat} (ks : Keys databases) (db : Fin databases) (key : Bytes) (dst : Fin databases)
    (newkey : Bytes) (replace : Bool) : Bool :=
  ks db key && !(db = dst && key = newkey) && (!ks dst newkey || replace)

/-- The keyspace after a command, and the events it raises. -/
def Command.execute {databases : Nat} (ks : Keys databases) : Command databases → Keys databases × List KeyspaceEvent
  | .write type event db key => (ks.set db key true, [⟨type.notify, event, db, key⟩])
  | .drain type event db key =>
    if ks db key then (ks.set db key false, [⟨type.notify, event, db, key⟩, ⟨.generic, "del", db, key⟩]) else (ks, [])
  | .load db key => (ks.set db key true, [⟨.loaded, "loaded", db, key⟩])
  | .del db key => if ks db key then (ks.set db key false, [⟨.generic, "del", db, key⟩]) else (ks, [])
  | .expire db key => if ks db key then (ks.set db key false, [⟨.expired, "expired", db, key⟩]) else (ks, [])
  | .evict db key => if ks db key then (ks.set db key false, [⟨.evicted, "evicted", db, key⟩]) else (ks, [])
  | .rename db key newkey =>
    if ks db key && key ≠ newkey then
      ((ks.set db newkey true).set db key false,
        [⟨.generic, "rename_from", db, key⟩, ⟨.generic, "rename_to", db, newkey⟩])
    else (ks, [])
  | .move db dst key =>
    if ks db key && db ≠ dst && !ks dst key then
      ((ks.set dst key true).set db key false, [⟨.generic, "move_from", db, key⟩, ⟨.generic, "move_to", dst, key⟩])
    else (ks, [])
  | .copy db key dst newkey replace =>
    if copies ks db key dst newkey replace then (ks.set dst newkey true, [⟨.generic, "copy_to", dst, newkey⟩])
    else (ks, [])
  | .flush dbnum => (fun d k => if dbnum = some d ∨ dbnum = none then false else ks d k, [])
  | .cron .. => (ks, [])

/-- Redis and the module in it. -/
structure Server (databases : Nat) where
  keyspace : Keys databases
  mod : ModuleState

def Server.init (databases : Nat) : Server databases := ⟨fun _ _ => false, .init⟩

section Hash
variable (hash : Bytes → Nat) (conf : SlotsMetaInfo)

/-- The server events of a command: a flush starts and ends, the cron comes round. -/
def Command.serverEvents (m : ModuleState) : Command conf.databases → ModuleState
  | .flush dbnum =>
    let slots := flushdbCallback conf m.slots true (dbnum.map Fin.val)
    { m with slots := flushdbCallback conf slots false (dbnum.map Fin.val) }
  | .cron child rounds => { m with slots := dbSlotCron hash conf child rounds m.slots }
  | _ => m

/-- A command, and what the module makes of it; new nodes draw their levels from `draws`. -/
def Server.step (s : Server conf.databases) (c : Command conf.databases) (draws : Nat) : Server conf.databases :=
  let (keyspace, events) := c.execute s.keyspace
  ⟨keyspace, events.foldl (notify hash conf draws) (c.serverEvents hash conf s.mod)⟩

def Server.run (s : Server conf.databases) (cmds : List (Command conf.databases × Nat)) : Server conf.databases :=
  cmds.foldl (fun s c => s.step hash conf c.1 c.2) s

end Hash
end RedisXSlot
