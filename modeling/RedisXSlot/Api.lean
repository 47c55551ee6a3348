import RedisXSlot.Lib.Interaction
import RedisXSlot.Connect

/-! What the module asks of its surroundings.

Every effect of the migration code is one call: to the Redis server it is loaded in
(`RedisModule_Call`), to the connection to the target (`hiredis`), to the thread pool,
or to the slot index under its locks. In async mode the module takes the server's lock
for exactly one such call, so a call is also the unit that other clients can fall
between. Which answers are possible is left open here. -/
namespace RedisXSlot

/-- A `RedisModuleCallReply*`, as far as the module looks at it. -/
inductive Reply where
  /-- The NULL pointer. -/
  | null
  /-- `REDISMODULE_REPLY_NULL`. -/
  | nil
  | integer (n : Int64)
  /-- A bulk or status reply. -/
  | string (s : Bytes)
  | error
  | other
  deriving DecidableEq, Repr

/-- A `redisReply` read from the connection. -/
inductive WireReply where
  | error
  | integer (n : Int)
  | status
  deriving DecidableEq, Repr

/-- What `redisCommandArgv` and `redisGetReply` leave behind: a set `err` or
`REDIS_ERR`, a NULL reply without one, or a reply. -/
inductive NetAnswer where
  | failed
  | missing
  | reply (r : WireReply)
  deriving DecidableEq, Repr

/-- The answer is neither a transport error, nor missing, nor an error reply. -/
def NetAnswer.ok : NetAnswer → Bool
  | .failed | .missing | .reply .error => false
  | .reply _ => true

inductive Call where
  | dump (key : Bytes)
  | pttl (key : Bytes)
  | unlink (key : Bytes)
  | restore (key : Bytes) (ttlms : Int64) (val : Bytes)
  /-- `notifyOne`: its body runs under one lock. -/
  | notifyOne (key : Bytes)
  | getTid
  /-- The connection cached under this name, if any. -/
  | cachedConn (name : Bytes)
  /-- `redisConnect`, for the connection called `name`. -/
  | connect (host port name : Bytes)
  /-- `SlotsMGRT_CloseConn`, of the connection this thread has cached. -/
  | closeConn (host port : Bytes)
  | select (db : Nat)
  /-- `redisCommandArgv`. -/
  | command (argv : List Bytes)
  /-- `redisAppendCommand`, already formatted. -/
  | append (argv : List Bytes)
  | getReply
  /-- A moment at which the pool may run some of its queued tasks. -/
  | schedule (queued : List Nat)
  | pthreadCreate
  | randomKey (db slot : Nat)
  | slotSize (db slot : Nat)
  | taggedKeys (db : Nat) (crc : UInt32)
  deriving DecidableEq, Repr

def Answer : Call → Type
  | .dump _ | .pttl _ | .unlink _ | .restore .. => Reply
  | .notifyOne _ | .closeConn .. | .append _ => Unit
  | .getTid => Tid
  | .cachedConn _ | .pthreadCreate => Bool
  | .connect .. => ConnectAnswer
  | .select _ | .command _ | .getReply => NetAnswer
  | .schedule _ => List Nat
  | .randomKey .. => Option Bytes
  | .slotSize .. => Nat
  | .taggedKeys .. => List Bytes

abbrev Act := Interaction.Prog Call Answer
abbrev Event := Interaction.Event Call Answer
abbrev Trace := List Event

abbrev ask (c : Call) : Act (Answer c) := Interaction.Prog.perform c

/-- The answers of a network and a server on which nothing fails, DUMP answered by `dumps`. -/
def agreeable (dumps : Bytes → Reply) : (c : Call) → Answer c
  | .dump key => dumps key
  | .pttl _ => Reply.integer (-1)
  | .unlink _ => Reply.integer 1
  | .restore .. => Reply.string [79, 75]
  | .notifyOne _ | .closeConn .. | .append _ => ()
  | .getTid => (⟨1, by decide⟩ : Tid)
  | .cachedConn _ | .pthreadCreate => true
  | .connect .. => ConnectAnswer.connected
  | .select _ | .command _ | .getReply => NetAnswer.reply .status
  | .schedule queued => queued
  | .randomKey .. => none
  | .slotSize .. => (0 : Nat)
  | .taggedKeys .. => ([] : List Bytes)

def SLOTS_MGRT_NOTHING : Int := 0
def SLOTS_MGRT_ERR : Int := -1

/-- `rdb_dump_obj`. -/
structure DumpObj where
  key : Bytes
  val : Bytes
  ttlms : Int64
  deriving DecidableEq, Repr

/-- The part of `slots_meta_info` and of the command that a migration reads.
`slots_dump_threads` and `slots_restore_threads` are never set and stay 0. -/
structure MgrtConf where
  async : Bool
  slots_mgrt_threads : Nat
  db : Nat
  host : Bytes
  port : Bytes
  mgrtType : Option Bytes

end RedisXSlot
