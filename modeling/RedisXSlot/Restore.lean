import RedisXSlot.Api
import RedisXSlot.Util

/-! SLOTSRESTORE, the command on the target.

`slotsRestoreCmd` decodes the triples of the argument vector and restores them one after
the other. A synchronous server runs it in the command and replies with its result; an
async server runs it in a thread of its own, passes the result on as the blocked client's
private data and replies in a callback. -/
namespace RedisXSlot

/-- What a client of the module reads. -/
inductive ClientReply where
  | wrongArity
  | error (msg : String)
  | integer (n : Int)
  | array (xs : List Int)
  deriving DecidableEq, Repr

def REDISXSLOT_ERRORMSG_SYNTAX : String := "ERR syntax error"
def REDISXSLOT_ERRORMSG_MGRT : String := "ERR migrate error"
def CANT_START_THREAD : String := "-ERR Can't start thread"

/-- The reply as it arrives on the connection. -/
def ClientReply.toWire : ClientReply → WireReply
  | .wrongArity | .error _ => .error
  | .integer n => .integer n
  | .array _ => .status

/-- `RESTORE key ttlms val replace`, by format "clbc", then the inner type notification.
0 for a missing or nil reply, SLOTS_MGRT_ERR for an error reply. -/
def restoreOneWithReplace (obj : DumpObj) : Act Int := do
  let ttlms := if obj.ttlms < 0 then 0 else obj.ttlms
  -- 'c' passes a C string: `StringPtrLen` was asked for no length.
  let k := cString obj.key
  match ← ask (.restore k ttlms obj.val) with
  | .null => return 0
  | .nil => return 0
  | .error => return SLOTS_MGRT_ERR
  | _ =>
    ask (.notifyOne obj.key)
    return 1

/-- The loop of `restoreMutli`: whether it got through. -/
def restoreAll : List DumpObj → Act Bool
  | [] => return true
  | obj :: objs => do
    if (← restoreOneWithReplace obj) = SLOTS_MGRT_ERR then return false
    else restoreAll objs

/-- `restoreMutli`, which is `SlotsMGRT_Restore` as long as there is no restore pool. -/
def restoreMutli (objs : List DumpObj) : Act Int := do
  if ← restoreAll objs then return objs.length else return SLOTS_MGRT_ERR

/-- The loop of `slotsRestoreCmd` over the arguments behind the command name, a triple at
a time; `none` as soon as a TTL is no number. -/
def decodeTriples : List Bytes → Option (List DumpObj)
  | key :: ttl :: val :: rest =>
    match string2ll ttl with
    | none => none
    | some ttlms => (decodeTriples rest).map (⟨key, val, Int64.ofInt ttlms⟩ :: ·)
  | _ => some []

def slotsRestoreCmd (argv : List Bytes) : Act Int := do
  match decodeTriples argv.tail with
  | none => return SLOTS_MGRT_ERR
  | some objs => restoreMutli objs

/-- `argc < 4 || (argc - 1) % 3 != 0`. -/
def badArity (argv : List Bytes) : Bool := argv.length < 4 || (argv.length - 1) % 3 != 0

/-- `SlotsRestoreAsyncBlock_RedisCommand`, its thread and `SlotsRestoreAsyncBlock_Reply`. -/
def slotsRestoreAsyncBlock (argv : List Bytes) : Act ClientReply := do
  if badArity argv then return .wrongArity
  else
    let started : Bool ← ask .pthreadCreate
    if started then
      let res ← slotsRestoreCmd argv
      return .integer res
    else return .error CANT_START_THREAD

def slotsRestoreRedisCommand (async : Bool) (argv : List Bytes) : Act ClientReply := do
  if async then slotsRestoreAsyncBlock argv
  else if badArity argv then return .wrongArity
  else
    let ret ← slotsRestoreCmd argv
    if ret = SLOTS_MGRT_ERR then return .error REDISXSLOT_ERRORMSG_MGRT else return .integer ret

end RedisXSlot
