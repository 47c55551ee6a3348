import RedisXSlot.Api
import RedisXSlot.Lib.Batch

/-! The three ways to send dump objects to a target.

`BatchSend_SlotsRestore` gathers the arguments of many objects in one array and sends a
slice of it as one SLOTSRESTORE whenever more than a megabyte has gathered.
`BatchSendWithThreadPool_SlotsRestore` hands the slices to pool tasks, each with a
connection of its own, which may run while the array is still being filled.
`Pipeline_SlotsRestore` sends one SLOTSRESTORE per object and reads the replies at the
same cuts. All three share the loop that finds the cuts (`Batch.batchLoop`).

A task runs without a break here: tasks share nothing but the array, which they only
read, and each has its own connection and its own `result_code`. -/
namespace RedisXSlot
open Interaction

def REDIS_MGRT_CMD_PARAMS_SIZE : Nat := 1024 * 1024

/-- The bytes of "SLOTSRESTORE". -/
def slotsrestoreName : Bytes := [83, 76, 79, 84, 83, 82, 69, 83, 84, 79, 82, 69]

/-- `char buf[REDIS_LONGSTR_SIZE]`. -/
def longstrBuf : Bytes := List.replicate REDIS_LONGSTR_SIZE 0

/-- `objs[i]->ttlms > 0 ? objs[i]->ttlms : 0`. -/
def DumpObj.ttlArg (obj : DumpObj) : Int64 := if obj.ttlms > 0 then obj.ttlms else 0

/-- The text of the TTL. -/
def DumpObj.ttlText (obj : DumpObj) : Bytes := ll2string longstrBuf obj.ttlArg.toInt

/-- The three arguments an object takes up in `argv`. -/
def DumpObj.args (obj : DumpObj) : List Bytes := [obj.key, obj.ttlText, obj.val]

/-- What an object adds to `cmd_size`. -/
def DumpObj.size (obj : DumpObj) : Nat :=
  obj.key.length + obj.ttlText.length + obj.val.length

/-- `SlotsMGRT_GetConnCtx`: the thread's cached connection, else a new one; false for NULL. -/
def slotsmgrtGetConnCtx (conf : MgrtConf) : Act Bool := do
  let tid : Tid ← ask .getTid
  let name := getConnName ⟨conf.host, conf.port⟩ tid
  let cached : Bool ← ask (.cachedConn name)
  if cached then return true
  else
    let c : ConnectAnswer ← ask (.connect conf.host conf.port name)
    -- `sprintf` writes on behind the end of `errLog`.
    if c.overruns name then .fault
    else return c = .connected

/-- Send `argv[3 * start_pos]` up to `argv[3 * end_pos]` as one command: the number of
objects, or SLOTS_MGRT_ERR. -/
def doSplitRestoreCommand (argv : List Bytes) (start_pos end_pos : Nat) : Act Int := do
  let obj_cn : Int := end_pos - start_pos
  if obj_cn ≤ 0 then return SLOTS_MGRT_NOTHING
  else
    let sub_argv := slotsrestoreName :: (argv.drop (start_pos * 3)).take (obj_cn.toNat * 3)
    match ← ask (.command sub_argv) with
    | .failed => return SLOTS_MGRT_ERR
    | .missing => return SLOTS_MGRT_ERR
    | .reply .error => return SLOTS_MGRT_ERR
    | .reply _ => return obj_cn

/-! ### One command per split -/

def putArgs (argv : List Bytes) (obj : DumpObj) : Act (List Bytes) := return argv ++ obj.args

def sendSplit (argv : List Bytes) (start_pos i : Nat) : Act (Option (List Bytes)) := do
  if (← doSplitRestoreCommand argv start_pos i) = SLOTS_MGRT_ERR then return none
  else return some argv

def batchSendSlotsRestore (objs : List DumpObj) : Act Int := do
  match ← Batch.batchLoop putArgs sendSplit DumpObj.size REDIS_MGRT_CMD_PARAMS_SIZE objs 0 0 0 [] with
  | none => return SLOTS_MGRT_ERR
  | some _ => return objs.length

/-! ### A pool task per split -/

/-- `slots_split_restore_params`, less the pointers all tasks share. -/
structure SplitParams where
  start_pos : Nat
  end_pos : Nat
  result_code : Int
  deriving DecidableEq, Repr

/-- The shared array as far as it is filled, the tasks added, and the queued ones. -/
structure Pool where
  argv : List Bytes
  params : List SplitParams
  queued : List Nat

def doSplitRestoreCmdTask (conf : MgrtConf) (argv : List Bytes) (start_pos end_pos : Nat) : Act Int := do
  if ← slotsmgrtGetConnCtx conf then
    match ← ask (.select conf.db) with
    | .missing | .failed => return SLOTS_MGRT_ERR
    | .reply .error => return SLOTS_MGRT_ERR
    | .reply _ =>
      let result_code ← doSplitRestoreCommand argv start_pos end_pos
      ask (.closeConn conf.host conf.port)
      return result_code
  else return SLOTS_MGRT_ERR

/-- A worker takes the queued task `k`. -/
def Pool.runTask (conf : MgrtConf) (pool : Pool) (k : Nat) : Act Pool := do
  match pool.params[k]? with
  | some p =>
    if k ∈ pool.queued then
      let result_code ← doSplitRestoreCmdTask conf pool.argv p.start_pos p.end_pos
      return { pool with
        params := pool.params.set k { p with result_code }
        queued := pool.queued.erase k }
    else return pool
  | none => return pool

def Pool.runTasks (conf : MgrtConf) : List Nat → Pool → Act Pool
  | [], pool => return pool
  | k :: ks, pool => do
    let pool ← pool.runTask conf k
    Pool.runTasks conf ks pool

/-- The workers may run any of the queued tasks now, in any order. -/
def Pool.yield (conf : MgrtConf) (pool : Pool) : Act Pool := do
  let picks ← ask (.schedule pool.queued)
  Pool.runTasks conf picks pool

/-- `thpool_add_work`. -/
def Pool.addWork (pool : Pool) (start_pos end_pos : Nat) : Pool :=
  { pool with
    params := pool.params ++ [⟨start_pos, end_pos, 0⟩]
    queued := pool.queued ++ [pool.params.length] }

/-- `thpool_wait`: the workers finish what is queued, in any order. -/
def Pool.wait (conf : MgrtConf) (pool : Pool) : Act Pool := do
  let pool ← pool.yield conf
  Pool.runTasks conf pool.queued pool

/-- The workers already run while the array is filled. -/
def Pool.put (conf : MgrtConf) (pool : Pool) (obj : DumpObj) : Act Pool := do
  let pool ← pool.yield conf
  return { pool with argv := pool.argv ++ obj.args }

/-- The loop that fills the array and adds the tasks. -/
def Pool.fill (conf : MgrtConf) (objs : List DumpObj) : Act (Option Pool) :=
  Batch.batchLoop (Pool.put conf) (fun pool start_pos i => return some (pool.addWork start_pos i))
    DumpObj.size REDIS_MGRT_CMD_PARAMS_SIZE objs 0 0 0 ⟨[], [], []⟩

def batchSendWithThreadPoolSlotsRestore (conf : MgrtConf) (objs : List DumpObj) : Act Int := do
  match ← Pool.fill conf objs with
  | none => return SLOTS_MGRT_ERR
  | some pool =>
    let pool ← pool.wait conf
    if pool.params.any (·.result_code == SLOTS_MGRT_ERR) then return SLOTS_MGRT_ERR
    else return objs.length

/-! ### One command per object, replies read at the cuts -/

/-- `for (i = 0; i < n; i++) redisGetReply(...)`: whether all of them are fine. -/
def getReplies : Nat → Act Bool
  | 0 => return true
  | n + 1 => do
    match ← ask .getReply with
    | .failed => return false
    | .missing => return false
    | .reply .error => return false
    | .reply _ => getReplies n

def doSplitPipelineGetReply (start_pos end_pos : Nat) : Act Int := do
  let n : Int := end_pos - start_pos
  if n ≤ 0 then return SLOTS_MGRT_NOTHING
  else if ← getReplies n.toNat then return n
  else return SLOTS_MGRT_ERR

/-- C's `%ld`, as `hiredis` formats it. -/
def formatLong (v : Int) : Bytes :=
  (toString v).toList.map fun c => UInt8.ofNat c.toNat

def appendObj (_ : Unit) (obj : DumpObj) : Act Unit :=
  ask (.append [slotsrestoreName, obj.key, formatLong obj.ttlArg.toInt, obj.val])

def awaitSplit (_ : Unit) (start_pos i : Nat) : Act (Option Unit) := do
  if (← doSplitPipelineGetReply start_pos i) = SLOTS_MGRT_ERR then return none
  else return some ()

def pipelineSlotsRestore (objs : List DumpObj) : Act Int := do
  match ← Batch.batchLoop appendObj awaitSplit DumpObj.size REDIS_MGRT_CMD_PARAMS_SIZE objs 0 0 0 () with
  | none => return SLOTS_MGRT_ERR
  | some _ => return objs.length

/-! ### MGRT -/

def toLower (c : UInt8) : UInt8 := if 65 ≤ c ∧ c ≤ 90 then c + 32 else c

/-- `strcasecmp(s, "withpipeline") == 0`. -/
def isWithPipeline (s : Bytes) : Bool :=
  (cString s).map toLower == [119, 105, 116, 104, 112, 105, 112, 101, 108, 105, 110, 101]

/-- Batch migrate to `host:port`: SLOTS_MGRT_ERR, or the number of objects. -/
def mgrt (conf : MgrtConf) (objs : List DumpObj) : Act Int := do
  -- if use thread pool, each worker thread new one connect to mgrt
  if conf.slots_mgrt_threads > 0 then batchSendWithThreadPoolSlotsRestore conf objs
  else if ← slotsmgrtGetConnCtx conf then
    match ← ask (.select conf.db) with
    | .missing | .failed | .reply .error =>
      ask (.closeConn conf.host conf.port)
      return SLOTS_MGRT_ERR
    | .reply _ =>
      let ret ←
        if conf.mgrtType.any isWithPipeline && !conf.async then pipelineSlotsRestore objs
        else batchSendSlotsRestore objs
      ask (.closeConn conf.host conf.port)
      return ret
  else return SLOTS_MGRT_ERR

end RedisXSlot
