import RedisXSlot.Lib.Owned
import RedisXSlot.Restore

/-! Who holds what while commands run in threads of their own.

With `async` a command blocks its client, retains its arguments and starts a thread that
runs it, unblocks the client and frees the arguments; if the thread cannot be started it
frees them itself and aborts. Here a call is the process of the references it takes and
gives back and of the objects it reads, from the host that runs the command to the thread
and to the reply. What the command does to the keyspace is not looked at, and of a migration
only that it reads its arguments: the dump objects, values and texts it makes for itself are
in `Release`. A reference counts as taken or given back at once, although the module
retains and frees strings in its threads without the lock. -/
namespace RedisXSlot.AsyncBlock

/-- What a call has references to. -/
inductive Kind where
  /-- The argument `argv[i]`. -/
  | string (i : Nat)
  /-- The context and the argument vector of the host. -/
  | caller
  | callerArgv
  /-- `bg_call_params` and its `argv`. -/
  | params
  | argv
  | client
  /-- The thread-safe context. -/
  | context
  /-- `r`, the result that is passed on to the reply. -/
  | result
  /-- The array of the objects, and the object at a place of it. -/
  | objs
  | obj (i : Nat)
  deriving DecidableEq

structure Ref where
  call : Nat
  kind : Kind
  deriving DecidableEq

/-- The context and the argument vector that a function is called with. -/
structure View where
  ctx : Kind
  argv : Kind

def View.host : View := ⟨.caller, .callerArgv⟩

def View.thread : View := ⟨.context, .argv⟩

section Call
variable (c : Nat)

def touch (kinds : List Kind) (k : Proc Ref) : Proc Ref := Proc.touchAll (kinds.map (Ref.mk c)) k

def take (kind : Kind) (k : Proc Ref) : Proc Ref := .take ⟨c, kind⟩ k

def give (kind : Kind) (k : Proc Ref) : Proc Ref := .give ⟨c, kind⟩ k

/-! ### Threads -/

/-- `takeAndRef` of the arguments. -/
def retain : List Nat → Proc Ref → Proc Ref
  | [], k => k
  | i :: is, k => touch c [.params, .argv, .caller, .callerArgv, .string i] (take c (.string i) (retain is k))

/-- "Free the arguments": the strings, then `argv`, then the parameters. -/
def freeArguments (ctx : Kind) : List Nat → Proc Ref → Proc Ref
  | [], k => touch c [.params] (give c .argv (give c .params k))
  | i :: is, k => touch c [.params, .argv, ctx] (give c (.string i) (freeArguments ctx is k))

/-- `SlotsMGRTAsyncBlock_ThreadMain`. Which of its arguments the migration reads is up to it; it
does nothing else here. -/
def mgrtThread (n : Nat) (reads : List (Fin n)) : Proc Ref :=
  touch c [.params, .client] <| take c .context <|
  -- dispatchCmd
  touch c [.params, .context, .argv] <| touch c (reads.map fun i => .string i.val) <|
  -- Unblock client
  touch c [.params] <| give c .client <|
  freeArguments c .context (List.range n) <|
  give c .context .done

/-- `SlotsMGRTAsyncBlock_RedisCommand`; `created` is whether `pthread_create` succeeds. -/
def mgrtAsyncBlock (n : Nat) (reads : List (Fin n)) (created : Bool) (k : Proc Ref) : Proc Ref :=
  take c .params <| touch c [.caller] <| take c .client <| touch c [.params] <|
  take c .argv <| touch c [.params] <| retain c (List.range n) <|
  if created then .fork (mgrtThread c n reads) k
  else
    freeArguments c .caller (List.range n) <|
    -- `arg->bc`, when `arg` is freed.
    touch c [.params] <| give c .client <|
    touch c [.caller] k

/-! ### SLOTSRESTORE -/

/-- `FreeDumpObjs`. -/
def freeDumpObjs (v : View) : List Nat → Proc Ref → Proc Ref
  | [], k => give c .objs k
  | i :: is, k => touch c [.objs, .obj i, v.ctx] (give c (.string (i * 3 + 3)) (give c (.obj i) (freeDumpObjs v is k)))

/-- The loop of `restoreMutli`, with `restoreOneWithReplace`: RESTORE may answer with an
error, or with nothing. -/
def restoreMutli (v : View) : List Nat → Proc Ref → Proc Ref
  | [], k => k
  | i :: is, k =>
    touch c [.objs, .obj i, .string (i * 3 + 1), .string (i * 3 + 3), v.ctx] <| .pick fun error =>
      if error then k
      else .pick fun nothing =>
        if nothing then restoreMutli v is k else touch c [.string (i * 3 + 1), v.ctx] (restoreMutli v is k)

/-- The loop of `slotsRestoreCmd`, with `m` rounds to come at the round `i`. -/
def slotsRestoreLoop (v : View) (argv : List Bytes) : Nat → Nat → Proc Ref → Proc Ref
  | 0, i, k => restoreMutli c v (List.range i) (freeDumpObjs c v (List.range i) k)
  | m + 1, i, k =>
    touch c [v.argv, .string (i * 3 + 2)] <|
      match string2ll (argv.getD (i * 3 + 2) []) with
      | none => freeDumpObjs c v (List.range i) k
      | some _ =>
        take c (.obj i) <| touch c [v.argv, .obj i] <|
        touch c [v.ctx, .string (i * 3 + 3)] <| take c (.string (i * 3 + 3)) <|
        touch c [.objs] (slotsRestoreLoop v argv m (i + 1) k)

def slotsRestoreCmd (v : View) (argv : List Bytes) (k : Proc Ref) : Proc Ref :=
  take c .objs (slotsRestoreLoop c v argv ((argv.length - 1) / 3) 0 k)

/-- The host replies with `SlotsRestoreAsyncBlock_Reply`, unless the client is gone, and
then calls `SlotsRestoreAsyncBlock_FreeData`. -/
def restoreReply : Proc Ref := .pick fun gone => if gone then give c .result .done else touch c [.result] (give c .result .done)

/-- `SlotsRestoreAsyncBlock_ThreadMain`. -/
def restoreThread (argv : List Bytes) : Proc Ref :=
  touch c [.params, .client] <| take c .context <| take c .result <|
  touch c [.params] <| slotsRestoreCmd c .thread argv <| touch c [.result] <|
  -- Unblock client
  touch c [.params] <| give c .client <| .fork (restoreReply c) <|
  freeArguments c .context (List.range argv.length) <|
  give c .context .done

/-- `SlotsRestoreAsyncBlock_RedisCommand`. -/
def restoreAsyncBlock (argv : List Bytes) (created : Bool) (k : Proc Ref) : Proc Ref :=
  if badArity argv then touch c [.caller] k
  else
    touch c [.caller] <| take c .client <| touch c [.client] <|
    take c .params <| touch c [.params] <|
    take c .argv <| touch c [.params] <| retain c (List.range argv.length) <|
    if created then .fork (restoreThread c argv) k
    else
      freeArguments c .caller (List.range argv.length) <|
      -- `bc`
      give c .client <|
      touch c [.caller] k

/-! ### Calls -/

/-- The host holds the arguments while the function of the command runs. -/
def hostCall (n : Nat) (body : Proc Ref → Proc Ref) : Proc Ref :=
  Proc.takeAll ((.caller :: .callerArgv :: (List.range n).map .string).map (Ref.mk c)) <|
  body <|
  Proc.giveAll ((.caller :: .callerArgv :: (List.range n).map .string).map (Ref.mk c)) .done

/-- The commands that can block: those of `SlotsDispatchRedisCommand`, and SLOTSRESTORE. -/
inductive Command where
  | dispatch (argv : List Bytes) (reads : List (Fin argv.length)) (async created : Bool)
  | restore (argv : List Bytes) (async created : Bool)

def Command.proc : Command → Proc Ref
  | .dispatch argv reads async created => hostCall c argv.length fun k =>
    if async then mgrtAsyncBlock c argv.length reads created k
    else touch c [.caller, .callerArgv] (touch c (reads.map fun i => .string i.val) k)
  | .restore argv async created => hostCall c argv.length fun k =>
    if async then restoreAsyncBlock c argv created k
    else if badArity argv then touch c [.caller] k
    else slotsRestoreCmd c .host argv (touch c [.caller] k)

end Call

/-- A migration whose thread cannot be started. -/
def Command.Unstarted : Command → Prop
  | .dispatch _ _ async created => async = true ∧ created = false
  | .restore .. => False

instance : DecidablePred Command.Unstarted
  | .dispatch _ _ async created => inferInstanceAs (Decidable (async = true ∧ created = false))
  | .restore .. => inferInstanceAs (Decidable False)

end RedisXSlot.AsyncBlock
