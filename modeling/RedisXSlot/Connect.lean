import RedisXSlot.Util

/-! The name of a connection, and what is written when it cannot be made.

A connection is cached under host, port and thread id. When a connect fails, that name
and the error text of `hiredis` go through `sprintf` into an array of 200 bytes on the
stack, and nobody looks whether there is room for them (`overruns_iff`). -/
namespace RedisXSlot

/-- A thread id. -/
structure Tid where
  id : Nat
  le : id ≤ LLONG_MAX
  deriving DecidableEq, Repr

/-- `slot_mgrt_connet_meta`, as far as it names a connection. -/
structure Target where
  host : Bytes
  port : Bytes

/-- `getConnName`: `host:port@tid`. -/
def getConnName (target : Target) (w : Tid) : Bytes :=
  target.host ++ [58] ++ target.port ++ [64] ++ ll2string (List.replicate REDIS_LONGSTR_SIZE 0) w.id

/-- What `redisConnect` leaves behind: a connection, or a set `err` and its `errstr`. -/
inductive ConnectAnswer where
  | connected
  | err (errstr : Bytes)
  deriving DecidableEq, Repr

/-- `char errLog[200]`. -/
def ERR_LOG_SIZE : Nat := 200

/-- `sprintf(errLog, "Err: slotsmgrt connect to target %s, error = '%s'", name, errstr)`. -/
def connectErrLog (name errstr : Bytes) : Bytes :=
  [69, 114, 114, 58, 32, 115, 108, 111, 116, 115, 109, 103, 114, 116, 32, 99, 111, 110, 110, 101, 99, 116, 32, 116, 111,
    32, 116, 97, 114, 103, 101, 116, 32] ++ cString name ++
    [44, 32, 101, 114, 114, 111, 114, 32, 61, 32, 39] ++ cString errstr ++ [39]

/-- The connect fails, and the text of it with its NUL is longer than `errLog`. -/
def ConnectAnswer.overruns (name : Bytes) : ConnectAnswer → Bool
  | .connected => false
  | .err errstr => (connectErrLog name errstr).length + 1 > ERR_LOG_SIZE

/-- There is room for 154 bytes of name and error text. -/
theorem overruns_iff {name errstr : Bytes} :
    (ConnectAnswer.err errstr).overruns name = true ↔ 154 < (cString name).length + (cString errstr).length := by
  simp only [ConnectAnswer.overruns, connectErrLog, ERR_LOG_SIZE, List.length_append, List.length_cons, List.length_nil,
    decide_eq_true_eq]
  omega

example : (connectErrLog [104, 58, 49, 64, 55] []).map (Char.ofNat ·.toNat) =
    "Err: slotsmgrt connect to target h:1@7, error = ''".toList := by decide

end RedisXSlot
