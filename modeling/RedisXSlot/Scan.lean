import RedisXSlot.Restore
import RedisXSlot.SlotIndex

/-! SLOTSSCAN: going through a slot with a cursor.

A call emits the bucket at the cursor, and while the dictionary is rehashing also the
buckets of the larger table that the smaller one's is cut up into; then it adds one to the
cursor from its high bits down. Nothing is kept between two calls. -/
namespace RedisXSlot

/-- An `unsigned long`. -/
abbrev ULong := BitVec 64

/-! ### `dep/dict.c` -/

/-- The loop of `rev`: swap ever smaller halves. -/
def revLoop : Nat → Nat → ULong → ULong → ULong
  | 0, _, _, v => v
  | fuel + 1, s, mask, v =>
    let s := s >>> 1
    if s > 0 then
      let mask := mask ^^^ (mask <<< s)
      revLoop fuel s mask (((v >>> s) &&& mask) ||| ((v <<< s) &&& ~~~mask))
    else v

/-- Function to reverse bits. -/
def rev (v : ULong) : ULong := revLoop 64 64 (~~~0) v

/-- Set unmasked bits so incrementing the reversed cursor operates on the masked bits. -/
def nextCursor (m v : ULong) : ULong := rev (rev (v ||| ~~~m) + 1)

section
variable {K V : Type}

def DictHt.mask (ht : DictHt K V) : ULong := BitVec.ofNat 64 ht.sizemask

/-- The entries at the cursor. -/
def DictHt.emit (ht : DictHt K V) (v : ULong) : List (K × V) := ht.bucket (v &&& ht.mask).toNat

/-- The loop over the larger table; it comes to the end of the smaller one's bucket in at most
as many steps as the larger one has buckets. -/
def scanExpansions (t1 : DictHt K V) (m0 : ULong) : Nat → ULong → List (K × V) × ULong
  | 0, v => ([], v)
  | fuel + 1, v =>
    let es := t1.emit v
    let v := nextCursor t1.mask v
    -- Continue while bits covered by mask difference is non-zero
    if v &&& (m0 ^^^ t1.mask) ≠ 0 then
      let (rest, v) := scanExpansions t1 m0 fuel v
      (es ++ rest, v)
    else (es, v)

/-- `m_dictScan`: what is emitted, and the next cursor. -/
def Dict.scan (d : Dict K V) (v : ULong) : List (K × V) × ULong :=
  if d.size = 0 then ([], 0)
  else if !d.isRehashing then (d.ht0.emit v, nextCursor d.ht0.mask v)
  else
    -- Make sure t0 is the smaller and t1 is the bigger table
    let (t0, t1) := if d.ht0.size > d.ht1.size then (d.ht1, d.ht0) else (d.ht0, d.ht1)
    let (rest, v') := scanExpansions t1 t0.mask t1.size v
    (t0.emit v ++ rest, v')

end

/-! ### The command -/

/-- How often `SlotsMGRT_Scan` may go round again: `loops` is a `long`. The one that is the
least `long` wraps when it is counted down, which is undefined in C. -/
def moreLoops (count : Nat) : Nat :=
  let loops := ((count * 10 : Nat) : Int).bmod (2 ^ 64)
  ((loops - 1).bmod (2 ^ 64)).toNat

/-- The loop of `SlotsMGRT_Scan`, the keys `l` so far. -/
def scanLoop (d : Dict Bytes UInt32) (count : Nat) : Nat → ULong → List Bytes → ULong × List Bytes
  | 0, cursor, l => ((d.scan cursor).2, l ++ (d.scan cursor).1.map Prod.fst)
  | loops + 1, cursor, l =>
    let (es, cursor) := d.scan cursor
    let l := l ++ es.map Prod.fst
    if cursor ≠ 0 ∧ l.length < count then scanLoop d count loops cursor l else (cursor, l)

/-- `SlotsMGRT_Scan`. -/
def slotsmgrtScan (d : Dict Bytes UInt32) (count : Nat) (cursor : ULong) : ULong × List Bytes :=
  scanLoop d count (moreLoops count) cursor []

/-- The reply of SLOTSSCAN. -/
inductive ScanReply where
  | wrongArity
  | error (msg : String)
  | page (cursor : Bytes) (keys : List Bytes)
  deriving DecidableEq

/-- `strcasecmp(s, "count") == 0`. -/
def isCount (s : Bytes) : Bool := (cString s).map (fun c => if 65 ≤ c ∧ c ≤ 90 then c + 32 else c) = [99, 111, 117, 110, 116]

/-- The count of the command; `none` is a syntax error. -/
def scanCount (argv : List Bytes) : Option Nat :=
  if argv.length ≠ 5 then some 10
  else if !isCount (argv.getD 3 []) then none
  else
    match string2ll (argv.getD 4 []) with
    | none => none
    | some v => if v < 1 then none else some v.toNat

/-- A `long long` put into an `int`. -/
def longToInt (n : Int) : Int := n.bmod (2 ^ 32)

/-- `SlotsScan_RedisCommand`, `slotsscan slotnum cursor [COUNT count]`, in database `db`. The slot is
not checked: `none` is one that is out of range. -/
def slotsScanRedisCommand (conf : SlotsMetaInfo) (s : Slots) (db : Nat) (argv : List Bytes) : Option ScanReply :=
  if argv.length ≠ 3 ∧ argv.length ≠ 5 then some .wrongArity
  else
    match string2ll (argv.getD 1 []), string2ll (argv.getD 2 []), scanCount argv with
    | some slot, some cursor, some count =>
      let slot := longToInt slot
      if 0 ≤ slot ∧ slot < conf.hash_slots_size.toNat then
        let r := slotsmgrtScan (s.table db slot.toNat) count (BitVec.ofInt 64 cursor)
        some (.page (ll2string (List.replicate REDIS_LONGSTR_SIZE 0) r.1.toInt) r.2)
      else none
    | _, _, _ => some (.error REDISXSLOT_ERRORMSG_SYNTAX)

example : rev 6 = 0x6000000000000000 := by decide

end RedisXSlot
