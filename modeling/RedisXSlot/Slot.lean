import RedisXSlot.Bytes

/-! The slot of a key.

`slots_num` hashes the hash tag of a key, the part between the first brace and the next
closing one, or the whole key if it has none, and masks the checksum with the number of
slots. It is handed the key as a C string. Its lengths and positions
are `int`s in C and have no bound here: a key is below `2 ^ 31` bytes long. -/
namespace RedisXSlot

/-! ### `crc32.c` -/

def IEEE_POLY : UInt32 := 0xedb88320

/-- The inner loop of `crc32_tabinit`. -/
def crc32Shift (poly : UInt32) : Nat → UInt32 → UInt32
  | 0, crc => crc
  | n + 1, crc => crc32Shift poly n (if crc &&& 1 ≠ 0 then (crc >>> 1) ^^^ poly else crc >>> 1)

def crc32tab : List UInt32 := (List.range 256).map fun i => crc32Shift IEEE_POLY 8 (UInt32.ofNat i)

/-- One byte; the index is the low byte of `crc` against it, whether `char` is signed or not. -/
def crc32Step (crc : UInt32) (b : UInt8) : UInt32 :=
  crc32tab.getD (crc.toUInt8 ^^^ b).toNat 0 ^^^ (crc >>> 8)

def crc32Checksum (buf : Bytes) : UInt32 := ~~~ (buf.foldl crc32Step (~~~ (0 : UInt32)))

/-! ### Hash tags -/

/-- `slots_tag`: what stands between the first `{` and the next `}` of the C string `s`. -/
def slotsTag (s : Bytes) : Option Bytes :=
  let rest := s.dropWhile (· != 123)
  if rest = [] then none
  else
    let tag := rest.tail.takeWhile (· != 125)
    if tag.length = rest.tail.length then none else some tag

/-- The checksum of a key: that of its tag, if it has one. -/
def slotsCrc (key : Bytes) : UInt32 := crc32Checksum ((slotsTag (cString key)).getD (cString key))

def hasTag (key : Bytes) : Bool := (slotsTag (cString key)).isSome

/-- `slots_num`: `crc & (hash_slots_size - 1)`. -/
def slotsNum (hash_slots_size : UInt32) (key : Bytes) : Nat := (slotsCrc key &&& (hash_slots_size - 1)).toNat

/-- **The slot of a key is a slot**, for any positive number of slots. -/
theorem slotsNum_lt {hash_slots_size : UInt32} (h : 0 < hash_slots_size.toNat) (key : Bytes) :
    slotsNum hash_slots_size key < hash_slots_size.toNat := by
  have hone : (1 : UInt32) ≤ hash_slots_size := UInt32.le_iff_toNat_le.mpr (Nat.succ_le_of_lt h)
  have hsub : (hash_slots_size - 1).toNat = hash_slots_size.toNat - 1 :=
    UInt32.toNat_sub_of_le _ _ hone
  have hle : slotsNum hash_slots_size key ≤ (hash_slots_size - 1).toNat := by
    rw [slotsNum, UInt32.toNat_and]
    exact Nat.and_le_right
  omega

-- "123456789" and "{ab}c"
example : crc32Checksum [49, 50, 51, 52, 53, 54, 55, 56, 57] = 0xcbf43926 := by decide +kernel
example : slotsTag [123, 97, 98, 125, 99] = some [97, 98] := by decide

end RedisXSlot
