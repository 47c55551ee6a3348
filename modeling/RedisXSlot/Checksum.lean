import RedisXSlot.Slot
import RedisXSlot.Lib.Checksum

/-! The checksum of `crc32.c` is the standard one.

`crc32_update` takes up a byte at a time, with a table of the 256 remainders and an index
that passes through `char`. That is the division of CRC-32 one bit at a time, whatever the
sign of a `char` (`crc32_checksum_standard`). -/
namespace RedisXSlot
open Checksum

/-! ### The source with its `char` -/

/-- A `char` as an `int`. -/
def charToInt (signed : Bool) (c : UInt8) : BitVec 32 :=
  if signed then c.toBitVec.signExtend 32 else c.toBitVec.zeroExtend 32

/-- `(uint8_t)((char)crc ^ buf[i])`. -/
def crc32Index (signed : Bool) (crc : UInt32) (b : UInt8) : UInt8 :=
  UInt8.ofBitVec ((charToInt signed crc.toUInt8 ^^^ charToInt signed b).setWidth 8)

/-- `crc32_update`, after `crc32_init`. -/
def crc32Update (signed : Bool) (crc : UInt32) (buf : Bytes) : UInt32 :=
  ~~~ (buf.foldl (fun crc b => crc32tab.getD (crc32Index signed crc b).toNat 0 ^^^ (crc >>> 8)) (~~~ crc))

/-- CRC-32, one bit at a time: the lowest bit of a byte first, all ones before and against the end. -/
def ieeeCrc32 (msg : Bytes) : UInt32 :=
  UInt32.ofBitVec ((msg.flatMap fun b => bits b.toBitVec).foldl (feed IEEE_POLY.toBitVec) 0xffffffff ^^^ 0xffffffff)

/-- **The sign of `char` is cut off again.** -/
theorem crc32Index_eq (signed : Bool) (crc : UInt32) (b : UInt8) : crc32Index signed crc b = crc.toUInt8 ^^^ b := by
  have hlow (c : UInt8) : (charToInt signed c).setWidth 8 = c.toBitVec := by
    cases signed with
    | false =>
      show (c.toBitVec.setWidth 32).setWidth 8 = c.toBitVec
      rw [BitVec.setWidth_setWidth_of_le c.toBitVec (by decide), BitVec.setWidth_eq]
    | true =>
      show (c.toBitVec.signExtend 32).setWidth 8 = c.toBitVec
      apply BitVec.eq_of_getLsbD_eq
      intro i hi
      rw [BitVec.getLsbD_setWidth, BitVec.getLsbD_signExtend]
      simp [hi, show i < 32 by omega]
  apply UInt8.toBitVec_inj.mp
  rw [crc32Index, UInt8.toBitVec_ofBitVec, BitVec.setWidth_xor, hlow, hlow, UInt8.toBitVec_xor]

/-! ### The table -/

theorem crc32Shift_one (crc : UInt32) :
    (if crc &&& 1 ≠ 0 then (crc >>> 1) ^^^ IEEE_POLY else crc >>> 1).toBitVec = shift IEEE_POLY.toBitVec crc.toBitVec := by
  have hbit : crc &&& 1 ≠ 0 ↔ crc.toBitVec.getLsbD 0 = true := by
    rw [Ne, ← UInt32.toBitVec_inj, UInt32.toBitVec_and]
    show ¬ crc.toBitVec &&& 1#32 = 0#32 ↔ _
    rw [BitVec.and_one_eq_setWidth_ofBool_getLsbD]
    cases crc.toBitVec.getLsbD 0 <;> decide
  rw [shift, apply_ite UInt32.toBitVec]
  exact if_congr hbit rfl rfl

theorem crc32Shift_eq (n : Nat) (crc : UInt32) :
    (crc32Shift IEEE_POLY n crc).toBitVec = (shift IEEE_POLY.toBitVec)^[n] crc.toBitVec := by
  induction n generalizing crc with
  | zero => rfl
  | succ n ih => rw [crc32Shift, ih, crc32Shift_one, Function.iterate_succ_apply]

/-- `crc32_tabinit` makes the table of the remainders. -/
theorem crc32tab_getD (i : UInt8) : (crc32tab.getD i.toNat 0).toBitVec = table IEEE_POLY.toBitVec i.toBitVec := by
  have hi : i.toNat < 256 := i.toNat_lt
  have hget : crc32tab.getD i.toNat 0 = crc32Shift IEEE_POLY 8 (UInt32.ofNat i.toNat) := by
    rw [crc32tab, List.getD_eq_getElem?_getD, List.getElem?_map, List.getElem?_range hi]
    rfl
  have hword : (UInt32.ofNat i.toNat).toBitVec = i.toBitVec.setWidth 32 := by
    apply BitVec.eq_of_toNat_eq
    rw [UInt32.toNat_toBitVec, UInt32.toNat_ofNat', BitVec.toNat_setWidth, UInt8.toNat_toBitVec]
  rw [hget, crc32Shift_eq, table, hword]

/-- **A byte at a time**: eight steps of the division. -/
theorem crc32Step_eq (crc : UInt32) (b : UInt8) :
    (crc32Step crc b).toBitVec = feedWord IEEE_POLY.toBitVec crc.toBitVec b.toBitVec := by
  rw [crc32Step, UInt32.toBitVec_xor, crc32tab_getD, UInt8.toBitVec_xor]
  rfl

theorem foldl_crc32Step_eq (buf : Bytes) (crc : UInt32) : (buf.foldl crc32Step crc).toBitVec =
    (buf.map UInt8.toBitVec).foldl (feedWord IEEE_POLY.toBitVec) crc.toBitVec := by
  induction buf generalizing crc with
  | nil => rfl
  | cons b buf ih => rw [List.foldl_cons, ih, List.map_cons, List.foldl_cons, crc32Step_eq]

/-! ### The checksum -/

theorem crc32Checksum_eq_ieeeCrc32 (buf : Bytes) : crc32Checksum buf = ieeeCrc32 buf := by
  have hbits (r : BitVec 32) : (buf.flatMap fun b => bits b.toBitVec).foldl (feed IEEE_POLY.toBitVec) r =
      (buf.map UInt8.toBitVec).foldl (feedWord IEEE_POLY.toBitVec) r := by
    induction buf generalizing r with
    | nil => rfl
    | cons b buf ih =>
      rw [List.flatMap_cons, List.foldl_append, foldl_feed_eq_feedWord _ (by decide), ih, List.map_cons, List.foldl_cons]
  apply UInt32.toBitVec_inj.mp
  rw [crc32Checksum, UInt32.toBitVec_not, foldl_crc32Step_eq, ieeeCrc32, UInt32.toBitVec_ofBitVec, hbits,
    BitVec.xor_comm]
  exact (BitVec.allOnes_xor).symm

/-- **The checksum is CRC-32**: for every string, whether `char` is signed or not. -/
theorem crc32_checksum_standard (signed : Bool) (buf : Bytes) :
    crc32Update signed 0 buf = ieeeCrc32 buf ∧ crc32Checksum buf = ieeeCrc32 buf := by
  refine ⟨?_, crc32Checksum_eq_ieeeCrc32 buf⟩
  rw [← crc32Checksum_eq_ieeeCrc32, crc32Update, crc32Checksum]
  congr 2
  funext crc b
  rw [crc32Index_eq, crc32Step]

end RedisXSlot
