import Mathlib.Logic.Function.Iterate

/-! SipHash-c-d.

A keyed state of four words takes up the message a word at a time, with `c` rounds for each;
`d` more rounds end it. The message is filled up with zeros to whole words, and the last byte
is its length. -/
namespace SipHash

abbrev Word := BitVec 64

structure State where
  v0 : Word
  v1 : Word
  v2 : Word
  v3 : Word

/-- Add, rotate, exclusive or. -/
def mix (a b : Word) (r : Nat) : Word × Word := (a + b, b.rotateLeft r ^^^ (a + b))

/-- Two pairs are mixed, then the words of one with those of the other. -/
def round (s : State) : State :=
  let (v0, v1) := mix s.v0 s.v1 13
  let (v2, v3) := mix s.v2 s.v3 16
  let (v0, v3) := mix (v0.rotateLeft 32) v3 21
  let (v2, v1) := mix v2 v1 17
  ⟨v0, v1, v2.rotateLeft 32, v3⟩

def init (k0 k1 : Word) : State :=
  ⟨0x736f6d6570736575 ^^^ k0, 0x646f72616e646f6d ^^^ k1, 0x6c7967656e657261 ^^^ k0, 0x7465646279746573 ^^^ k1⟩

def compress (c : Nat) (s : State) (m : Word) : State :=
  let s := round^[c] { s with v3 := s.v3 ^^^ m }
  { s with v0 := s.v0 ^^^ m }

def finalize (d : Nat) (s : State) : Word :=
  let s := round^[d] { s with v2 := s.v2 ^^^ 0xff }
  s.v0 ^^^ s.v1 ^^^ s.v2 ^^^ s.v3

/-- A byte as a word. -/
def word (b : UInt8) : Word := b.toBitVec.setWidth 64

def littleEndian : List UInt8 → Word
  | [] => 0
  | b :: bs => word b ||| littleEndian bs <<< 8

/-- The words of the whole blocks of eight bytes. -/
def words : List UInt8 → List Word
  | b0 :: b1 :: b2 :: b3 :: b4 :: b5 :: b6 :: b7 :: bs => littleEndian [b0, b1, b2, b3, b4, b5, b6, b7] :: words bs
  | _ => []

def pad (msg : List UInt8) : List UInt8 := msg ++ (List.replicate (7 - msg.length % 8) 0 ++ [UInt8.ofNat msg.length])

def hash (c d : Nat) (k0 k1 : Word) (msg : List UInt8) : Word :=
  finalize d ((words (pad msg)).foldl (compress c) (init k0 k1))

/-- The first vector of SipHash-2-4, with the bytes 0 to 15 as the key. -/
example : hash 2 4 0x0706050403020100 0x0f0e0d0c0b0a0908 [] = 0x726fdb47dd0e0e31 := by decide +kernel

theorem words_append {l : List UInt8} (h : l.length = 8) (r : List UInt8) : words (l ++ r) = littleEndian l :: words r := by
  match l, h with
  | [_, _, _, _, _, _, _, _], _ => rfl

theorem littleEndian_append (l r : List UInt8) :
    littleEndian (l ++ r) = littleEndian l ||| littleEndian r <<< (8 * l.length) := by
  induction l with
  | nil => simp [littleEndian]
  | cons b l ih =>
    rw [List.cons_append, littleEndian, littleEndian, ih, BitVec.shiftLeft_or_distrib, ← BitVec.shiftLeft_add, BitVec.or_assoc,
      List.length_cons, Nat.mul_add]

theorem littleEndian_zeros (n : Nat) : littleEndian (List.replicate n 0) = 0 := by
  induction n with
  | zero => rfl
  | succ n ih =>
    rw [List.replicate_succ, littleEndian, ih]
    rfl

/-- The length is cut off at a byte. -/
theorem word_length (n : Nat) : word (UInt8.ofNat n) <<< 56 = BitVec.ofNat 64 n <<< 56 := by
  apply BitVec.eq_of_toNat_eq
  simp only [word, BitVec.toNat_shiftLeft, BitVec.toNat_setWidth, BitVec.toNat_ofNat, Nat.shiftLeft_eq, UInt8.toNat_toBitVec,
    UInt8.toNat_ofNat']
  omega

/-- The last word of a message: its last bytes, below its length. -/
theorem littleEndian_last {l : List UInt8} (h : l.length < 8) (n : Nat) :
    littleEndian (l ++ (List.replicate (7 - l.length) 0 ++ [UInt8.ofNat n])) = littleEndian l ||| BitVec.ofNat 64 n <<< 56 := by
  rw [littleEndian_append, littleEndian_append, littleEndian_zeros, List.length_replicate]
  have hone : littleEndian [UInt8.ofNat n] = word (UInt8.ofNat n) := by simp [littleEndian]
  have hzero : ∀ v : Word, 0 ||| v = v := fun _ => BitVec.zero_or
  rw [hone, hzero, ← BitVec.shiftLeft_add, ← word_length]
  congr 2
  omega

end SipHash
