import RedisXSlot.Bytes
import RedisXSlot.Lib.SipHash

/-! The hash of `siphash.c` is SipHash-1-2.

The source reads whole words from the buffer, and what is left over in a `switch` that falls
through. The variant for texts that differ in case lowers every byte as it reads it, so it is
the hash of the lowered text, which is nowhere made. -/
namespace RedisXSlot

/-! ### `siphash.c` -/

def siptlw (c : UInt8) : UInt8 := if 65 ≤ c ∧ c ≤ 90 then c + (97 - 65) else c

/-- `ROTL`. -/
def rotl (x : BitVec 64) (b : Nat) : BitVec 64 := (x <<< b) ||| (x >>> (64 - b))

/-- `SIPROUND`. -/
def sipround (s : SipHash.State) : SipHash.State :=
  let v0 := s.v0 + s.v1
  let v1 := rotl s.v1 13
  let v1 := v1 ^^^ v0
  let v0 := rotl v0 32
  let v2 := s.v2 + s.v3
  let v3 := rotl s.v3 16
  let v3 := v3 ^^^ v2
  let v0 := v0 + v3
  let v3 := rotl v3 21
  let v3 := v3 ^^^ v0
  let v2 := v2 + v1
  let v1 := rotl v1 17
  let v1 := v1 ^^^ v2
  let v2 := rotl v2 32
  ⟨v0, v1, v2, v3⟩

section Variant
variable (lower : UInt8 → UInt8)

/-- A byte as it is read. -/
def sipByte (c : UInt8) : BitVec 64 := (lower c).toBitVec.setWidth 64

/-- `U8TO64_LE` and `U8TO64_LE_NOCASE`. -/
def u8to64 (p0 p1 p2 p3 p4 p5 p6 p7 : UInt8) : BitVec 64 :=
  sipByte lower p0 ||| sipByte lower p1 <<< 8 ||| sipByte lower p2 <<< 16 ||| sipByte lower p3 <<< 24 |||
    sipByte lower p4 <<< 32 ||| sipByte lower p5 <<< 40 ||| sipByte lower p6 <<< 48 ||| sipByte lower p7 <<< 56

/-- `for (; in != end; in += 8)`, with the bytes that are left. -/
def sipLoop (s : SipHash.State) : Bytes → SipHash.State × Bytes
  | p0 :: p1 :: p2 :: p3 :: p4 :: p5 :: p6 :: p7 :: inp =>
    let m := u8to64 lower p0 p1 p2 p3 p4 p5 p6 p7
    let s := { s with v3 := s.v3 ^^^ m }
    let s := sipround s
    sipLoop { s with v0 := s.v0 ^^^ m } inp
  | left => (s, left)

/-- `switch (left)`: the last byte comes first, and every case falls through to the one below. -/
def sipLeft (b : BitVec 64) : Nat → Bytes → BitVec 64
  | _, [] => b
  | i, c :: inp => sipLeft b (i + 1) inp ||| sipByte lower c <<< (8 * i)

/-- `siphash` and `siphash_nocase`, which differ in how they read the bytes of the text. -/
def siphashWith (inp : Bytes) (k : Fin 16 → UInt8) : BitVec 64 :=
  let s : SipHash.State := ⟨0x736f6d6570736575, 0x646f72616e646f6d, 0x6c7967656e657261, 0x7465646279746573⟩
  let k0 := u8to64 id (k 0) (k 1) (k 2) (k 3) (k 4) (k 5) (k 6) (k 7)
  let k1 := u8to64 id (k 8) (k 9) (k 10) (k 11) (k 12) (k 13) (k 14) (k 15)
  let b := BitVec.ofNat 64 inp.length <<< 56
  let s := { s with v3 := s.v3 ^^^ k1 }
  let s := { s with v2 := s.v2 ^^^ k0 }
  let s := { s with v1 := s.v1 ^^^ k1 }
  let s := { s with v0 := s.v0 ^^^ k0 }
  let (s, left) := sipLoop lower s inp
  let b := sipLeft lower b 0 left
  let s := { s with v3 := s.v3 ^^^ b }
  let s := sipround s
  let s := { s with v0 := s.v0 ^^^ b }
  let s := { s with v2 := s.v2 ^^^ 0xff }
  let s := sipround s
  let s := sipround s
  s.v0 ^^^ s.v1 ^^^ s.v2 ^^^ s.v3

end Variant

def siphash (inp : Bytes) (k : Fin 16 → UInt8) : BitVec 64 := siphashWith id inp k

def siphashNocase (inp : Bytes) (k : Fin 16 → UInt8) : BitVec 64 := siphashWith siptlw inp k

/-! ### Refinement -/

theorem sipround_eq (s : SipHash.State) : sipround s = SipHash.round s := rfl

section Variant
variable (lower : UInt8 → UInt8)

theorem u8to64_eq (p0 p1 p2 p3 p4 p5 p6 p7 : UInt8) : u8to64 lower p0 p1 p2 p3 p4 p5 p6 p7 =
    SipHash.littleEndian ([p0, p1, p2, p3, p4, p5, p6, p7].map lower) := by
  simp only [u8to64, sipByte, SipHash.littleEndian, SipHash.word, List.map_cons, List.map_nil, BitVec.shiftLeft_or_distrib,
    ← BitVec.shiftLeft_add, BitVec.or_assoc]
  simp

theorem sipLoop_append {l : Bytes} (h : l.length = 8) (s : SipHash.State) (inp : Bytes) :
    sipLoop lower s (l ++ inp) = sipLoop lower (SipHash.compress 1 s (SipHash.littleEndian (l.map lower))) inp := by
  match l, h with
  | [p0, p1, p2, p3, p4, p5, p6, p7], _ =>
    rw [← u8to64_eq]
    rfl

theorem sipLoop_left {l : Bytes} (h : l.length < 8) (s : SipHash.State) : sipLoop lower s l = (s, l) := by
  match l, h with
  | [], _ => rfl
  | [_], _ => rfl
  | [_, _], _ => rfl
  | [_, _, _], _ => rfl
  | [_, _, _, _], _ => rfl
  | [_, _, _, _, _], _ => rfl
  | [_, _, _, _, _, _], _ => rfl
  | [_, _, _, _, _, _, _], _ => rfl
  | _ :: _ :: _ :: _ :: _ :: _ :: _ :: _ :: _, h =>
    simp only [List.length_cons] at h
    omega

theorem sipLeft_eq (b : BitVec 64) (i : Nat) (l : Bytes) :
    sipLeft lower b i l = SipHash.littleEndian (l.map lower) <<< (8 * i) ||| b := by
  induction l generalizing i with
  | nil => simp [sipLeft, SipHash.littleEndian]
  | cons c l ih =>
    rw [sipLeft, ih, List.map_cons, SipHash.littleEndian, BitVec.shiftLeft_or_distrib, ← BitVec.shiftLeft_add, BitVec.or_comm,
      BitVec.or_assoc, Nat.mul_add, Nat.add_comm (8 * i)]
    rfl

/-- **The loop and the switch** take up the words of the padded text. -/
theorem sipLoop_spec (len n : Nat) : ∀ (inp : Bytes) (s : SipHash.State), inp.length / 8 = n →
    SipHash.compress 1 (sipLoop lower s inp).1 (sipLeft lower (BitVec.ofNat 64 len <<< 56) 0 (sipLoop lower s inp).2) =
      (SipHash.words (inp.map lower ++ (List.replicate (7 - inp.length % 8) 0 ++ [UInt8.ofNat len]))).foldl
        (SipHash.compress 1) s := by
  induction n with
  | zero =>
    intro inp s hn
    have hlen : inp.length < 8 := by omega
    have hlast := SipHash.littleEndian_last (l := inp.map lower) (by rw [List.length_map]; exact hlen) len
    have hblock : (inp.map lower ++ (List.replicate (7 - inp.length) 0 ++ [UInt8.ofNat len])).length = 8 := by
      rw [List.length_append, List.length_append, List.length_map, List.length_replicate, List.length_singleton]
      omega
    have hwords := SipHash.words_append hblock []
    rw [List.append_nil] at hwords
    rw [List.length_map] at hlast
    rw [sipLoop_left lower hlen, sipLeft_eq, Nat.mod_eq_of_lt hlen, hwords, hlast]
    simp [SipHash.words]
  | succ n ih =>
    intro inp s hn
    obtain ⟨l, r, rfl, hl⟩ : ∃ l r, inp = l ++ r ∧ l.length = 8 :=
      ⟨inp.take 8, inp.drop 8, (List.take_append_drop 8 inp).symm, by rw [List.length_take]; omega⟩
    rw [List.length_append, hl] at hn
    have hmod : (l ++ r).length % 8 = r.length % 8 := by
      rw [List.length_append, hl]
      omega
    have hmap : (l.map lower).length = 8 := by rw [List.length_map, hl]
    rw [sipLoop_append lower hl, ih r _ (by omega), hmod, List.map_append, List.append_assoc, SipHash.words_append hmap,
      List.foldl_cons]

theorem siphashWith_eq (inp : Bytes) (k : Fin 16 → UInt8) : siphashWith lower inp k =
    SipHash.hash 1 2 (SipHash.littleEndian ((List.ofFn k).take 8)) (SipHash.littleEndian ((List.ofFn k).drop 8))
      (inp.map lower) := by
  have hk0 := u8to64_eq id (k 0) (k 1) (k 2) (k 3) (k 4) (k 5) (k 6) (k 7)
  have hk1 := u8to64_eq id (k 8) (k 9) (k 10) (k 11) (k 12) (k 13) (k 14) (k 15)
  rw [List.map_id] at hk0 hk1
  have hkey : (List.ofFn k).take 8 = [k 0, k 1, k 2, k 3, k 4, k 5, k 6, k 7] ∧
      (List.ofFn k).drop 8 = [k 8, k 9, k 10, k 11, k 12, k 13, k 14, k 15] := by
    constructor <;> rfl
  rw [hkey.1, hkey.2, ← hk0, ← hk1]
  unfold SipHash.hash SipHash.pad
  rw [List.length_map, ← sipLoop_spec lower inp.length (inp.length / 8) inp _ rfl]
  rfl

end Variant

/-- **The hash is SipHash-1-2** with the seed as its key, and the variant for texts that
differ in case is that of the lowered text. -/
theorem siphash_is_sipHash12 (inp : Bytes) (k : Fin 16 → UInt8) :
    siphash inp k = SipHash.hash 1 2 (SipHash.littleEndian ((List.ofFn k).take 8))
        (SipHash.littleEndian ((List.ofFn k).drop 8)) inp ∧
      siphashNocase inp k = siphash (inp.map siptlw) k := by
  unfold siphash siphashNocase
  rw [siphashWith_eq, siphashWith_eq, siphashWith_eq, List.map_id, List.map_id]
  exact ⟨rfl, rfl⟩

end RedisXSlot
