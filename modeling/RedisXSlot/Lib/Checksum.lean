import Mathlib.Data.Nat.Bitwise
import Mathlib.Logic.Function.Iterate
import Mathlib.Tactic.NormNum

/-! Dividing by a polynomial over the field with two elements, bit by bit and by table.

The register holds the remainder with its coefficients reversed: the lowest bit leaves
first. `feed` takes up one bit of the message. Everything is linear: the remainder of an
exclusive or is that of the parts, and so `k` bits can be fed at once, with a table of the
`2 ^ k` remainders. -/
namespace Checksum

variable {w : Nat} (poly : BitVec w)

/-- One step of the division. -/
def shift (r : BitVec w) : BitVec w := if r.getLsbD 0 then (r >>> 1) ^^^ poly else r >>> 1

/-- Take up one bit of the message. -/
def feed (r : BitVec w) (bit : Bool) : BitVec w := shift poly (r ^^^ (BitVec.ofBool bit).setWidth w)

/-- The bits of a word, the lowest one first. -/
def bits {k : Nat} (v : BitVec k) : List Bool := (List.range k).map v.getLsbD

/-- The remainders of the words of `k` bits. -/
def table {k : Nat} (v : BitVec k) : BitVec w := (shift poly)^[k] (v.setWidth w)

/-- Take up a word at once. -/
def feedWord {k : Nat} (r : BitVec w) (v : BitVec k) : BitVec w := table poly (r.setWidth k ^^^ v) ^^^ (r >>> k)

/-! ### The steps are linear -/

theorem shift_xor (r s : BitVec w) : shift poly (r ^^^ s) = shift poly r ^^^ shift poly s := by
  simp only [shift, BitVec.getLsbD_xor, BitVec.ushiftRight_xor_distrib]
  cases r.getLsbD 0 with
  | false => cases s.getLsbD 0 <;> simp [BitVec.xor_assoc]
  | true =>
    cases s.getLsbD 0 with
    | false =>
      show (r >>> 1 ^^^ s >>> 1) ^^^ poly = (r >>> 1 ^^^ poly) ^^^ s >>> 1
      rw [BitVec.xor_assoc, BitVec.xor_comm (s >>> 1), ← BitVec.xor_assoc]
    | true =>
      show r >>> 1 ^^^ s >>> 1 = (r >>> 1 ^^^ poly) ^^^ (s >>> 1 ^^^ poly)
      rw [BitVec.xor_comm (s >>> 1), ← BitVec.xor_assoc, BitVec.xor_assoc (r >>> 1), BitVec.xor_self, BitVec.xor_zero]

theorem iterate_shift_xor (n : Nat) (r s : BitVec w) :
    (shift poly)^[n] (r ^^^ s) = (shift poly)^[n] r ^^^ (shift poly)^[n] s := by
  induction n generalizing r s with
  | zero => rfl
  | succ n ih => rw [Function.iterate_succ_apply, Function.iterate_succ_apply, Function.iterate_succ_apply, shift_xor, ih]

/-- Without low bits nothing is divided. -/
theorem iterate_shift_of_low {n : Nat} {r : BitVec w} (h : ∀ i < n, r.getLsbD i = false) :
    (shift poly)^[n] r = r >>> n := by
  induction n generalizing r with
  | zero => rw [BitVec.ushiftRight_zero]; rfl
  | succ n ih =>
    have hone : shift poly r = r >>> 1 := by
      rw [shift, h 0 (Nat.succ_pos n), if_neg Bool.false_ne_true]
    rw [Function.iterate_succ_apply, hone, ih fun i hi => ?_]
    · rw [← BitVec.shiftRight_add, Nat.add_comm]
    · rw [BitVec.getLsbD_ushiftRight, Nat.add_comm]
      exact h (i + 1) (Nat.succ_lt_succ hi)

/-! ### Words -/

/-- The words of `n + 1` bits: those of `n` bits, and one bit on top. -/
theorem setWidth_succ_eq_xor {k : Nat} (v : BitVec k) (n : Nat) : (v.setWidth (n + 1)).setWidth w =
    (v.setWidth n).setWidth w ^^^ ((BitVec.ofBool (v.getLsbD n)).setWidth w <<< n) := by
  apply BitVec.eq_of_getLsbD_eq
  intro i hi
  simp only [BitVec.getLsbD_xor, BitVec.getLsbD_setWidth, BitVec.getLsbD_shiftLeft, BitVec.getLsbD_ofBool]
  rcases lt_trichotomy i n with h | h | h
  · simp [hi, h, Nat.lt_succ_of_lt h]
  · simp [h, show n < w by omega, show 0 < w by omega]
  · simp [hi, Nat.lt_asymm h, show ¬ i < n + 1 by omega, show i - n ≠ 0 by omega]

theorem iterate_shift_bit {n : Nat} (hn : n < w) (b : Bool) :
    (shift poly)^[n] ((BitVec.ofBool b).setWidth w <<< n) = (BitVec.ofBool b).setWidth w := by
  rw [iterate_shift_of_low poly fun i hi => by simp [BitVec.getLsbD_shiftLeft, hi]]
  apply BitVec.eq_of_getLsbD_eq
  intro i hi
  simp only [BitVec.getLsbD_ushiftRight, BitVec.getLsbD_shiftLeft, BitVec.getLsbD_setWidth, BitVec.getLsbD_ofBool]
  by_cases h0 : i = 0
  · simp [h0, hn, show 0 < w by omega]
  · simp [h0]

/-- **Bit by bit**: the bits of a word can be laid over the register first. -/
theorem foldl_feed {k : Nat} (hk : k ≤ w) (r : BitVec w) (v : BitVec k) :
    (bits v).foldl (feed poly) r = (shift poly)^[k] (r ^^^ v.setWidth w) := by
  have hlow (n : Nat) (hn : n ≤ k) : ((List.range n).map v.getLsbD).foldl (feed poly) r =
      (shift poly)^[n] (r ^^^ (v.setWidth n).setWidth w) := by
    induction n with
    | zero =>
      have hzero : v.setWidth 0 = 0#0 := BitVec.eq_nil _
      rw [hzero, BitVec.setWidth_zero, BitVec.xor_zero]
      rfl
    | succ n ih =>
      rw [List.range_succ, List.map_append, List.foldl_append, ih (Nat.le_of_succ_le hn)]
      show shift poly (_ ^^^ _) = _
      rw [Function.iterate_succ_apply', setWidth_succ_eq_xor, ← BitVec.xor_assoc, iterate_shift_xor poly n (_ ^^^ _),
        iterate_shift_bit poly (by omega)]
  rw [bits, hlow k (Nat.le_refl k), BitVec.setWidth_eq]

/-- **By table**: the low bits of the register choose the entry, the others move down. -/
theorem foldl_feed_eq_feedWord {k : Nat} (hk : k ≤ w) (r : BitVec w) (v : BitVec k) :
    (bits v).foldl (feed poly) r = feedWord poly r v := by
  have hsplit : r ^^^ v.setWidth w = (r.setWidth k ^^^ v).setWidth w ^^^ ((r >>> k) <<< k) := by
    apply BitVec.eq_of_getLsbD_eq
    intro i hi
    simp only [BitVec.getLsbD_xor, BitVec.getLsbD_setWidth, BitVec.getLsbD_shiftLeft, BitVec.getLsbD_ushiftRight]
    by_cases h : i < k
    · simp [hi, h]
    · simp [hi, h, Nat.add_sub_cancel' (Nat.not_lt.mp h), BitVec.getLsbD_of_ge v i (Nat.not_lt.mp h)]
  have hhigh : (shift poly)^[k] ((r >>> k) <<< k) = r >>> k := by
    rw [iterate_shift_of_low poly fun i hi => by simp [BitVec.getLsbD_shiftLeft, hi]]
    apply BitVec.eq_of_getLsbD_eq
    intro i hi
    simp only [BitVec.getLsbD_ushiftRight, BitVec.getLsbD_shiftLeft]
    by_cases h : k + i < w
    · simp [h]
    · simp [h, BitVec.getLsbD_of_ge r (k + i) (Nat.not_lt.mp h)]
  rw [foldl_feed poly hk, hsplit, iterate_shift_xor, hhigh, feedWord, table]

/-! ### Messages -/

theorem feedWord_xor {k : Nat} (r s : BitVec w) (u v : BitVec k) :
    feedWord poly (r ^^^ s) (u ^^^ v) = feedWord poly r u ^^^ feedWord poly s v := by
  simp only [feedWord, table]
  have hword : (r ^^^ s).setWidth k ^^^ (u ^^^ v) = (r.setWidth k ^^^ u) ^^^ (s.setWidth k ^^^ v) := by
    rw [BitVec.setWidth_xor]
    ac_rfl
  rw [hword, BitVec.setWidth_xor, iterate_shift_xor, BitVec.ushiftRight_xor_distrib]
  ac_rfl

/-- **Messages of one length** are fed linearly. -/
theorem foldl_feedWord_xor {k : Nat} {us vs : List (BitVec k)} (h : us.length = vs.length) (r s : BitVec w) :
    (List.zipWith (· ^^^ ·) us vs).foldl (feedWord poly) (r ^^^ s) =
      us.foldl (feedWord poly) r ^^^ vs.foldl (feedWord poly) s := by
  induction us generalizing vs r s with
  | nil =>
    obtain rfl := List.eq_nil_of_length_eq_zero h.symm
    rfl
  | cons u us ih =>
    cases vs with
    | nil => cases h
    | cons v vs =>
      rw [List.zipWith_cons_cons, List.foldl_cons, feedWord_xor, ih (Nat.succ.inj h)]
      rfl

/-- **Every remainder is met**, if every single bit is, by a message of `n` words that belong to a set
closed under exclusive or. -/
theorem exists_foldl_feedWord {k n : Nat} {words : Set (BitVec k)} (hzero : 0#k ∈ words)
    (hxor : ∀ u ∈ words, ∀ v ∈ words, u ^^^ v ∈ words)
    (hbit : ∀ i < w, ∃ us : List (BitVec k), us.length = n ∧ (∀ u ∈ us, u ∈ words) ∧
      us.foldl (feedWord poly) 0#w = BitVec.twoPow w i) (r : BitVec w) :
    ∃ us : List (BitVec k), us.length = n ∧ (∀ u ∈ us, u ∈ words) ∧ us.foldl (feedWord poly) 0#w = r := by
  have hlow (m : Nat) (hm : m ≤ w) (r : BitVec w) (hr : ∀ i, m ≤ i → r.getLsbD i = false) :
      ∃ us : List (BitVec k), us.length = n ∧ (∀ u ∈ us, u ∈ words) ∧ us.foldl (feedWord poly) 0#w = r := by
    induction m generalizing r with
    | zero =>
      have hr : r = 0#w := BitVec.eq_of_getLsbD_eq fun i _ => by rw [hr i (Nat.zero_le i), BitVec.getLsbD_zero]
      subst hr
      refine ⟨List.replicate n 0#k, List.length_replicate, fun u hu => List.eq_of_mem_replicate hu ▸ hzero, ?_⟩
      have hsame := @foldl_feedWord_xor w poly k (List.replicate n 0#k) (List.replicate n 0#k) rfl 0#w 0#w
      rw [BitVec.xor_self, List.zipWith_self, List.map_replicate, BitVec.xor_self] at hsame
      rw [hsame, BitVec.xor_self]
    | succ m ih =>
      cases hbitm : r.getLsbD m with
      | false =>
        refine ih (Nat.le_of_succ_le hm) r fun i hi => ?_
        rcases hi.eq_or_lt with rfl | hi
        · exact hbitm
        · exact hr i hi
      | true =>
        obtain ⟨us, hlen, hus, hfed⟩ := ih (Nat.le_of_succ_le hm) (r ^^^ BitVec.twoPow w m) fun i hi => by
          rw [BitVec.getLsbD_xor, BitVec.getLsbD_twoPow]
          rcases hi.eq_or_lt with rfl | hi
          · simp [hbitm, Nat.lt_of_succ_le hm]
          · simp [hr i hi, hi.ne]
        obtain ⟨vs, hlen', hvs, hfed'⟩ := hbit m (Nat.lt_of_succ_le hm)
        refine ⟨List.zipWith (· ^^^ ·) us vs, ?_, ?_, ?_⟩
        · rw [List.length_zipWith, hlen, hlen', Nat.min_self]
        · intro x hx
          obtain ⟨i, hi, rfl⟩ := List.getElem_of_mem hx
          rw [List.getElem_zipWith]
          exact hxor _ (hus _ (List.getElem_mem _)) _ (hvs _ (List.getElem_mem _))
        · rw [← BitVec.xor_self (x := 0#w), foldl_feedWord_xor poly (hlen.trans hlen'.symm), hfed, hfed', BitVec.xor_assoc,
            BitVec.xor_self, BitVec.xor_zero]
  exact hlow w (Nat.le_refl w) r fun i hi => BitVec.getLsbD_of_ge r i hi

end Checksum
