import Mathlib

/-! Counting in the order of reversed bits.

A cursor over a hash table of `2 ^ k` buckets names a bucket by its low `k` bits. Ranked by
their reversed bits, the numbers that share these come one after the other, in a block of
`2 ^ (w - k)`; a larger table cuts the blocks up, a smaller one joins them. `next k` steps to
the start of the next block. -/
namespace ReverseCursor

variable {w : Nat}

/-- The place of a number in the order of reversed bits. -/
def rank (x : BitVec w) : Nat := x.reverse.toNat

/-- The mask of a table of `2 ^ k` buckets. -/
def mask (w k : Nat) : BitVec w := BitVec.ofNat w (2 ^ k - 1)

/-- Set the bits above the mask and add one, in reverse. -/
def next (k : Nat) (v : BitVec w) : BitVec w := ((v ||| ~~~mask w k).reverse + 1).reverse

theorem rank_lt (x : BitVec w) : rank x < 2 ^ w := x.reverse.isLt

@[simp] theorem rank_reverse (x : BitVec w) : rank x.reverse = x.toNat := by
  rw [rank, BitVec.reverse_reverse_eq]

@[simp] theorem rank_eq_zero_iff {x : BitVec w} : rank x = 0 ↔ x = 0 := by
  rw [rank, ← BitVec.toNat_zero, BitVec.toNat_inj]
  exact BitVec.reverse_eq_zero_iff

@[simp] theorem rank_zero : rank (0 : BitVec w) = 0 := rank_eq_zero_iff.mpr rfl

/-- Bits are counted from the other end. -/
theorem testBit_rank (x : BitVec w) (i : Nat) : (rank x).testBit i = (decide (i < w) && x.getLsbD (w - 1 - i)) := by
  rw [rank, BitVec.testBit_toNat, BitVec.getLsbD_reverse, BitVec.getMsbD_eq_getLsbD]

theorem getLsbD_mask {k : Nat} (hk : k ≤ w) (i : Nat) : (mask w k).getLsbD i = decide (i < k) := by
  rw [mask, BitVec.getLsbD_ofNat, Nat.testBit_two_pow_sub_one, ← Bool.decide_and]
  exact decide_eq_decide.mpr ⟨And.right, fun h => ⟨h.trans_le hk, h⟩⟩

/-- **The numbers with the same low bits are a block.** -/
theorem rank_div_eq_iff {k : Nat} (hk : k ≤ w) (a b : BitVec w) :
    rank a / 2 ^ (w - k) = rank b / 2 ^ (w - k) ↔ a.toNat % 2 ^ k = b.toNat % 2 ^ k := by
  have hbits : rank a / 2 ^ (w - k) = rank b / 2 ^ (w - k) ↔ ∀ i < k, a.getLsbD i = b.getLsbD i := by
    constructor
    · intro h i hi
      have hbit := congrArg (Nat.testBit · (k - 1 - i)) h
      simp only [Nat.testBit_div_two_pow, testBit_rank] at hbit
      rw [show k - 1 - i + (w - k) = w - 1 - i by omega, show w - 1 - (w - 1 - i) = i by omega] at hbit
      simpa [show w - 1 - i < w by omega] using hbit
    · intro h
      apply Nat.eq_of_testBit_eq
      intro i
      simp only [Nat.testBit_div_two_pow, testBit_rank]
      by_cases hi : i + (w - k) < w
      · rw [h (w - 1 - (i + (w - k))) (by omega)]
      · simp [hi]
  rw [hbits]
  constructor
  · intro h
    apply Nat.eq_of_testBit_eq
    intro i
    simp only [Nat.testBit_mod_two_pow, BitVec.testBit_toNat]
    by_cases hi : i < k
    · rw [h i hi]
    · simp [hi]
  · intro h i hi
    have hbit := congrArg (Nat.testBit · i) h
    simpa [Nat.testBit_mod_two_pow, hi, BitVec.testBit_toNat] using hbit

theorem rank_or_not_mask {k : Nat} (hk : k ≤ w) (v : BitVec w) :
    rank (v ||| ~~~mask w k) = 2 ^ (w - k) * (rank v / 2 ^ (w - k)) + (2 ^ (w - k) - 1) := by
  apply Nat.eq_of_testBit_eq
  intro i
  have hpos : 2 ^ (w - k) - 1 < 2 ^ (w - k) := Nat.sub_lt (Nat.two_pow_pos _) Nat.one_pos
  rw [testBit_rank, Nat.testBit_two_pow_mul_add _ hpos, Nat.testBit_two_pow_sub_one, Nat.testBit_div_two_pow,
    testBit_rank, BitVec.getLsbD_or, BitVec.getLsbD_not, getLsbD_mask hk]
  by_cases hi : i < w - k
  · have h1 : i < w := by omega
    have h2 : w - 1 - i < w := by omega
    have h3 : ¬ w - 1 - i < k := by omega
    simp [hi, h1, h2, h3]
  · rw [if_neg hi, show i - (w - k) + (w - k) = i by omega]
    by_cases hiw : i < w
    · have h3 : w - 1 - i < k := by omega
      simp [hiw, h3]
    · simp [hiw]

/-- **A step goes to the start of the next block**, and from the last one to 0. -/
theorem rank_next {k : Nat} (hk : k ≤ w) (v : BitVec w) :
    rank (next k v) = (rank v / 2 ^ (w - k) + 1) * 2 ^ (w - k) % 2 ^ w := by
  have hpos : 0 < 2 ^ (w - k) := Nat.two_pow_pos _
  rw [next, rank_reverse, BitVec.toNat_add]
  rw [show (v ||| ~~~mask w k).reverse.toNat = rank (v ||| ~~~mask w k) from rfl, rank_or_not_mask hk]
  have hone : (1 : BitVec w).toNat = 1 % 2 ^ w := BitVec.toNat_ofNat 1 w
  rw [hone, Nat.add_mod_mod]
  congr 1
  have := Nat.sub_add_cancel hpos
  calc _ = 2 ^ (w - k) * (rank v / 2 ^ (w - k)) + (2 ^ (w - k) - 1 + 1) := by omega
    _ = _ := by rw [this]; ring

/-- A block starts where the bits above the mask are 0. -/
theorem dvd_rank_iff {k : Nat} (hk : k ≤ w) (v : BitVec w) :
    2 ^ (w - k) ∣ rank v ↔ ∀ i, k ≤ i → v.getLsbD i = false := by
  rw [Nat.dvd_iff_mod_eq_zero]
  constructor
  · intro h i hi
    by_cases hiw : i < w
    · have hbit := congrArg (Nat.testBit · (w - 1 - i)) h
      simp only [Nat.testBit_mod_two_pow, testBit_rank, Nat.zero_testBit] at hbit
      rw [show w - 1 - (w - 1 - i) = i by omega] at hbit
      simpa [show w - 1 - i < w - k by omega, show w - 1 - i < w by omega] using hbit
    · exact BitVec.getLsbD_of_ge v i (by omega)
  · intro h
    apply Nat.eq_of_testBit_eq
    intro i
    simp only [Nat.testBit_mod_two_pow, testBit_rank, Nat.zero_testBit]
    by_cases hi : i < w - k
    · rw [h (w - 1 - i) (by omega)]
      simp
    · simp [hi]

/-- A number whose rank starts a block is below the table's size. -/
theorem toNat_lt_of_dvd_rank {k : Nat} (hk : k ≤ w) {v : BitVec w} (h : 2 ^ (w - k) ∣ rank v) : v.toNat < 2 ^ k := by
  apply Nat.lt_pow_two_of_testBit
  intro i hi
  rw [BitVec.testBit_toNat]
  exact (dvd_rank_iff hk v).mp h i hi

/-- At the start of a block of the larger table, the bits between the masks say whether one of
the smaller table's starts there. -/
theorem and_xor_mask_eq_zero_iff {k l : Nat} (hkl : k ≤ l) (hl : l ≤ w) {v : BitVec w} (hv : 2 ^ (w - l) ∣ rank v) :
    v &&& (mask w k ^^^ mask w l) = 0 ↔ 2 ^ (w - k) ∣ rank v := by
  rw [dvd_rank_iff hl] at hv
  rw [dvd_rank_iff (hkl.trans hl)]
  constructor
  · intro h i hi
    by_cases hil : i < l
    · have hbit := congrArg (BitVec.getLsbD · i) h
      simpa [BitVec.getLsbD_and, BitVec.getLsbD_xor, getLsbD_mask hl, getLsbD_mask (hkl.trans hl), hil,
        show ¬ i < k by omega] using hbit
    · exact hv i (by omega)
  · intro h
    apply BitVec.eq_of_getLsbD_eq
    intro i hi
    rw [BitVec.getLsbD_and, BitVec.getLsbD_xor, getLsbD_mask hl, getLsbD_mask (hkl.trans hl)]
    by_cases hik : i < k
    · simp [hik, hik.trans_le hkl]
    · simp [h i (by omega)]

/-! ### Blocks -/

/-- Where the block of `v` starts. -/
def start (k : Nat) (v : BitVec w) : Nat := rank v / 2 ^ (w - k) * 2 ^ (w - k)

/-- Where the next block starts. -/
def stop (k : Nat) (v : BitVec w) : Nat := (rank v / 2 ^ (w - k) + 1) * 2 ^ (w - k)

/-- How far a cursor has come: 0 stands for the end. -/
def limit (v : BitVec w) : Nat := if v = 0 then 2 ^ w else rank v

section
variable {k : Nat} {v : BitVec w}

theorem start_le (k : Nat) (v : BitVec w) : start k v ≤ rank v := Nat.div_mul_le_self ..

theorem stop_eq (k : Nat) (v : BitVec w) : stop k v = start k v + 2 ^ (w - k) := Nat.succ_mul ..

theorem lt_stop (k : Nat) (v : BitVec w) : rank v < stop k v := by
  rw [stop, Nat.mul_comm]
  exact Nat.lt_mul_div_succ _ (Nat.two_pow_pos _)

theorem dvd_stop (k : Nat) (v : BitVec w) : 2 ^ (w - k) ∣ stop k v := Dvd.intro_left _ rfl

/-- The next block is the first start behind `v`. -/
theorem stop_le {p : Nat} (hp : 2 ^ (w - k) ∣ p) (h : rank v < p) : stop k v ≤ p := by
  obtain ⟨q, rfl⟩ := hp
  rw [stop, Nat.mul_comm]
  exact Nat.mul_le_mul_left _ (Nat.div_lt_of_lt_mul h)

theorem start_eq_of_dvd (h : 2 ^ (w - k) ∣ rank v) : start k v = rank v := Nat.div_mul_cancel h

theorem stop_le_two_pow (k : Nat) (v : BitVec w) : stop k v ≤ 2 ^ w :=
  stop_le (Nat.pow_dvd_pow 2 (Nat.sub_le ..)) (rank_lt v)

/-- **A step comes as far as the end of the block.** -/
theorem limit_next (hk : k ≤ w) (v : BitVec w) : limit (next k v) = stop k v := by
  have hnext : rank (next k v) = stop k v % 2 ^ w := rank_next hk v
  rcases (stop_le_two_pow k v).lt_or_eq with hlt | heq
  · rw [Nat.mod_eq_of_lt hlt] at hnext
    have hne : next k v ≠ 0 := by
      intro h0
      have := lt_stop k v
      rw [h0, rank_eq_zero_iff.mpr rfl] at hnext
      omega
    rw [limit, if_neg hne, hnext]
  · rw [heq, Nat.mod_self, rank_eq_zero_iff] at hnext
    rw [limit, if_pos hnext, heq]

theorem dvd_rank_next (hk : k ≤ w) (v : BitVec w) : 2 ^ (w - k) ∣ rank (next k v) := by
  rw [show rank (next k v) = stop k v % 2 ^ w from rank_next hk v]
  exact (Nat.dvd_mod_iff (Nat.pow_dvd_pow 2 (Nat.sub_le ..))).mpr (dvd_stop k v)

theorem dvd_limit (h : 2 ^ (w - k) ∣ rank v) : 2 ^ (w - k) ∣ limit v := by
  unfold limit
  split
  · exact Nat.pow_dvd_pow 2 (Nat.sub_le ..)
  · exact h

/-- Behind a step, but not at the end of the block of a smaller table, that block is the same. -/
theorem stop_eq_stop {l : Nat} {u : BitVec w} (hlt : rank v < rank u) (h : rank u < stop l v) : stop l u = stop l v :=
  le_antisymm (stop_le (dvd_stop l v) h) (stop_le (dvd_stop l u) (hlt.trans (lt_stop l u)))

end

end ReverseCursor
