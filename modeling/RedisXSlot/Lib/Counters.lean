import Mathlib

/-! Counters that go round together.

Of two counters, one modulo `D` and one modulo `S`, each value is reached, but not each pair:
the two stay congruent modulo `gcd D S`. If the second goes `c` steps in a row while the
first stays, the pairs seen fill residues modulo `gcd (c * D) S`, and all are seen as long
as that is at most `c`. -/
namespace Counters

/-- Below the product of the moduli there is a number of any two compatible residues. -/
theorem exists_lt_modEq_iff {m n : Nat} (hm : 0 < m) (hn : 0 < n) (a b : Nat) :
    (∃ k < m * n, k ≡ a [MOD m] ∧ k ≡ b [MOD n]) ↔ a ≡ b [MOD m.gcd n] := by
  constructor
  · rintro ⟨k, -, ha, hb⟩
    exact (ha.of_dvd (Nat.gcd_dvd_left m n)).symm.trans (hb.of_dvd (Nat.gcd_dvd_right m n))
  · intro h
    obtain ⟨ha, hb⟩ := (Nat.chineseRemainder' h).2
    have hlt := Nat.chineseRemainder'_lt_lcm h hm.ne' hn.ne'
    exact ⟨_, hlt.trans_le (Nat.le_of_dvd (Nat.mul_pos hm hn) (Nat.lcm_dvd_mul m n)), ha, hb⟩

variable {D S : Nat}

/-- Moving a start to the other side. -/
theorem add_modEq_iff {m a b k : Nat} (ha : a ≤ m) : a + k ≡ b [MOD m] ↔ k ≡ b + (m - a) [MOD m] := by
  have hm : a + (b + (m - a)) ≡ b [MOD m] := by
    rw [show a + (b + (m - a)) = b + m by omega]
    exact Nat.add_modEq_right
  constructor
  · intro h
    exact Nat.ModEq.add_left_cancel' a (h.trans hm.symm)
  · intro h
    exact (h.add_left a).trans hm

/-- **The pairs two counters meet in.** -/
theorem meet_iff (hD : 0 < D) (hS : 0 < S) {r i j : Nat} (hr : r < D) (hi : i < D) (hj : j < S) :
    (∃ k < D * S, (r + k) % D = i ∧ k % S = j) ↔ r + j ≡ i [MOD D.gcd S] := by
  have hpair (k : Nat) : ((r + k) % D = i ∧ k % S = j) ↔ (k ≡ i + (D - r) [MOD D] ∧ k ≡ j [MOD S]) := by
    rw [← add_modEq_iff hr.le, Nat.ModEq, Nat.ModEq, Nat.mod_eq_of_lt hi, Nat.mod_eq_of_lt hj]
  simp only [hpair]
  rw [exists_lt_modEq_iff hD hS]
  have hdvd : D ≡ 0 [MOD D.gcd S] := (Nat.modEq_zero_iff_dvd).mpr (Nat.gcd_dvd_left D S)
  have hcancel : r + (i + (D - r)) ≡ i [MOD D.gcd S] := by
    rw [show r + (i + (D - r)) = i + D by omega]
    exact hdvd.add_left i
  constructor
  · intro h
    exact (h.symm.add_left r).trans hcancel
  · intro h
    exact Nat.ModEq.add_left_cancel' r (hcancel.trans h.symm)

/-- Every residue is met from `a` on. -/
theorem exists_add_modEq {m : Nat} (hm : 0 < m) (a b : Nat) : ∃ k < m, a + k ≡ b [MOD m] := by
  refine ⟨(b + (m - a % m)) % m, Nat.mod_lt _ hm, ?_⟩
  have h : a % m + (b + (m - a % m)) % m ≡ b [MOD m] :=
    (add_modEq_iff (Nat.mod_lt a hm).le).mpr (Nat.mod_modEq _ _)
  exact ((Nat.mod_modEq a m).symm.add_right _).trans h

/-- **When a sweep sees every pair**, whatever pair it starts from: each value of the first counter
comes with `c` of the second. -/
theorem sweep_iff (hD : 0 < D) (hS : 0 < S) {c : Nat} (hc : 0 < c) {d s : Nat} (hd : d < D) (hs : s < S) {N : Nat}
    (hN : D * S ≤ N) :
    (∀ i < D, ∀ j < S, ∃ m < N, ∃ l < c, (d + m) % D = i ∧ (s + m * c + l) % S = j) ↔ (c * D).gcd S ≤ c := by
  constructor
  · intro h
    by_contra hlt
    rw [not_le] at hlt
    -- In the rounds the first counter comes back to `d`, the second has gone by a multiple of the gcd.
    obtain ⟨m, -, l, hl, hm, hj⟩ := h d hd ((s + c) % S) (Nat.mod_lt _ hS)
    have hDm : D ∣ m := by
      have hdm : d + m ≡ d + 0 [MOD D] := by rw [Nat.add_zero, Nat.ModEq, hm, Nat.mod_eq_of_lt hd]
      exact (Nat.modEq_zero_iff_dvd).mp (Nat.ModEq.add_left_cancel' d hdm)
    have hmc : m * c ≡ 0 [MOD (c * D).gcd S] := by
      rw [Nat.modEq_zero_iff_dvd, Nat.mul_comm m c]
      exact (Nat.gcd_dvd_left _ _).trans (Nat.mul_dvd_mul_left c hDm)
    have hsum : s + (m * c + l) ≡ s + c [MOD (c * D).gcd S] := by
      rw [← Nat.add_assoc]
      exact Nat.ModEq.of_dvd (Nat.gcd_dvd_right _ _) hj
    have hlc : 0 + l ≡ c [MOD (c * D).gcd S] := (hmc.add_right l).symm.trans (Nat.ModEq.add_left_cancel' s hsum)
    rw [Nat.zero_add, Nat.ModEq, Nat.mod_eq_of_lt hlt, Nat.mod_eq_of_lt (hl.trans hlt)] at hlc
    exact hl.ne hlc
  · intro hle i hi j hj
    have hgpos : 0 < (c * D).gcd S := Nat.gcd_pos_of_pos_right _ hS
    obtain ⟨m₀, -, hm₀⟩ := exists_add_modEq hD d i
    obtain ⟨l, hl, hres⟩ := exists_add_modEq hgpos (c * m₀) (j + (S - s))
    obtain ⟨n, hn, hfirst, hsecond⟩ := (exists_lt_modEq_iff (Nat.mul_pos hc hD) hS _ _).mpr hres
    have hlc : l < c := hl.trans_le hle
    have hmod : n % c = l := by
      have := hfirst.of_dvd (Nat.dvd_mul_right c D)
      rw [Nat.ModEq, Nat.mul_add_mod, Nat.mod_eq_of_lt hlc] at this
      exact this
    have hnc : c * (n / c) + l = n := by rw [← hmod, Nat.div_add_mod]
    refine ⟨n / c, ?_, l, hlc, ?_, ?_⟩
    · rw [Nat.div_lt_iff_lt_mul hc]
      calc n < c * D * S := hn
        _ = D * S * c := by ring
        _ ≤ N * c := Nat.mul_le_mul_right c hN
    · rw [← hnc] at hfirst
      have hquot : n / c ≡ m₀ [MOD D] := Nat.ModEq.mul_left_cancel' hc.ne' (Nat.ModEq.add_right_cancel' l hfirst)
      have hsum : d + n / c ≡ i [MOD D] := (hquot.add_left d).trans hm₀
      rw [Nat.ModEq, Nat.mod_eq_of_lt hi] at hsum
      exact hsum
    · have hsum : s + n ≡ j [MOD S] := (add_modEq_iff hs.le).mpr hsecond
      rw [Nat.ModEq, Nat.mod_eq_of_lt hj] at hsum
      rw [Nat.add_assoc, Nat.mul_comm, hnc]
      exact hsum

end Counters
