import RedisXSlot.UtilProofs

/-! The numbers of `dep/util.c` and their texts are in bijection.

A string of digits that does not begin with a zero is the numeral of its value, so what
`string2ll` has read is what `ll2string` writes: nothing else is accepted, no text stands
for two numbers, and no number in the range of a `long long` is refused. -/
namespace RedisXSlot

def LLONG_MIN : Int := -(2 ^ 63)

/-! ### Numerals -/

theorem digitByte_sub {c : UInt8} (hlo : 48 ≤ c) (hhi : c ≤ 57) : digitByte (c.toNat - 48) = c := by
  rw [UInt8.le_iff_toNat_le] at hlo hhi
  change 48 ≤ c.toNat at hlo
  change c.toNat ≤ 57 at hhi
  apply UInt8.toNat_inj.mp
  rw [digitByte_toNat (by omega)]
  omega

theorem digitsValue_append (a : Nat) (ds : Bytes) (d : UInt8) :
    digitsValue a (ds ++ [d]) = 10 * digitsValue a ds + (d.toNat - 48) := by
  unfold digitsValue
  rw [List.foldl_append]
  rfl

/-- **Digits without a leading zero are the numeral of their value.** -/
theorem decimal_digitsValue {c : UInt8} (hlo : 49 ≤ c) (hhi : c ≤ 57) {ds : Bytes}
    (hds : ∀ d ∈ ds, 48 ≤ d ∧ d ≤ 57) : decimal (digitsValue (c.toNat - 48) ds) = c :: ds := by
  rw [UInt8.le_iff_toNat_le] at hlo
  change 49 ≤ c.toNat at hlo
  induction ds using List.reverseRecOn with
  | nil =>
    have hle : c.toNat ≤ 57 := UInt8.le_iff_toNat_le.mp hhi
    show decimal (c.toNat - 48) = [c]
    rw [decimal_of_lt (by omega), digitByte_sub _ hhi]
    exact UInt8.le_iff_toNat_le.mpr (show 48 ≤ c.toNat by omega)
  | append_singleton ds d ih =>
    have hd := hds d (List.mem_append_right _ (List.mem_singleton_self d))
    have hle : d.toNat ≤ 57 := UInt8.le_iff_toNat_le.mp hd.2
    have hpos := le_digitsValue (c.toNat - 48) ds
    have ih := ih fun d hd => hds d (List.mem_append_left _ hd)
    rw [digitsValue_append, decimal_step (by omega)]
    have hdiv : (10 * digitsValue (c.toNat - 48) ds + (d.toNat - 48)) / 10 = digitsValue (c.toNat - 48) ds := by omega
    have hmod : (10 * digitsValue (c.toNat - 48) ds + (d.toNat - 48)) % 10 = d.toNat - 48 := by omega
    rw [hdiv, hmod, ih, digitByte_sub hd.1 hd.2]
    rfl

/-! ### What is read -/

/-- What is read to the end is digits, and the value is theirs. -/
theorem string2llDigits_some {v w : Nat} {ds : Bytes} (h : string2llDigits v ds = some (w, [])) :
    (∀ d ∈ ds, 48 ≤ d ∧ d ≤ 57) ∧ w = digitsValue v ds := by
  induction ds generalizing v with
  | nil =>
    cases h
    exact ⟨by simp, rfl⟩
  | cons d ds ih =>
    unfold string2llDigits at h
    split at h
    next hd =>
      split at h
      next => cases h
      next =>
        dsimp only at h
        split at h
        next => cases h
        next =>
          obtain ⟨hds, hw⟩ := ih h
          refine ⟨?_, ?_⟩
          · intro x hx
            cases List.mem_cons.mp hx with
            | inl hx => exact hx ▸ hd
            | inr hx => exact hds x hx
          · rw [hw, Nat.mul_comm v 10]
            rfl
    next => cases h

/-- The text of a number. -/
def textOf (v : Int) : Bytes := (if v < 0 then [45] else []) ++ decimal v.natAbs

/-- **What is accepted is the text of the number**, and the number fits. -/
theorem string2ll_some {s : Bytes} {v : Int} (h : string2ll s = some v) :
    LLONG_MIN ≤ v ∧ v ≤ LLONG_MAX ∧ s = textOf v := by
  have hmin : LLONG_MIN = -9223372036854775808 := by decide
  have hmax : LLONG_MAX = 9223372036854775807 := by decide
  unfold string2ll at h
  split at h
  next => cases h
  next hne =>
    split at h
    next hzero =>
      cases h
      rw [hzero]
      exact ⟨by decide, by decide, by decide⟩
    next =>
      dsimp only at h
      split at h
      next => cases h
      next c rest hdigits =>
        split at h
        next hc =>
          split at h
          next => cases h
          next => cases h
          next w hw =>
            obtain ⟨hds, hval⟩ := string2llDigits_some hw
            have htext := decimal_digitsValue hc.1 hc.2 hds
            rw [← hval] at htext
            have hpos : 0 < w := by
              have hle := le_digitsValue (c.toNat - 48) rest
              have hlo : 49 ≤ c.toNat := UInt8.le_iff_toNat_le.mp hc.1
              omega
            split at h
            next hneg =>
              split at h
              next => cases h
              next hfit =>
                cases h
                rw [if_pos hneg] at hdigits
                obtain ⟨b, s, rfl⟩ := List.exists_cons_of_ne_nil hne
                cases hneg
                refine ⟨by omega, by omega, ?_⟩
                unfold textOf
                rw [if_pos (by omega), Int.natAbs_neg, Int.natAbs_natCast, htext, ← hdigits]
                rfl
            next hneg =>
              split at h
              next => cases h
              next hfit =>
                cases h
                rw [if_neg hneg] at hdigits
                refine ⟨by omega, by omega, ?_⟩
                unfold textOf
                rw [if_neg (by omega), Int.natAbs_natCast, htext, hdigits]
                rfl
        next => cases h

/-- The text of a negative number is read. -/
theorem string2ll_neg {n : Nat} (hpos : 0 < n) (hn : n ≤ LLONG_MAX + 1) : string2ll (45 :: decimal n) = some (-(n : Int)) := by
  obtain ⟨c, rest, hc, hlo, hhi⟩ := decimal_head hpos
  have hv : digitsValue (c.toNat - 48) rest = n := by
    have hall := digitsValue_decimal n
    rw [hc] at hall
    simpa [digitsValue] using hall
  have hrest : ∀ d ∈ rest, 48 ≤ d ∧ d ≤ 57 := fun d hd => decimal_digits n d (hc ▸ List.mem_cons_of_mem c hd)
  have hmax : LLONG_MAX + 1 ≤ ULLONG_MAX := by decide
  have hparse := string2llDigits_eq hrest (v := c.toNat - 48) (by omega)
  rw [hv] at hparse
  rw [hc]
  simp only [string2ll, List.head?_cons, if_true, hlo, hhi, and_self, hparse, List.cons_ne_nil, List.cons.injEq, if_false,
    List.tail_cons]
  rw [if_neg (by simp), if_neg (by omega)]

/-- **Texts and numbers.** A text is read as a number exactly if the number is in the range
of a `long long` and the text is what `ll2string` writes for it, into whatever buffer of at
least 21 bytes. -/
theorem string2ll_iff_ll2string (s : Bytes) (v : Int) {dst : Bytes} (hdst : 20 < dst.length) :
    string2ll s = some v ↔ (LLONG_MIN ≤ v ∧ v ≤ LLONG_MAX) ∧ s = ll2string dst v := by
  have hwritten : LLONG_MIN ≤ v ∧ v ≤ LLONG_MAX → ll2string dst v = textOf v := by
    intro hv
    apply ll2string_eq
    have hmin : LLONG_MIN = -9223372036854775808 := by decide
    have hmax : LLONG_MAX = 9223372036854775807 := by decide
    have hlog : Nat.log 10 v.natAbs < 19 := Nat.log_lt_of_lt_pow' (by decide) (by omega)
    rw [decimal_length]
    split <;> omega
  constructor
  · intro h
    obtain ⟨hlo, hhi, hs⟩ := string2ll_some h
    exact ⟨⟨hlo, hhi⟩, hs.trans (hwritten ⟨hlo, hhi⟩).symm⟩
  · intro h
    obtain ⟨hv, hs⟩ := h
    rw [hs, hwritten hv]
    unfold textOf
    split
    next hneg =>
      have hmin : LLONG_MIN = -9223372036854775808 := by decide
      have hmax : LLONG_MAX = 9223372036854775807 := by decide
      rw [List.singleton_append, string2ll_neg (by omega) (by omega)]
      congr 1
      omega
    next hpos =>
      rw [List.nil_append, string2ll_decimal (by omega)]
      congr 1
      omega

/-- The least `long long` is read back. -/
theorem string2ll_iff_ll2string_min : string2ll (ll2string (List.replicate REDIS_LONGSTR_SIZE 0) LLONG_MIN) = some LLONG_MIN :=
  (string2ll_iff_ll2string _ _ (by decide)).mpr ⟨by decide, rfl⟩

end RedisXSlot
