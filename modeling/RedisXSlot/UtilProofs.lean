import RedisXSlot.Util

/-! Text and numbers are inverse to each other.

`decimal n` is the usual numeral. `ll2string` writes it whatever the buffer held
before (`ll2string_eq`), and `string2ll` reads every numeral of a `long long` back
(`string2ll_decimal`), so the TTL a source writes is the TTL a target reads
(`string2ll_ll2string`). -/
namespace RedisXSlot

/-- The decimal numeral of `n`. -/
def decimal (n : Nat) : Bytes := (Nat.toDigits 10 n).map fun c => UInt8.ofNat c.toNat

theorem digitByte_eq {d : Nat} (h : d < 10) : UInt8.ofNat (Nat.digitChar d).toNat = digitByte d := by
  rw [Nat.toNat_digitChar_of_lt_ten h]
  rfl

theorem decimal_of_lt {n : Nat} (h : n < 10) : decimal n = [digitByte n] := by
  rw [decimal, Nat.toDigits_of_lt_base h, List.map_singleton, digitByte_eq h]

theorem decimal_step {n : Nat} (h : 10 ≤ n) : decimal n = decimal (n / 10) ++ [digitByte (n % 10)] := by
  have hd : n % 10 < 10 := Nat.mod_lt n (by decide)
  have hp := Nat.toDigits_append_toDigits (b := 10) (n := n / 10) (d := n % 10) (by decide)
    (by omega) hd
  rw [Nat.div_add_mod] at hp
  rw [decimal, decimal, ← hp, List.map_append, Nat.toDigits_of_lt_base hd, List.map_singleton,
    digitByte_eq hd]

theorem decimal_step_two {n : Nat} (h : 100 ≤ n) :
    decimal n = decimal (n / 100) ++ [digitByte (n % 100 / 10), digitByte (n % 100 % 10)] := by
  rw [decimal_step (by omega), decimal_step (n := n / 10) (by omega), List.append_assoc]
  congr 2
  · rw [Nat.div_div_eq_div_mul]
  · simp only [List.singleton_append, List.cons.injEq, and_true]
    exact ⟨congrArg digitByte (by omega), congrArg digitByte (by omega)⟩

theorem decimal_two_digits {n : Nat} (h : 10 ≤ n) (h' : n < 100) :
    decimal n = [digitByte (n / 10), digitByte (n % 10)] := by
  rw [decimal_step h, decimal_of_lt (by omega)]
  rfl

theorem decimal_length (n : Nat) : (decimal n).length = Nat.log 10 n + 1 := by
  induction n using Nat.strongRecOn with
  | ind n ih =>
    by_cases h : n < 10
    · rw [decimal_of_lt h, Nat.log_of_lt h]
      rfl
    · have hlog : Nat.log 10 n = Nat.log 10 (n / 10) + 1 := Nat.log_of_one_lt_of_le (by decide) (by omega)
      rw [decimal_step (by omega), List.length_append, ih (n / 10) (by omega), hlog]
      rfl

theorem decimal_length_eq {n k : Nat} (h : 10 ^ k ≤ n) (h' : n < 10 ^ (k + 1)) :
    (decimal n).length = k + 1 := by
  rw [decimal_length, Nat.log_eq_of_pow_le_of_lt_pow h h']

/-! ### `digits10` -/

/-- Each comparison of the ladder pins the number of digits down. -/
theorem digits10Loop_small (fuel : Nat) {v : Nat} (h : v < 1000000000000) :
    digits10Loop (fuel + 1) v = (decimal v).length := by
  by_cases h0 : v < 10
  · rw [decimal_of_lt h0, digits10Loop, if_pos h0]
    rfl
  · have hlen : ∀ k, 10 ^ k ≤ v → v < 10 ^ (k + 1) → (decimal v).length = k + 1 :=
      fun k => decimal_length_eq
    generalize (decimal v).length = l at hlen
    obtain ⟨k, hk, hlo, hhi⟩ : ∃ k, k < 12 ∧ 10 ^ k ≤ v ∧ v < 10 ^ (k + 1) :=
      ⟨Nat.log 10 v, Nat.log_lt_of_lt_pow (by omega) (by omega), Nat.pow_log_le_self 10 (by omega),
        Nat.lt_pow_succ_log_self (by decide) v⟩
    rw [hlen k hlo hhi, digits10Loop, if_neg h0]
    clear hlen
    interval_cases k <;> norm_num only at hlo hhi <;> split_ifs <;> omega

theorem digits10Loop_eq {fuel v : Nat} (h : v ≤ fuel) : digits10Loop fuel v = (decimal v).length := by
  induction fuel generalizing v with
  | zero =>
    obtain rfl : v = 0 := Nat.le_zero.mp h
    rw [decimal_of_lt (by decide)]
    rfl
  | succ fuel ih =>
    by_cases hbig : v < 1000000000000
    · exact digits10Loop_small fuel hbig
    · have hle : 12 ≤ Nat.log 10 v := Nat.le_log_of_pow_le (by decide) (by omega)
      have hlog : Nat.log 10 (v / 1000000000000) = Nat.log 10 v - 12 := Nat.log_div_base_pow 10 v 12
      have hlen : (decimal v).length = 12 + (decimal (v / 1000000000000)).length := by
        rw [decimal_length, decimal_length, hlog]
        omega
      rw [hlen, ← ih (by omega : v / 1000000000000 ≤ fuel), digits10Loop]
      rw [if_neg (by omega), if_neg (by omega), if_neg (by omega), if_neg hbig]

theorem digits10_eq (v : Nat) : digits10 v = (decimal v).length := digits10Loop_eq le_rfl

/-! ### `ll2string` -/

theorem digits_get {r : Nat} (h : r < 100) :
    digits.getD (r * 2) 0 = digitByte (r / 10) ∧ digits.getD (r * 2 + 1) 0 = digitByte (r % 10) := by
  have hall : ∀ r < 100, digits.getD (r * 2) 0 = digitByte (r / 10) ∧
      digits.getD (r * 2 + 1) 0 = digitByte (r % 10) := by decide +kernel
  exact hall r h

/-- Two bytes written side by side. -/
theorem set_pair (dst : Bytes) (k : Nat) (a b : UInt8) (h : k + 1 < dst.length) :
    (dst.set (k + 1) b).set k a = dst.take k ++ [a, b] ++ dst.drop (k + 2) := by
  apply List.ext_getElem?
  intro i
  simp only [List.getElem?_set, List.getElem?_append, List.length_take, List.length_append,
    List.length_cons, List.length_nil, List.getElem?_take, List.getElem?_drop, List.length_set]
  rcases Nat.lt_trichotomy i k with hi | rfl | hi
  · rw [if_neg (by omega), if_neg (by omega), if_pos (by omega), if_pos (by omega), if_pos hi]
  · rw [if_pos rfl, if_pos (by omega), if_pos (by omega), if_neg (by omega)]
    rw [show i - min i dst.length = 0 by omega]
    rfl
  · by_cases h1 : i = k + 1
    · subst h1
      rw [if_neg (by omega), if_pos rfl, if_pos (by omega), if_pos (by omega), if_neg (by omega)]
      rw [show k + 1 - min k dst.length = 1 by omega]
      rfl
    · rw [if_neg (by omega), if_neg (by omega), if_neg (by omega)]
      congr 1
      omega

theorem last_eq {value : Nat} (h : value < 100) (dst : Bytes) (k : Nat)
    (hroom : k + (decimal value).length ≤ dst.length) :
    ll2stringLast dst value (k + (decimal value).length - 1) =
      dst.take k ++ decimal value ++ dst.drop (k + (decimal value).length) := by
  by_cases h10 : value < 10
  · rw [decimal_of_lt h10] at hroom ⊢
    simp only [List.length_singleton] at hroom ⊢
    rw [ll2stringLast, if_pos h10, Nat.add_sub_cancel, List.set_eq_take_append_cons_drop,
      if_pos (by omega), List.append_assoc]
    rfl
  · obtain ⟨hhi, hlo⟩ := digits_get h
    rw [decimal_two_digits (by omega) h] at hroom ⊢
    simp only [List.length_cons, List.length_nil] at hroom ⊢
    rw [ll2stringLast, if_neg h10, hhi, hlo]
    exact set_pair dst k _ _ (by omega)

/-- The loop and the last digits put the numeral where it ends at `next`, and touch
nothing before or behind it. -/
theorem fill_loop {fuel value : Nat} (hf : value ≤ fuel) (dst : Bytes) (k : Nat)
    (hroom : k + (decimal value).length ≤ dst.length) {r : Bytes × Nat × Nat}
    (hr : ll2stringLoop fuel dst value (k + (decimal value).length - 1) = r) :
    ll2stringLast r.1 r.2.1 r.2.2 =
      dst.take k ++ decimal value ++ dst.drop (k + (decimal value).length) := by
  induction fuel generalizing value dst with
  | zero =>
    obtain rfl : value = 0 := Nat.le_zero.mp hf
    subst hr
    exact @last_eq 0 (by omega) dst k hroom
  | succ fuel ih =>
    by_cases hv : value ≥ 100
    · -- Two digits go to the right end; the rest is a shorter numeral in a changed buffer.
      have hstep := decimal_step_two hv
      have hlen : (decimal value).length = (decimal (value / 100)).length + 2 := by
        rw [hstep]
        simp
      have hpos : 0 < (decimal (value / 100)).length := by
        rw [decimal_length]
        omega
      obtain ⟨hhi, hlo⟩ := digits_get (Nat.mod_lt value (by decide : 0 < 100))
      generalize hq : (decimal (value / 100)).length = m at *
      rw [ll2stringLoop, if_pos hv, hlen] at hr
      simp only [hhi, hlo] at hr
      rw [show k + (m + 2) - 1 = k + m + 1 by omega, show k + m + 1 - 1 = k + m by omega,
        set_pair dst (k + m) _ _ (by omega), show k + m + 1 - 2 = k + m - 1 by omega] at hr
      have hd : ((List.take (k + m) dst ++ [digitByte (value % 100 / 10), digitByte (value % 100 % 10)] ++
          List.drop (k + m + 2) dst)).length = dst.length := by
        simp only [List.length_append, List.length_take, List.length_cons, List.length_nil,
          List.length_drop]
        omega
      rw [@ih (value / 100) (by omega) _ (by rw [hd]; omega) (by rw [hq]; exact hr), hq, hlen,
        hstep]
      rw [List.append_assoc (List.take (k + m) dst), List.take_append_of_le_length
        (by rw [List.length_take]; omega), List.take_take, min_eq_left (by omega),
        List.drop_append_of_le_length (by rw [List.length_take]; omega)]
      simp only [List.append_assoc]
      congr 2
      rw [List.drop_eq_nil_of_le (by rw [List.length_take]; omega)]
      rfl
    · rw [ll2stringLoop, if_neg hv] at hr
      subst hr
      exact last_eq (Nat.lt_of_not_ge hv) dst k hroom

theorem fill_eq (dst : Bytes) (value k : Nat) (hroom : k + (decimal value).length ≤ dst.length) :
    ll2stringFill dst value (k + (decimal value).length - 1) =
      dst.take k ++ decimal value ++ dst.drop (k + (decimal value).length) :=
  fill_loop (le_refl value) dst k hroom rfl

/-- **The text of a number.** Whatever the buffer held, `ll2string` yields the sign and
the numeral of the absolute value, if they fit. -/
theorem ll2string_eq (dst : Bytes) (v : Int)
    (h : (decimal v.natAbs).length + (if v < 0 then 1 else 0) < dst.length) :
    ll2string dst v = (if v < 0 then [45] else []) ++ decimal v.natAbs := by
  have hpos : 0 < (decimal v.natAbs).length := by
    rw [decimal_length]
    omega
  by_cases hv : v < 0
  · simp only [hv, if_true] at h
    have hfill := fill_eq (dst.set ((decimal v.natAbs).length + 1) 0) v.natAbs 1
      (by rw [List.length_set]; omega)
    rw [show 1 + (decimal v.natAbs).length - 1 = (decimal v.natAbs).length by omega] at hfill
    simp only [ll2string, hv, if_true, digits10_eq]
    rw [if_neg (by omega), Nat.add_sub_cancel, hfill]
    cases dst with
    | nil => simp at h
    | cons b dst => simp
  · simp only [hv, if_false, Nat.add_zero] at h
    have hfill := fill_eq (dst.set (decimal v.natAbs).length 0) v.natAbs 0
      (by rw [List.length_set]; omega)
    rw [Nat.zero_add] at hfill
    simp only [ll2string, hv, if_false, digits10_eq, Nat.add_zero]
    rw [if_neg (by omega), hfill]
    simp

/-! ### `string2ll` -/

/-- The value of a string of digits behind the value `a`. -/
def digitsValue (a : Nat) (ds : Bytes) : Nat := ds.foldl (fun a d => 10 * a + (d.toNat - 48)) a

theorem digitByte_toNat {d : Nat} (h : d < 10) : (digitByte d).toNat = 48 + d := by
  rw [digitByte, UInt8.toNat_ofNat']
  omega

theorem digitByte_range {d : Nat} (h : d < 10) : 48 ≤ digitByte d ∧ digitByte d ≤ 57 := by
  simp only [UInt8.le_iff_toNat_le, digitByte_toNat h]
  exact ⟨by change 48 ≤ 48 + d; omega, by change 48 + d ≤ 57; omega⟩

theorem decimal_digits (n : Nat) : ∀ c ∈ decimal n, 48 ≤ c ∧ c ≤ 57 := by
  induction n using Nat.strongRecOn with
  | ind n ih =>
    by_cases h : n < 10
    · rw [decimal_of_lt h]
      intro c hc
      rw [List.mem_singleton.mp hc]
      exact digitByte_range h
    · rw [decimal_step (by omega)]
      intro c hc
      rcases List.mem_append.mp hc with hc | hc
      · exact ih (n / 10) (by omega) c hc
      · rw [List.mem_singleton.mp hc]
        exact digitByte_range (by omega)

theorem digitsValue_decimal (n : Nat) : digitsValue 0 (decimal n) = n := by
  induction n using Nat.strongRecOn with
  | ind n ih =>
    by_cases h : n < 10
    · rw [decimal_of_lt h]
      simp [digitsValue, digitByte_toNat h]
    · have ih' := ih (n / 10) (by omega)
      simp only [digitsValue] at ih' ⊢
      rw [decimal_step (by omega), List.foldl_append, ih']
      simp only [List.foldl_cons, List.foldl_nil, digitByte_toNat (by omega : n % 10 < 10)]
      omega

theorem le_digitsValue (a : Nat) (ds : Bytes) : a ≤ digitsValue a ds := by
  induction ds generalizing a with
  | nil => exact le_rfl
  | cons d ds ih =>
    have := ih (10 * a + (d.toNat - 48))
    simp only [digitsValue, List.foldl_cons] at this ⊢
    omega

/-- Digits whose value fits are read to the end. -/
theorem string2llDigits_eq {v : Nat} {ds : Bytes} (hd : ∀ c ∈ ds, 48 ≤ c ∧ c ≤ 57)
    (hmax : digitsValue v ds ≤ ULLONG_MAX) : string2llDigits v ds = some (digitsValue v ds, []) := by
  induction ds generalizing v with
  | nil => rfl
  | cons d ds ih =>
    have hstep : digitsValue v (d :: ds) = digitsValue (10 * v + (d.toNat - 48)) ds := rfl
    have hle := le_digitsValue (10 * v + (d.toNat - 48)) ds
    rw [hstep] at hmax ⊢
    rw [string2llDigits, if_pos (hd d (List.mem_cons_self ..)), if_neg (by omega)]
    simp only
    rw [if_neg (by omega), Nat.mul_comm v 10]
    exact ih (fun c hc => hd c (List.mem_cons_of_mem d hc)) hmax

/-- The first digit of a positive number is not zero. -/
theorem decimal_head {n : Nat} (h : 0 < n) :
    ∃ c rest, decimal n = c :: rest ∧ 49 ≤ c ∧ c ≤ 57 := by
  induction n using Nat.strongRecOn with
  | ind n ih =>
    by_cases h10 : n < 10
    · refine ⟨digitByte n, [], decimal_of_lt h10, ?_, (digitByte_range h10).2⟩
      rw [UInt8.le_iff_toNat_le, digitByte_toNat h10]
      change 49 ≤ 48 + n
      omega
    · obtain ⟨c, rest, hc, hr⟩ := ih (n / 10) (by omega) (by omega)
      exact ⟨c, rest ++ [digitByte (n % 10)], by rw [decimal_step (by omega), hc]; rfl, hr⟩

/-- **Every numeral of a non-negative `long long` is read back.** -/
theorem string2ll_decimal {n : Nat} (h : n ≤ LLONG_MAX) : string2ll (decimal n) = some (n : Int) := by
  by_cases h0 : n = 0
  · subst h0
    rw [decimal_of_lt (by decide)]
    rfl
  · obtain ⟨c, rest, hc, hlo, hhi⟩ := decimal_head (Nat.pos_of_ne_zero h0)
    have hne48 : c ≠ 48 := by
      rintro rfl
      exact absurd hlo (by decide)
    have hne45 : c ≠ 45 := by
      rintro rfl
      exact absurd hlo (by decide)
    have hv : digitsValue (c.toNat - 48) rest = n := by
      have := digitsValue_decimal n
      rw [hc] at this
      simpa [digitsValue] using this
    have hrest : ∀ d ∈ rest, 48 ≤ d ∧ d ≤ 57 := fun d hd =>
      decimal_digits n d (hc ▸ List.mem_cons_of_mem c hd)
    have hmax : LLONG_MAX ≤ ULLONG_MAX := by decide
    have hparse := string2llDigits_eq (v := c.toNat - 48) hrest (by omega)
    rw [hv] at hparse
    rw [hc]
    simp only [string2ll, List.head?_cons, Option.some.injEq, hne45, if_false, hlo, hhi, and_self,
      if_true, hparse, List.cons_ne_nil, List.cons.injEq, hne48, false_and]
    rw [if_neg (by omega)]

theorem ll2string_natCast (dst : Bytes) (hdst : dst.length = REDIS_LONGSTR_SIZE) {n : Nat}
    (h : n ≤ LLONG_MAX) : ll2string dst (n : Int) = decimal n := by
  have hlen : (decimal n).length < dst.length := by
    have hlog : Nat.log 10 n < 41 := Nat.log_lt_of_lt_pow' (by decide) (by
      have : LLONG_MAX < 10 ^ 41 := by decide
      omega)
    rw [decimal_length, hdst, REDIS_LONGSTR_SIZE]
    omega
  have hneg : ¬ ((n : Int) < 0) := by omega
  rw [ll2string_eq dst n (by rw [if_neg hneg]; exact hlen), if_neg hneg]
  rfl

/-- **The TTL text is read back as written**, whatever the stack buffer held. -/
theorem string2ll_ll2string (dst : Bytes) (hdst : dst.length = REDIS_LONGSTR_SIZE) {n : Nat}
    (h : n ≤ LLONG_MAX) : string2ll (ll2string dst (n : Int)) = some (n : Int) := by
  rw [ll2string_natCast dst hdst h]
  exact string2ll_decimal h

/-! ### Machine integers -/

/-- A number put into a signed integer of as many values as `m` comes out as it was if it is in
the lower half. -/
theorem bmod_self_iff (n m : Nat) (h : 0 < m) : (n : Int).bmod m = n ↔ n < (m + 1) / 2 := by
  constructor
  · intro he
    have := @Int.bmod_lt n m h
    omega
  · intro hlt
    exact Int.bmod_eq_of_le (by omega) (by omega)

end RedisXSlot
