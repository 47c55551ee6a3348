import RedisXSlot.UtilProofs

/-! `setcpuaffinity.c`: the list of processors a thread is bound to, on Linux.

A pointer into the text is what is left of it from there on, so a pointer is before another
if more is left. -/
namespace RedisXSlot

def INT_MAX : Int := 2 ^ 31 - 1

/-- `next_token`: behind the next separator. NULL is `none`. -/
def nextToken (q : Option Bytes) (sep : UInt8) : Option Bytes :=
  match q with
  | none => none
  | some q =>
    match q.dropWhile (· ≠ sep) with
    | [] => none
    | _ :: rest => some rest

def isDigit (c : UInt8) : Bool := 48 ≤ c && c ≤ 57

/-- `strtoul` of what begins with a digit, with the end of the digits. -/
def strtoul (str : Bytes) : Nat × Bytes :=
  (min (digitsValue 0 (str.takeWhile isDigit)) (2 ^ 64 - 1), str.dropWhile isDigit)

/-- `next_num`, which returns -1 as `none`. The number becomes an `int`. -/
def nextNum (str : Option Bytes) : Option (Bytes × Int) :=
  match str with
  | some (c :: rest) =>
    if isDigit c then
      let (v, last) := strtoul (c :: rest)
      some (last, (BitVec.ofNat 32 v).toInt)
    else none
  | _ => none

/-- `c1 != NULL && (c2 == NULL || c1 < c2)`. -/
def isBefore (c1 c2 : Option Bytes) : Bool :=
  match c1, c2 with
  | some c1, some c2 => c2.length < c1.length
  | some _, none => true
  | none, _ => false

/-- One entry of the list, `a`, `a-b` or `a-b:s`, with the end of what has been read. -/
def nextRange (p : Bytes) : Option (Bytes × Int × Int × Int) := do
  let (last, a) ← nextNum (some p)
  let c1 := nextToken (some last) 45
  let c2 := nextToken (some last) 44
  if isBefore c1 c2 then
    let (last, b) ← nextNum c1
    let c1 := nextToken (some last) 58
    if isBefore c1 c2 then
      let (last, s) ← nextNum c1
      if s = 0 then none else return (last, a, b, s)
    else return (last, a, b, 1)
  else return (last, a, a, 1)

def CPU_SETSIZE : Int := 1024

/-- The macro of the system. A processor becomes a `size_t` in it and is dropped if the set
has no bit for it. -/
def CPU_SET (a : Int) (cpuset : List Int) : List Int := if 0 ≤ a ∧ a < CPU_SETSIZE then a :: cpuset else cpuset

@[simp] theorem mem_CPU_SET {x a : Int} {cpuset : List Int} :
    x ∈ CPU_SET a cpuset ↔ (x = a ∧ 0 ≤ x ∧ x < CPU_SETSIZE) ∨ x ∈ cpuset := by
  rw [CPU_SET]
  split
  next h =>
    rw [List.mem_cons]
    constructor
    · rintro (rfl | hin)
      · exact Or.inl ⟨rfl, h⟩
      · exact Or.inr hin
    · rintro (⟨rfl, _⟩ | hin)
      · exact Or.inl rfl
      · exact Or.inr hin
  next h =>
    constructor
    · exact Or.inr
    · rintro (⟨rfl, hbit⟩ | hin)
      · exact absurd hbit h
      · exact hin

/-- `while (a <= b) { CPU_SET(a, &cpuset); a += s; }`, if it ends. A sum that is no `int` is undefined. -/
def cpuSet (b s : Int) : Nat → Int → Option (List Int)
  | 0, a => if b < a then some [] else none
  | fuel + 1, a =>
    if b < a then some []
    else if INT_MAX < a + s then none
    else do return CPU_SET a (← cpuSet b s fuel (a + s))

/-- The loop of `setcpuaffinity`, and the set that `sched_setaffinity` is called with in the
end: `some none` if it returns before the call. The fuel bounds the entries. -/
def cpuLoop : Nat → Option Bytes → Option Bytes → List Int → Option (Option (List Int))
  | _, none, last, set =>
    match last with
    | some (_ :: _) => some none
    | _ => some (some set)
  | 0, some _, _, _ => none
  | fuel + 1, some p, _, set =>
    match nextRange p with
    | none => some none
    | some (last, a, b, s) =>
      if b < a then some none
      else do
        let cpus ← cpuSet b s (b - a + 1).toNat a
        cpuLoop fuel (nextToken (some p) 44) (some last) (set ++ cpus)

/-- `setcpuaffinity` of a list that is not NULL. -/
def setcpuaffinity (cpulist : Bytes) : Option (Option (List Int)) :=
  cpuLoop (cpulist.length + 1) (some cpulist) none []

/-! ### What a list stands for -/

/-- An entry of a list: a processor, or all from one to another, or every `s`-th of them. -/
inductive CpuRange where
  | one (a : Nat) (fits : a + 1 < 2 ^ 31)
  | span (a b : Nat) (le : a ≤ b) (fits : b + 1 < 2 ^ 31)
  | stride (a b s : Nat) (le : a ≤ b) (pos : 0 < s) (fits : b + s < 2 ^ 31)

namespace CpuRange

def first : CpuRange → Nat
  | one a _ => a
  | span a _ _ _ => a
  | stride a _ _ _ _ _ => a

def last : CpuRange → Nat
  | one a _ => a
  | span _ b _ _ => b
  | stride _ b _ _ _ _ => b

def step : CpuRange → Nat
  | one _ _ => 1
  | span _ _ _ _ => 1
  | stride _ _ s _ _ _ => s

/-- What follows the first number. -/
def suffix : CpuRange → Bytes
  | one _ _ => []
  | span _ b _ _ => 45 :: decimal b
  | stride _ b s _ _ _ => 45 :: (decimal b ++ 58 :: decimal s)

def text (r : CpuRange) : Bytes := decimal r.first ++ r.suffix

/-- The list of entries, parted by commas. -/
def texts (r : CpuRange) : List CpuRange → Bytes
  | [] => r.text
  | r' :: rs => r.text ++ 44 :: texts r' rs

theorem step_pos (r : CpuRange) : 0 < r.step := by
  cases r with
  | one => exact Nat.one_pos
  | span => exact Nat.one_pos
  | stride _ _ _ _ pos => exact pos

theorem first_le (r : CpuRange) : r.first ≤ r.last := by
  cases r with
  | one => exact Nat.le_refl _
  | span _ _ le => exact le
  | stride _ _ _ le => exact le

theorem fits (r : CpuRange) : r.last + r.step < 2 ^ 31 := by
  cases r with
  | one _ fits => exact fits
  | span _ _ _ fits => exact fits
  | stride _ _ _ _ _ fits => exact fits

end CpuRange

/-! ### Reading it -/

theorem nextToken_skip (sep : UInt8) (l : Bytes) (h : sep ∉ l) (r : Bytes) :
    nextToken (some (l ++ r)) sep = nextToken (some r) sep := by
  have hdrop : (l ++ r).dropWhile (· ≠ sep) = r.dropWhile (· ≠ sep) := by
    apply List.dropWhile_append_of_pos
    intro c hc
    simpa using ne_of_mem_of_not_mem hc h
  simp only [nextToken, hdrop]

theorem nextToken_hit (sep : UInt8) (r : Bytes) : nextToken (some (sep :: r)) sep = some r := by simp [nextToken]

theorem nextToken_length {sep : UInt8} {q r : Bytes} (h : nextToken (some q) sep = some r) : r.length < q.length := by
  simp only [nextToken] at h
  split at h
  · cases h
  next c rest hdrop =>
    cases h
    have hle := (List.dropWhile_suffix (· ≠ sep) (l := q)).length_le
    rw [hdrop, List.length_cons] at hle
    omega

/-- What follows an entry: nothing, or a comma and the next one. -/
def EntryEnds (r : Bytes) : Prop := r = [] ∨ ∃ r', r = 44 :: r'

/-- What follows a number. -/
def Stops (r : Bytes) : Prop := ∀ c, r.head? = some c → isDigit c = false

theorem EntryEnds.stops {r : Bytes} (h : EntryEnds r) : Stops r := by
  rintro c hc
  obtain rfl | ⟨r', rfl⟩ := h
  · cases hc
  · cases hc
    rfl

/-- A separator that is found before the entry ends. -/
theorem isBefore_of_append (l r : Bytes) : isBefore (some (l ++ r)) (nextToken (some r) 44) = true := by
  cases h : nextToken (some r) 44 with
  | none => rfl
  | some y =>
    have hlt := nextToken_length h
    have hlen : y.length < (l ++ r).length := by
      rw [List.length_append]
      omega
    simpa [isBefore] using hlen

/-- A separator behind the end of the entry is not of it. -/
theorem not_isBefore (sep : UInt8) (hsep : sep ≠ 44) {r : Bytes} (h : EntryEnds r) :
    isBefore (nextToken (some r) sep) (nextToken (some r) 44) = false := by
  obtain rfl | ⟨r', rfl⟩ := h
  · rfl
  · have hskip := nextToken_skip sep [44] (by simpa using hsep) r'
    rw [List.singleton_append] at hskip
    rw [hskip, nextToken_hit]
    cases hc : nextToken (some r') sep with
    | none => rfl
    | some x =>
      have hlt := nextToken_length hc
      simpa [isBefore] using Nat.le_of_lt hlt

theorem not_mem_decimal {sep : UInt8} (h : isDigit sep = false) (n : Nat) : sep ∉ decimal n := by
  intro hin
  have hrange := decimal_digits n sep hin
  simp [isDigit, hrange.1, hrange.2] at h

theorem nextNum_decimal {n : Nat} (hn : n < 2 ^ 31) {r : Bytes} (h : Stops r) :
    nextNum (some (decimal n ++ r)) = some (r, (n : Int)) := by
  have hdigits : ∀ c ∈ decimal n, isDigit c = true := by
    intro c hc
    have hrange := decimal_digits n c hc
    simp [isDigit, hrange.1, hrange.2]
  have htake : (decimal n ++ r).takeWhile isDigit = decimal n := by
    rw [List.takeWhile_append_of_pos hdigits]
    cases r with
    | nil => simp
    | cons c r => rw [List.takeWhile_cons_of_neg (by simpa using h c rfl), List.append_nil]
  have hdrop : (decimal n ++ r).dropWhile isDigit = r := by
    rw [List.dropWhile_append_of_pos hdigits]
    cases r with
    | nil => rfl
    | cons c r => exact List.dropWhile_cons_of_neg (by simpa using h c rfl)
  have hint : (BitVec.ofNat 32 n).toInt = n := by
    have hnat : (BitVec.ofNat 32 n).toNat = n := by
      rw [BitVec.toNat_ofNat]
      omega
    rw [BitVec.toInt_eq_toNat_of_lt (by omega), hnat]
  obtain ⟨c, ds, hc⟩ : ∃ c ds, decimal n = c :: ds := by
    apply List.exists_cons_of_ne_nil
    intro hnil
    have hlen := decimal_length n
    rw [hnil] at hlen
    cases hlen
  have hall : decimal n ++ r = c :: (ds ++ r) := by rw [hc, List.cons_append]
  have hfirst : isDigit c = true := hdigits c (by rw [hc]; exact List.mem_cons_self ..)
  have hmin : min n (2 ^ 64 - 1) = n := by omega
  rw [hall]
  simp only [nextNum, hfirst, if_true, strtoul]
  rw [← hall, htake, hdrop, digitsValue_decimal, hmin, hint]

namespace CpuRange

/-- **An entry is read** up to what follows it. -/
theorem nextRange_text (t : CpuRange) {r : Bytes} (h : EntryEnds r) :
    nextRange (t.text ++ r) = some (r, (t.first : Int), (t.last : Int), (t.step : Int)) := by
  have hcomma : ∀ n, (44 : UInt8) ∉ decimal n := not_mem_decimal rfl
  have hstops : ∀ (sep : UInt8) (l : Bytes), isDigit sep = false → Stops (sep :: l) := by
    intro sep l hsep c hc
    cases hc
    exact hsep
  cases t with
  | one a fits =>
    have ha := nextNum_decimal (n := a) (by omega) h.stops
    have hdash := not_isBefore 45 (by decide) h
    simp only [text, suffix, first, List.append_nil, nextRange, ha, hdash, Option.bind_eq_bind, Option.bind_some]
    rfl
  | span a b le fits =>
    have ha := nextNum_decimal (n := a) (by omega) (hstops 45 (decimal b ++ r) rfl)
    have hb := nextNum_decimal (n := b) (by omega) h.stops
    have hc2 : nextToken (some (45 :: (decimal b ++ r))) 44 = nextToken (some r) 44 :=
      nextToken_skip 44 (45 :: decimal b) (by simpa using hcomma b) r
    have hcolon := not_isBefore 58 (by decide) h
    simp only [text, suffix, first, List.append_assoc, List.cons_append, nextRange, ha, hb, hc2, nextToken_hit,
      isBefore_of_append, hcolon, if_true, Option.bind_eq_bind, Option.bind_some]
    rfl
  | stride a b s le pos fits =>
    have ha := nextNum_decimal (n := a) (by omega) (hstops 45 (decimal b ++ 58 :: (decimal s ++ r)) rfl)
    have hb := nextNum_decimal (n := b) (by omega) (hstops 58 (decimal s ++ r) rfl)
    have hs := nextNum_decimal (n := s) (by omega) h.stops
    have hc2 : nextToken (some (45 :: (decimal b ++ 58 :: (decimal s ++ r)))) 44 = nextToken (some r) 44 := by
      have hskip := nextToken_skip 44 (45 :: (decimal b ++ 58 :: decimal s)) (by
        simp only [List.mem_cons, List.mem_append, not_or]
        exact ⟨by decide, hcomma b, by decide, hcomma s⟩) r
      rw [List.cons_append, List.append_assoc, List.cons_append] at hskip
      exact hskip
    have hfar : isBefore (some (decimal b ++ 58 :: (decimal s ++ r))) (nextToken (some r) 44) = true := by
      have hbefore := isBefore_of_append (decimal b ++ 58 :: decimal s) r
      rw [List.append_assoc, List.cons_append] at hbefore
      exact hbefore
    have hne : (s : Int) ≠ 0 := by omega
    simp only [text, suffix, first, List.append_assoc, List.cons_append, nextRange, ha, hb, hs, hc2, nextToken_hit, hfar,
      isBefore_of_append, if_true, if_neg hne, Option.bind_eq_bind, Option.bind_some]
    rfl

theorem comma_not_mem (t : CpuRange) : (44 : UInt8) ∉ t.text := by
  have hcomma : ∀ n, (44 : UInt8) ∉ decimal n := not_mem_decimal rfl
  cases t <;> simp [text, suffix, hcomma]

theorem length_le_texts (rs : List CpuRange) : ∀ r : CpuRange, rs.length ≤ (texts r rs).length := by
  induction rs with
  | nil => exact fun _ => Nat.zero_le _
  | cons r' rs ih =>
    intro r
    have hle := ih r'
    rw [texts, List.length_append, List.length_cons, List.length_cons]
    omega

end CpuRange

theorem cpuSet_spec {b s : Int} (hs : 0 < s) (hb : b + s ≤ INT_MAX) (fuel : Nat) : ∀ a : Int, b - a + 1 ≤ fuel →
    ∃ cpus, cpuSet b s fuel a = some cpus ∧
      ∀ x, x ∈ cpus ↔ (a ≤ x ∧ x ≤ b ∧ s ∣ x - a) ∧ 0 ≤ x ∧ x < CPU_SETSIZE := by
  induction fuel with
  | zero =>
    intro a ha
    have hlt : b < a := by omega
    refine ⟨[], by rw [cpuSet, if_pos hlt], fun x => ?_⟩
    constructor
    · simp
    · intro hx
      omega
  | succ fuel ih =>
    intro a ha
    by_cases hlt : b < a
    · refine ⟨[], by rw [cpuSet, if_pos hlt], fun x => ?_⟩
      constructor
      · simp
      · intro hx
        omega
    · obtain ⟨cpus, hcpus, hmem⟩ := ih (a + s) (by omega)
      refine ⟨CPU_SET a cpus, ?_, fun x => ?_⟩
      · rw [cpuSet, if_neg hlt, if_neg (by omega), hcpus]
        rfl
      · rw [mem_CPU_SET, hmem]
        constructor
        · rintro (⟨rfl, hbit⟩ | ⟨⟨hx, hxb, hdvd⟩, hbit⟩)
          · exact ⟨⟨Int.le_refl _, by omega, by simp⟩, hbit⟩
          · refine ⟨⟨by omega, hxb, ?_⟩, hbit⟩
            have hsum := Int.dvd_add hdvd (Int.dvd_refl s)
            rwa [show x - (a + s) + s = x - a by omega] at hsum
        · rintro ⟨⟨hx, hxb, hdvd⟩, hbit⟩
          by_cases hxa : x = a
          · exact Or.inl ⟨hxa, hbit⟩
          · have hle := Int.le_of_dvd (by omega) hdvd
            refine Or.inr ⟨⟨by omega, hxb, ?_⟩, hbit⟩
            have hdiff := Int.dvd_sub hdvd (Int.dvd_refl s)
            rwa [show x - a - s = x - (a + s) by omega] at hdiff

/-- The processors of an entry. -/
def CpuRange.cpus (t : CpuRange) : Set Int := {x | (t.first : Int) ≤ x ∧ x ≤ t.last ∧ (t.step : Int) ∣ x - t.first}

/-- The processors a set has a bit for. -/
def representable : Set Int := {x | 0 ≤ x ∧ x < CPU_SETSIZE}

/-- One entry of the loop. -/
theorem cpuLoop_step (t : CpuRange) {r : Bytes} (h : EntryEnds r) (fuel : Nat) (last : Option Bytes) (set : List Int) :
    ∃ cpus, cpuLoop (fuel + 1) (some (t.text ++ r)) last set = cpuLoop fuel (nextToken (some r) 44) (some r) (set ++ cpus) ∧
      ∀ x, x ∈ cpus ↔ x ∈ t.cpus ∩ representable := by
  have hle := t.first_le
  have hpos := t.step_pos
  have hfits := t.fits
  have hmax : INT_MAX = 2147483647 := by decide
  obtain ⟨cpus, hcpus, hmem⟩ := cpuSet_spec (b := t.last) (s := t.step) (by omega) (by omega)
    ((t.last : Int) - t.first + 1).toNat t.first (by omega)
  refine ⟨cpus, ?_, hmem⟩
  have hle : ¬ (t.last : Int) < t.first := by omega
  simp only [cpuLoop, CpuRange.nextRange_text t h, if_neg hle, hcpus, nextToken_skip 44 t.text t.comma_not_mem, Option.bind_eq_bind,
    Option.bind_some]

theorem cpuLoop_spec (rs : List CpuRange) : ∀ (r : CpuRange) (fuel : Nat) (last : Option Bytes) (set : List Int),
    rs.length + 1 ≤ fuel → ∃ set', cpuLoop fuel (some (CpuRange.texts r rs)) last set = some (some set') ∧
      ∀ x, x ∈ set' ↔ x ∈ set ∨ ∃ t ∈ r :: rs, x ∈ t.cpus ∩ representable := by
  induction rs with
  | nil =>
    intro r fuel last set hfuel
    obtain ⟨fuel, rfl⟩ : ∃ k, fuel = k + 1 := ⟨fuel - 1, by omega⟩
    obtain ⟨cpus, hstep, hmem⟩ := cpuLoop_step r (Or.inl rfl) fuel last set
    rw [List.append_nil] at hstep
    refine ⟨set ++ cpus, ?_, fun x => ?_⟩
    · rw [CpuRange.texts, hstep]
      cases fuel <;> rfl
    · rw [List.mem_append, hmem]
      simp
  | cons r' rs ih =>
    intro r fuel last set hfuel
    rw [List.length_cons] at hfuel
    obtain ⟨fuel, rfl⟩ : ∃ k, fuel = k + 1 := ⟨fuel - 1, by omega⟩
    obtain ⟨cpus, hstep, hmem⟩ := cpuLoop_step r (Or.inr ⟨CpuRange.texts r' rs, rfl⟩) fuel last set
    rw [nextToken_hit] at hstep
    obtain ⟨set', hset', hmem'⟩ := ih r' fuel (some (44 :: CpuRange.texts r' rs)) (set ++ cpus) (by omega)
    refine ⟨set', ?_, fun x => ?_⟩
    · rw [CpuRange.texts, hstep, hset']
    · rw [hmem', List.mem_append, hmem, List.exists_mem_cons_iff (a := r), or_assoc]

/-- **A list of processors is read as what it stands for**: the set the thread asks to be
bound to has exactly the processors of the entries that are below `CPU_SETSIZE`. The others
are dropped without a word. -/
theorem cpulist_is_read (r : CpuRange) (rs : List CpuRange) : ∃ set, setcpuaffinity (CpuRange.texts r rs) = some (some set) ∧
    ∀ x, x ∈ set ↔ (∃ t ∈ r :: rs, x ∈ t.cpus) ∧ x < CPU_SETSIZE := by
  have hlen := CpuRange.length_le_texts rs r
  obtain ⟨set, hset, hmem⟩ := cpuLoop_spec rs r ((CpuRange.texts r rs).length + 1) none [] (by omega)
  refine ⟨set, hset, fun x => ?_⟩
  rw [hmem]
  constructor
  · rintro (hin | ⟨t, ht, hx, hbit⟩)
    · cases hin
    · exact ⟨⟨t, ht, hx⟩, hbit.2⟩
  · rintro ⟨⟨t, ht, hx⟩, hlt⟩
    have hfirst : (0 : Int) ≤ t.first := by omega
    exact Or.inr ⟨t, ht, hx, Int.le_trans hfirst hx.1, hlt⟩

/-- `0-4:2,7`. -/
example : setcpuaffinity [48, 45, 52, 58, 50, 44, 55] = some (some [0, 2, 4, 7]) := by decide +kernel

/-- `2000`: the set is empty, and the system refuses it. -/
example : setcpuaffinity [50, 48, 48, 48] = some (some []) := by decide +kernel

end RedisXSlot
