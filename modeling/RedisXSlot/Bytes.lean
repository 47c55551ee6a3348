import Mathlib

/-! Strings as the module sees them.

A `RedisModuleString` is a byte string with its length. Part of the code asks for the
length and is safe for every byte; part takes only the pointer and sees the C string,
which ends before the first NUL (`cString`). -/
namespace RedisXSlot

abbrev Bytes := List UInt8

/-- What a `const char*` to the bytes denotes: everything before the first NUL. -/
def cString (s : Bytes) : Bytes := s.takeWhile (· != 0)

/-- A key no reader of its C string can mistake for another. -/
def NulFree (s : Bytes) : Prop := 0 ∉ s

instance (s : Bytes) : Decidable (NulFree s) := inferInstanceAs (Decidable (0 ∉ s))

theorem cString_of_nulFree {s : Bytes} (h : NulFree s) : cString s = s := by
  apply List.takeWhile_eq_self_iff.mpr
  intro b hb
  have : b ≠ 0 := fun he => h (he ▸ hb)
  simpa using this

theorem cString_nulFree (s : Bytes) : NulFree (cString s) := by
  intro h
  have := List.mem_takeWhile_imp h
  simp at this

theorem cString_eq_self_iff {s : Bytes} : cString s = s ↔ NulFree s :=
  ⟨fun h => h ▸ cString_nulFree s, cString_of_nulFree⟩

/-- `RedisModule_StringCompare`: `memcmp` on the common length, then the lengths. -/
abbrev stringCompare (a b : Bytes) : Ordering := compare a b

theorem stringCompare_eq_iff {a b : Bytes} : stringCompare a b = .eq ↔ a = b :=
  Std.LawfulEqCmp.compare_eq_iff_eq

theorem stringCompare_lt_trans {a b c : Bytes} (hab : stringCompare a b = .lt)
    (hbc : stringCompare b c = .lt) : stringCompare a c = .lt :=
  Std.TransCmp.lt_trans hab hbc

theorem stringCompare_total {a b : Bytes} (h : stringCompare a b ≠ .lt) (hne : a ≠ b) :
    stringCompare b a = .lt := by
  cases hc : stringCompare a b with
  | lt => exact absurd hc h
  | eq => exact absurd (stringCompare_eq_iff.mp hc) hne
  | gt => exact Std.OrientedCmp.gt_iff_lt.mp hc

end RedisXSlot
