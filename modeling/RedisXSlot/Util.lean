import RedisXSlot.Bytes

/-! `dep/util.c`: numbers as text.

`ll2string` writes a `long long` into a buffer from the right, two digits at a time;
`string2ll` reads one back and accepts nothing but the text `ll2string` would write.
`decimal` is the numeral both are compared with. -/
namespace RedisXSlot

def REDIS_LONGSTR_SIZE : Nat := 42
def LLONG_MAX : Nat := 2 ^ 63 - 1
def ULLONG_MAX : Nat := 2 ^ 64 - 1

/-- The digit `d < 10` as a character. -/
def digitByte (d : Nat) : UInt8 := UInt8.ofNat (48 + d)

/-- Number of digits of `v` in radix 10; the fuel is `v` itself. -/
def digits10Loop : Nat → Nat → Nat
  | 0, _ => 1
  | fuel + 1, v =>
    if v < 10 then 1
    else if v < 100 then 2
    else if v < 1000 then 3
    else if v < 1000000000000 then
      if v < 100000000 then
        if v < 1000000 then
          if v < 10000 then 4 else 5 + (if v ≥ 100000 then 1 else 0)
        else 7 + (if v ≥ 10000000 then 1 else 0)
      else if v < 10000000000 then 9 + (if v ≥ 1000000000 then 1 else 0)
      else 11 + (if v ≥ 100000000000 then 1 else 0)
    else 12 + digits10Loop fuel (v / 1000000000000)

def digits10 (v : Nat) : Nat := digits10Loop v v

/-- The table of the two digits of every number below 100. -/
def digits : Bytes := (List.range 100).flatMap fun r => [digitByte (r / 10), digitByte (r % 10)]

/-- `while (value >= 100)`: two digits at a time, from the right. The fuel is the value. -/
def ll2stringLoop : Nat → Bytes → Nat → Nat → Bytes × Nat × Nat
  | 0, dst, value, next => (dst, value, next)
  | fuel + 1, dst, value, next =>
    if value ≥ 100 then
      let i := (value % 100) * 2
      let dst := dst.set next (digits.getD (i + 1) 0)
      ll2stringLoop fuel (dst.set (next - 1) (digits.getD i 0)) (value / 100) (next - 2)
    else (dst, value, next)

/-- Handle last 1-2 digits. -/
def ll2stringLast (dst : Bytes) (value next : Nat) : Bytes :=
  if value < 10 then dst.set next (digitByte value)
  else (dst.set next (digits.getD (value * 2 + 1) 0)).set (next - 1) (digits.getD (value * 2) 0)

/-- The digits of `value` written so that the last one stands at `next`. -/
def ll2stringFill (dst : Bytes) (value next : Nat) : Bytes :=
  let (dst, value, next) := ll2stringLoop value dst value next
  ll2stringLast dst value next

/-- Convert a `long long` into text: the `length` bytes the caller reads from the
buffer `dst`, none when the buffer is too small. -/
def ll2string (dst : Bytes) (svalue : Int) : Bytes :=
  let value := svalue.natAbs
  let negative := if svalue < 0 then 1 else 0
  let length := digits10 value + negative
  if length ≥ dst.length then []
  else
    let dst := ll2stringFill (dst.set length 0) value (length - 1)
    -- Add sign.
    let dst := if svalue < 0 then dst.set 0 45 else dst
    dst.take length

/-- Parse the digits after the first, checking for overflow at every step; `none` is an
overflow, else the value and the bytes left over. -/
def string2llDigits : Nat → Bytes → Option (Nat × Bytes)
  | v, [] => some (v, [])
  | v, c :: rest =>
    if 48 ≤ c ∧ c ≤ 57 then
      if v > ULLONG_MAX / 10 then none
      else
        let v := v * 10
        if v > ULLONG_MAX - (c.toNat - 48) then none
        else string2llDigits (v + (c.toNat - 48)) rest
    else some (v, c :: rest)

/-- Convert text into a `long long`; `none` where the C function returns 0. -/
def string2ll (s : Bytes) : Option Int :=
  if s = [] then none
  else if s = [48] then some 0
  else
    let negative := s.head? = some 45
    match if negative then s.tail else s with
    | [] => none
    | c :: rest =>
      -- First digit should be 1-9, otherwise the string should just be 0.
      if 49 ≤ c ∧ c ≤ 57 then
        match string2llDigits (c.toNat - 48) rest with
        | none => none
        | some (_, _ :: _) => none
        | some (v, []) =>
          if negative then if v > LLONG_MAX + 1 then none else some (-(v : Int))
          else if v > LLONG_MAX then none else some v
      else none

example : ll2string (List.replicate 42 0) (-1207) = [45, 49, 50, 48, 55] := by decide
example : string2ll [45, 49, 50, 48, 55] = some (-1207) := by decide

end RedisXSlot
