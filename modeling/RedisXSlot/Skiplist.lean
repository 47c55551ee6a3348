import RedisXSlot.Bytes
import RedisXSlot.Lib.Chain

/-! `dep/skiplist.c`: the sorted list of tagged keys.

Nodes live in a heap and are named by numbers; the header is node 0. Every node has a
chain of forward links per level it reaches, and one backward link. The list is ordered
by score and then by member. Spans serve ranks, which the module never asks for, and are
left out. -/
namespace RedisXSlot

def ZSKIPLIST_MAXLEVEL : Nat := 64

/-- `m_zrangespec`. -/
structure ZRangeSpec where
  min : Int
  max : Int
  minex : Bool
  maxex : Bool

namespace ZRangeSpec

/-- `m_zslValueGteMin`. -/
def gteMin (range : ZRangeSpec) (value : Int) : Bool := if range.minex then value > range.min else value ≥ range.min

/-- `m_zslValueLteMax`. -/
def lteMax (range : ZRangeSpec) (value : Int) : Bool := if range.maxex then value < range.max else value ≤ range.max

end ZRangeSpec

/-- `m_zskiplist` and the heap of its nodes. -/
structure Skiplist where
  member : Nat → Bytes
  score : Nat → Int
  backward : Nat → Option Nat
  /-- `forward i x` is `x->level[i].forward`. -/
  forward : Nat → Nat → Option Nat
  /-- The next node to be allocated. -/
  fresh : Nat
  tail : Option Nat
  length : Nat
  level : Nat

namespace Skiplist

def header : Nat := 0

/-- `m_zslCreate`. -/
def create : Skiplist where
  member _ := []
  score _ := 0
  backward _ := none
  forward _ _ := none
  fresh := 1
  tail := none
  length := 0
  level := 1

/-- `m_zslRandomLevel`, with the number of `rand()` calls that went on. -/
def randomLevel (draws : Nat) : Nat := if 1 + draws < ZSKIPLIST_MAXLEVEL then 1 + draws else ZSKIPLIST_MAXLEVEL

/-- The node is before the score and member looked for. -/
def before (z : Skiplist) (score : Int) (member : Bytes) (x : Nat) : Bool :=
  z.score x < score || (z.score x == score && stringCompare (z.member x) member == .lt)

/-- The search from level `i - 1` of node `x` down: on each level go forward while the next
node passes. The node reached, and the one each level was left at, `update`. -/
def search (z : Skiplist) (pass : Nat → Bool) : Nat → Nat → (Nat → Nat) → Nat × (Nat → Nat)
  | 0, x, update => (x, update)
  | i + 1, x, update =>
    let x := Chain.advance (z.forward i) pass z.length x
    z.search pass i x (Function.update update i x)

/-- `m_zslInsert`. Above the list's level `update` is the header. -/
def insert (z : Skiplist) (score : Int) (member : Bytes) (draws : Nat) : Skiplist :=
  let (_, update) := z.search (z.before score member) z.level header fun _ => header
  let level := randomLevel draws
  let x := z.fresh
  let forward := fun i => if i < level then Chain.splice (z.forward i) (update i) x else z.forward i
  let backward := Function.update z.backward x (if update 0 = header then none else some (update 0))
  { member := Function.update z.member x member
    score := Function.update z.score x score
    forward := forward
    backward := Chain.setBack backward (forward 0 x) (some x)
    fresh := x + 1
    tail := if (forward 0 x).isSome then z.tail else some x
    length := z.length + 1
    level := if level > z.level then level else z.level }

/-- The loop that lowers the level once its top levels are empty. -/
def lowerLevel (forward : Nat → Nat → Option Nat) : Nat → Nat
  | 0 => 0
  | level + 1 =>
    if level + 1 > 1 ∧ (forward level header).isNone then lowerLevel forward level else level + 1

/-- `m_zslDeleteNode`. -/
def deleteNode (z : Skiplist) (x : Nat) (update : Nat → Nat) : Skiplist :=
  let forward := fun i =>
    if i < z.level ∧ z.forward i (update i) = some x then Chain.unsplice (z.forward i) (update i) x
    else z.forward i
  { z with
    forward := forward
    backward := Chain.setBack z.backward (forward 0 x) (z.backward x)
    tail := if (forward 0 x).isSome then z.tail else z.backward x
    level := lowerLevel forward z.level
    length := z.length - 1 }

/-- `m_zslDelete`. -/
def delete (z : Skiplist) (score : Int) (member : Bytes) : Skiplist × Bool :=
  let (x, update) := z.search (z.before score member) z.level header fun _ => header
  match z.forward 0 x with
  | some x =>
    if score = z.score x ∧ stringCompare (z.member x) member = .eq then (z.deleteNode x update, true)
    else (z, false)
  | none => (z, false)

/-- `zslIsInRange`. -/
def isInRange (z : Skiplist) (range : ZRangeSpec) : Bool :=
  if range.min > range.max ∨ (range.min = range.max ∧ (range.minex ∨ range.maxex)) then false
  else
    match z.tail with
    | none => false
    | some x =>
      if !range.gteMin (z.score x) then false
      else
        match z.forward 0 header with
        | none => false
        | some x => range.lteMax (z.score x)

/-- The node behind all that are below the range. `m_zslFirstInRange` asserts that there is one. -/
def firstNotBelow (z : Skiplist) (range : ZRangeSpec) : Option Nat :=
  let (x, _) := z.search (fun x => !range.gteMin (z.score x)) z.level header fun _ => header
  z.forward 0 x

/-- `m_zslFirstInRange`. The assertion never fails (`firstNotBelow_isSome`), so `none` is NULL. -/
def firstInRange (z : Skiplist) (range : ZRangeSpec) : Option Nat :=
  if !z.isInRange range then none
  else
    match z.firstNotBelow range with
    | none => none
    | some x => if range.lteMax (z.score x) then some x else none

end Skiplist
end RedisXSlot
