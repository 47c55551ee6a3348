import RedisXSlot.SkiplistProofs
import RedisXSlot.Lib.Spans

/-! `dep/skiplist.c` with its spans: ranks and ranges.

Beside its pointer every link holds a span, so that the place of a node is the sum of the
spans on the way to it. The pointers are those of `Skiplist`; inserting counts them in
`unsigned int`, looking up in `unsigned long`. -/
namespace RedisXSlot

/-- `m_zskiplist` with its spans. -/
structure Ranked extends Skiplist where
  /-- `span i x` is `x->level[i].span`. -/
  span : Nat → Nat → Nat

namespace Ranked
open Skiplist

/-- `m_zslCreate`. -/
def create : Ranked := ⟨Skiplist.create, fun _ _ => 0⟩

/-- The search that counts: the node reached and its rank, and for each level the node it
was left at and that node's rank. -/
def search (z : Ranked) (pass : Nat → Nat → Bool) : Nat → Nat × Nat → (Nat → Nat × Nat) → (Nat × Nat) × (Nat → Nat × Nat)
  | 0, x, update => (x, update)
  | i + 1, (x, traversed), update =>
    let x := Chain.stride (z.forward i) (z.span i) pass z.length x traversed
    z.search pass i x (Function.update update i x)

/-- `m_zslInsert`. `rank` is `unsigned int`; above the list's level it is 0. -/
protected def insert (z : Ranked) (score : Int) (member : Bytes) (draws : Nat) : Ranked :=
  let (_, left) := z.search (fun _ => z.before score member) z.level (header, 0) fun _ => (header, 0)
  let update := fun i => (left i).1
  let rank := fun i => (left i).2 % 2 ^ 32
  let behind := fun i => (rank 0 + 2 ^ 32 - rank i) % 2 ^ 32
  let level := randomLevel draws
  let x := z.fresh
  let span := fun i => if z.level ≤ i ∧ i < level then Function.update (z.span i) header z.length else z.span i
  { z.toSkiplist.insert score member draws with
    span := fun i =>
      if i < level then
        Function.update (Function.update (span i) x (span i (update i) - behind i)) (update i)
          ((behind i + 1) % 2 ^ 32)
      else if i < z.level then Function.update (span i) (update i) (span i (update i) + 1)
      else span i }

/-- `m_zslDeleteNode`. -/
def deleteNode (z : Ranked) (x : Nat) (update : Nat → Nat) : Ranked :=
  { z.toSkiplist.deleteNode x update with
    span := fun i =>
      if i < z.level then
        if z.forward i (update i) = some x then
          Function.update (z.span i) (update i) (z.span i (update i) + z.span i x - 1)
        else Function.update (z.span i) (update i) (z.span i (update i) - 1)
      else z.span i }

/-- `m_zslDelete`. -/
def delete (z : Ranked) (score : Int) (member : Bytes) : Ranked × Bool :=
  let (x, update) := z.toSkiplist.search (z.before score member) z.level header fun _ => header
  match z.forward 0 x with
  | some x =>
    if score = z.score x ∧ stringCompare (z.member x) member = .eq then (z.deleteNode x update, true)
    else (z, false)
  | none => (z, false)

/-- `m_zslUpdateScore`, with the node it returns; `none` if its assertion fails. -/
def updateScore (z : Ranked) (curscore : Int) (member : Bytes) (newscore : Int) (draws : Nat) : Option (Ranked × Nat) :=
  let (x, update) := z.toSkiplist.search (z.before curscore member) z.level header fun _ => header
  match z.forward 0 x with
  | none => none
  | some x =>
    if curscore = z.score x ∧ stringCompare (z.member x) member = .eq then
      if (z.backward x).all (fun y => z.score y < newscore) ∧ (z.forward 0 x).all (fun y => z.score y > newscore) then
        some ({ z with score := Function.update z.score x newscore }, x)
      else
        let z' := z.deleteNode x update
        some (z'.insert newscore (z'.member x) draws, z'.fresh)
    else none

/-- Delete nodes from `x` on while `pass` holds of the number removed and of the node. -/
def deleteWhile (pass : Ranked → Nat → Nat → Bool) (update : Nat → Nat) : Nat → Ranked → Option Nat → Nat → Ranked × Nat
  | fuel + 1, z, some x, removed =>
    if pass z removed x then deleteWhile pass update fuel (z.deleteNode x update) (z.forward 0 x) (removed + 1)
    else (z, removed)
  | _, z, _, removed => (z, removed)

/-- `m_zslDeleteRangeByScore`: what is left, and how many were removed. -/
def deleteRangeByScore (z : Ranked) (range : ZRangeSpec) : Ranked × Nat :=
  let (x, update) := z.toSkiplist.search
    (fun x => if range.minex then z.score x ≤ range.min else z.score x < range.min) z.level header fun _ => header
  deleteWhile (fun z _ x => if range.maxex then z.score x < range.max else z.score x ≤ range.max) update z.length z
    (z.forward 0 x) 0

/-- `m_zslDeleteRangeByRank`: what is left, and how many were removed. -/
def deleteRangeByRank (z : Ranked) (start stop : Nat) : Ranked × Nat :=
  let ((x, traversed), left) := z.search (fun traversed _ => traversed < start) z.level (header, 0) fun _ => (header, 0)
  deleteWhile (fun _ removed _ => traversed + 1 + removed ≤ stop) (fun i => (left i).1) z.length z (z.forward 0 x) 0

/-- The loop of `m_zslGetElementByRank` over the levels. -/
def elementByRank (z : Ranked) (rank : Nat) : Nat → Nat × Nat → Option Nat
  | 0, _ => none
  | i + 1, (x, traversed) =>
    let (x, traversed) := Chain.stride (z.forward i) (z.span i) (fun traversed _ => traversed ≤ rank) z.length x traversed
    if traversed = rank then some x else z.elementByRank rank i (x, traversed)

/-- `m_zslGetElementByRank`. -/
def getElementByRank (z : Ranked) (rank : Nat) : Option Nat := z.elementByRank rank z.level (header, 0)

/-- `m_zslLastInRange`. -/
def lastInRange (z : Ranked) (range : ZRangeSpec) : Option Nat :=
  if !z.isInRange range then none
  else
    let (x, _) := z.toSkiplist.search (fun x => range.lteMax (z.score x)) z.level header fun _ => header
    if range.gteMin (z.score x) then some x else none

/-- The operations that change a skiplist. -/
inductive Op where
  | insert (score : Int) (member : Bytes) (draws : Nat)
  | delete (score : Int) (member : Bytes)
  | updateScore (curscore : Int) (member : Bytes) (newscore : Int) (draws : Nat)
  | deleteRangeByScore (range : ZRangeSpec)
  | deleteRangeByRank (start stop : Nat)

/-- What an operation returns: what the node holds it points to, or a number. -/
inductive Result where
  | node (a : Item)
  | count (n : Nat)
  deriving DecidableEq

def Op.perform (z : Ranked) : Op → Option (Ranked × Result)
  | .insert score member draws =>
    let z' := z.insert score member draws
    some (z', .node (z'.item z.fresh))
  | .delete score member =>
    let (z', found) := z.delete score member
    some (z', .count found.toNat)
  | .updateScore curscore member newscore draws =>
    (z.updateScore curscore member newscore draws).map fun (z', x) => (z', .node (z'.item x))
  | .deleteRangeByScore range =>
    let (z', removed) := z.deleteRangeByScore range
    some (z', .count removed)
  | .deleteRangeByRank start stop =>
    let (z', removed) := z.deleteRangeByRank start stop
    some (z', .count removed)

/-- A run of operations, with what they return; `none` if an assertion fails. -/
def run : List Op → Ranked → Option (Ranked × List Result)
  | [], z => some (z, [])
  | op :: ops, z => do
    let (z, r) ← op.perform z
    let (z, rs) ← run ops z
    return (z, r :: rs)

end Ranked
end RedisXSlot
