import Mathlib.Logic.Function.Basic

/-! `dep/list.c`: doubly linked lists.

The nodes of a list are in a heap by their addresses. Following a pointer to a node that is
not there is undefined behaviour, `none`. -/
namespace RedisXSlot

/-- `m_listNode`. -/
structure ListNode (V : Type) where
  prev : Option Nat
  next : Option Nat
  value : V

/-- `list`, with the heap of its nodes and the address of the node that is made next. -/
structure AdList (V : Type) where
  head : Option Nat
  tail : Option Nat
  len : Nat
  node : Nat → Option (ListNode V)
  made : Nat

namespace AdList
variable {V : Type}

/-- `m_listCreate`. -/
def create : AdList V := ⟨none, none, 0, fun _ => none, 0⟩

/-- `zmalloc` of a node, which is filled in. -/
def alloc (l : AdList V) (n : ListNode V) : AdList V :=
  { l with node := Function.update l.node l.made (some n), made := l.made + 1 }

def free (l : AdList V) (x : Nat) : AdList V := { l with node := Function.update l.node x none }

/-- `x->next = v`. -/
def setNext (l : AdList V) (x : Nat) (v : Option Nat) : Option (AdList V) := do
  let n ← l.node x
  return { l with node := Function.update l.node x (some { n with next := v }) }

/-- `x->prev = v`. -/
def setPrev (l : AdList V) (x : Nat) (v : Option Nat) : Option (AdList V) := do
  let n ← l.node x
  return { l with node := Function.update l.node x (some { n with prev := v }) }

/-- `m_listAddNodeHead`. -/
def addNodeHead (l : AdList V) (value : V) : Option (AdList V) := do
  let x := l.made
  if l.len = 0 then
    return { l.alloc ⟨none, none, value⟩ with head := some x, tail := some x, len := l.len + 1 }
  else
    let l ← (l.alloc ⟨none, l.head, value⟩).setPrev (← l.head) (some x)
    return { l with head := some x, len := l.len + 1 }

/-- `m_listAddNodeTail`. -/
def addNodeTail (l : AdList V) (value : V) : Option (AdList V) := do
  let x := l.made
  if l.len = 0 then
    return { l.alloc ⟨none, none, value⟩ with head := some x, tail := some x, len := l.len + 1 }
  else
    let l ← (l.alloc ⟨l.tail, none, value⟩).setNext (← l.tail) (some x)
    return { l with tail := some x, len := l.len + 1 }

/-- `m_listInsertNode`. -/
def insertNode (l : AdList V) (old_node : Nat) (value : V) (after : Bool) : Option (AdList V) := do
  let x := l.made
  let old ← l.node old_node
  let prev := if after then some old_node else old.prev
  let next := if after then old.next else some old_node
  let l := l.alloc ⟨prev, next, value⟩
  let l := if after then if l.tail = some old_node then { l with tail := some x } else l
    else if l.head = some old_node then { l with head := some x } else l
  let l ← match prev with
    | some p => l.setNext p (some x)
    | none => some l
  let l ← match next with
    | some n => l.setPrev n (some x)
    | none => some l
  return { l with len := l.len + 1 }

/-- The pointer to what follows `u`, which is the head of the list if there is no `u`. -/
def linkNext (l : AdList V) (u v : Option Nat) : Option (AdList V) :=
  match u with
  | some p => l.setNext p v
  | none => some { l with head := v }

def linkPrev (l : AdList V) (v u : Option Nat) : Option (AdList V) :=
  match v with
  | some q => l.setPrev q u
  | none => some { l with tail := u }

/-- `m_listDelNode`. -/
def delNode (l : AdList V) (x : Nat) : Option (AdList V) := do
  let n ← l.node x
  let l ← l.linkNext n.prev n.next
  let n ← l.node x
  let l ← l.linkPrev n.next n.prev
  return { l.free x with len := l.len - 1 }

/-- `m_listRotate`. -/
def rotate (l : AdList V) : Option (AdList V) := do
  if l.len ≤ 1 then return l
  else
    let tail ← l.tail
    let t ← l.node tail
    -- Detach current tail
    let l ← { l with tail := t.prev }.setNext (← t.prev) none
    -- Move it as head
    let l ← l.setPrev (← l.head) (some tail)
    let l ← l.setPrev tail none
    let l ← l.setNext tail l.head
    return { l with head := some tail }

/-- `while (index-- && n)`, by `next` or by `prev`. -/
def walk (l : AdList V) (step : ListNode V → Option Nat) : Nat → Option Nat → Option (Option Nat)
  | 0, n => some n
  | _ + 1, none => some none
  | index + 1, some x => do walk l step index (step (← l.node x))

/-- `LONG_MAX`. -/
def LONG_MAX : Int := 0x7fffffffffffffff

/-- An index is a `long`, but not the least one, whose negative is none. -/
structure Index where
  val : Int
  negatable : -LONG_MAX ≤ val ∧ val ≤ LONG_MAX

/-- `m_listIndex`: NULL is the inner `none`. -/
def listIndex (l : AdList V) (index : Index) : Option (Option Nat) :=
  if index.val < 0 then l.walk ListNode.prev (-index.val - 1).toNat l.tail
  else l.walk ListNode.next index.val.toNat l.head

/-- `m_listSearchKey` from a node on, for as many nodes as the fuel allows. -/
def searchFrom [DecidableEq V] (l : AdList V) (key : V) : Nat → Option Nat → Option (Option Nat)
  | _, none => some none
  | 0, some _ => none
  | fuel + 1, some x => do
    let n ← l.node x
    if key = n.value then return some x else searchFrom l key fuel n.next

def searchKey [DecidableEq V] (l : AdList V) (key : V) : Option (Option Nat) := l.searchFrom key l.len l.head

/-- The loop of `m_listEmpty`. -/
def freeFrom : Nat → Option Nat → AdList V → Option (AdList V)
  | 0, _, l => some l
  | len + 1, current, l => do
    let x ← current
    let n ← l.node x
    freeFrom len n.next (l.free x)

/-- `m_listEmpty`, which is `m_listRelease` but for the list itself. -/
def empty (l : AdList V) : Option (AdList V) := do
  let l ← freeFrom l.len l.head l
  return { l with head := none, tail := none, len := 0 }

/-- `while ((node = m_listNext(iter)) != NULL)` from a node on: the values it meets, where
each node may be deleted when it has been returned. The fuel bounds the nodes. -/
def iterate (fromTail : Bool) (del : V → Bool) : Nat → Option Nat → AdList V → Option (AdList V × List V)
  | _, none, l => some (l, [])
  | 0, some _, _ => none
  | fuel + 1, some x, l => do
    let n ← l.node x
    let next := if fromTail then n.prev else n.next
    let l ← if del n.value then l.delNode x else some l
    let (l, vs) ← iterate fromTail del fuel next l
    return (l, n.value :: vs)

/-- What is done to a list; nodes are found by their index or by their value. -/
inductive Op (V : Type) where
  | addNodeHead (value : V)
  | addNodeTail (value : V)
  | insertNode (index : Index) (value : V) (after : Bool)
  | delNode (index : Index)
  | delKey (key : V)
  | rotate
  | value (index : Index)
  | length
  | iterate (fromTail : Bool) (del : V → Bool)
  | empty

/-- What comes of it. -/
inductive Result (V : Type) where
  | done
  | value (v : Option V)
  | length (n : Nat)
  | values (vs : List V)

/-- The node at an index, with its value. -/
def nodeAt (l : AdList V) (index : Index) : Option (Option (Nat × V)) := do
  match ← l.listIndex index with
  | some x =>
    let n ← l.node x
    return some (x, n.value)
  | none => return none

def perform [DecidableEq V] (l : AdList V) : Op V → Option (AdList V × Result V)
  | .addNodeHead value => do return (← l.addNodeHead value, .done)
  | .addNodeTail value => do return (← l.addNodeTail value, .done)
  | .insertNode index value after => do
    match ← l.nodeAt index with
    | some (x, v) => return (← l.insertNode x value after, .value (some v))
    | none => return (l, .value none)
  | .delNode index => do
    match ← l.nodeAt index with
    | some (x, v) => return (← l.delNode x, .value (some v))
    | none => return (l, .value none)
  | .delKey key => do
    match ← l.searchKey key with
    | some x => return (← l.delNode x, .value (some key))
    | none => return (l, .value none)
  | .rotate => do return (← l.rotate, .done)
  | .value index => do return (l, .value ((← l.nodeAt index).map Prod.snd))
  | .length => some (l, .length l.len)
  | .iterate fromTail del => do
    let (l, vs) ← iterate fromTail del l.len (if fromTail then l.tail else l.head) l
    return (l, .values vs)
  | .empty => do return (← l.empty, .done)

def run [DecidableEq V] (l : AdList V) : List (Op V) → Option (AdList V × List (Result V))
  | [] => some (l, [])
  | op :: ops => do
    let (l, r) ← l.perform op
    let (l, rs) ← run l ops
    return (l, r :: rs)

end AdList
end RedisXSlot
