import RedisXSlot.Dict

/-! `dep/dict.c` with iterators.

A dictionary that safe iterators run over is not rehashed by the operations on it, since an
iterator would miss the entries that move past it. So it counts the iterators; an iterator
counts itself in with its first step. -/
namespace RedisXSlot
variable {K V : Type} [DecidableEq K] (hash : K → Nat)

namespace DictHt

/-- The first entry of the key in the bucket of its hash. -/
def find (ht : DictHt K V) (key : K) : Option (K × V) :=
  (ht.bucket (hash key &&& ht.sizemask)).find? fun e => e.1 = key

/-- `dictSetVal` for the first entry of the key in a chain. -/
def setFirst (key : K) (val : V) : List (K × V) → List (K × V)
  | [] => []
  | e :: chain => if e.1 = key then (e.1, val) :: chain else e :: setFirst key val chain

def setVal (ht : DictHt K V) (key : K) (val : V) : DictHt K V :=
  let idx := hash key &&& ht.sizemask
  { ht with table := ht.table.set idx (setFirst key val (ht.bucket idx)) }

end DictHt

/-- `dict` with its `iterators`. -/
structure SharedDict (K V : Type) extends Dict K V where
  iterators : Nat

namespace SharedDict

/-- `_dictRehashStep`, if rehashing. -/
def rehashStep (d : SharedDict K V) : SharedDict K V :=
  if d.isRehashing ∧ d.iterators = 0 then { d with toDict := (d.rehash hash 1).1 } else d

/-- `_dictKeyIndex` with `existing`. -/
def keyIndex (d : SharedDict K V) (key : K) : SharedDict K V × Option Nat × Option (K × V) :=
  match d.expandIfNeeded with
  | none => (d, none, none)
  | some d' =>
    let d := { d with toDict := d' }
    match d.ht0.find hash key with
    | some e => (d, none, some e)
    | none =>
      if !d.isRehashing then (d, some (hash key &&& d.ht0.sizemask), none)
      else
        match d.ht1.find hash key with
        | some e => (d, none, some e)
        | none => (d, some (hash key &&& d.ht1.sizemask), none)

/-- `m_dictAddRaw`, and the value its caller sets: true if the key is new, else `existing`. -/
def addRaw (d : SharedDict K V) (key : K) (val : V) : SharedDict K V × Bool × Option (K × V) :=
  match (d.rehashStep hash).keyIndex hash key with
  | (d, none, existing) => (d, false, existing)
  | (d, some index, _) =>
    if d.isRehashing then ({ d with ht1 := d.ht1.push index (key, val) }, true, none)
    else ({ d with ht0 := d.ht0.push index (key, val) }, true, none)

/-- `m_dictAdd`: true for DICT_OK. -/
def add (d : SharedDict K V) (key : K) (val : V) : SharedDict K V × Bool :=
  let (d, new, _) := d.addRaw hash key val
  (d, new)

/-- `m_dictReplace`: true if the key is new. -/
def replace (d : SharedDict K V) (key : K) (val : V) : SharedDict K V × Bool :=
  match d.addRaw hash key val with
  | (d, true, _) => (d, true)
  | (d, false, _) =>
    match d.ht0.find hash key with
    | some _ => ({ d with ht0 := d.ht0.setVal hash key val }, false)
    | none => ({ d with ht1 := d.ht1.setVal hash key val }, false)

/-- `dictGenericDelete`: the entry it unlinks. -/
def unlink (d : SharedDict K V) (key : K) : SharedDict K V × Option (K × V) :=
  if d.ht0.used = 0 ∧ d.ht1.used = 0 then (d, none)
  else
    let d := d.rehashStep hash
    match d.ht0.find hash key with
    | some e => ({ d with ht0 := d.ht0.unlink hash key }, some e)
    | none =>
      if !d.isRehashing then (d, none)
      else
        match d.ht1.find hash key with
        | some e => ({ d with ht1 := d.ht1.unlink hash key }, some e)
        | none => (d, none)

/-- `m_dictFind`. -/
def find (d : SharedDict K V) (key : K) : SharedDict K V × Option (K × V) :=
  if d.ht0.used + d.ht1.used = 0 then (d, none)
  else
    let d := d.rehashStep hash
    match d.ht0.find hash key with
    | some e => (d, some e)
    | none => if !d.isRehashing then (d, none) else (d, d.ht1.find hash key)

/-- `m_dictResize` and `m_dictExpand` called from outside: false for DICT_ERR. -/
def resize (d : SharedDict K V) : SharedDict K V × Bool :=
  match d.toDict.resize with
  | some d' => ({ d with toDict := d' }, true)
  | none => (d, false)

def expand (d : SharedDict K V) (size : Nat) : SharedDict K V × Bool :=
  match d.toDict.expand size with
  | some d' => ({ d with toDict := d' }, true)
  | none => (d, false)

/-- The operations on a dictionary. Iterators over it come and go; the rounds of the cron
rehash whether there are any or not. A table takes up no more than an `unsigned long` counts in
bytes, and ten times the steps of a rehashing are an `int`. -/
inductive Op (K V : Type) where
  | add (key : K) (val : V)
  | replace (key : K) (val : V)
  | find (key : K)
  | unlink (key : K)
  | size
  | resize
  | expand (size : Nat) (fits : size ≤ 2 ^ 60)
  | rehash (n : Nat) (fits : n * 10 < 2 ^ 31)
  | rehashMilliseconds (rounds : Nat)
  | iterators (n : Nat)
  | empty

/-- What an operation returns; what it says about the tables is not looked at. -/
inductive Result (K V : Type) where
  | flag (b : Bool)
  | entry (e : Option (K × V))
  | count (n : Nat)
  | done

def perform (d : SharedDict K V) : Op K V → SharedDict K V × Result K V
  | .add key val =>
    let (d, b) := d.add hash key val
    (d, .flag b)
  | .replace key val =>
    let (d, b) := d.replace hash key val
    (d, .flag b)
  | .find key =>
    let (d, e) := d.find hash key
    (d, .entry e)
  | .unlink key =>
    let (d, e) := d.unlink hash key
    (d, .entry e)
  | .size => (d, .count d.size)
  | .resize => (d.resize.1, .done)
  | .expand size _ => ((d.expand size).1, .done)
  | .rehash n _ => ({ d with toDict := (d.toDict.rehash hash n).1 }, .done)
  | .rehashMilliseconds rounds => ({ d with toDict := d.toDict.rehashMilliseconds hash rounds }, .done)
  | .iterators n => ({ d with iterators := n }, .done)
  -- The iterators are forgotten.
  | .empty => (⟨.create, 0⟩, .done)

def run (d : SharedDict K V) : List (Op K V) → SharedDict K V × List (Result K V)
  | [] => (d, [])
  | op :: ops =>
    let (d, r) := d.perform hash op
    let (d, rs) := d.run ops
    (d, r :: rs)

end SharedDict

/-- `m_dictIterator`, a safe one. Entries are named by their keys. -/
structure DictIterator (K : Type) where
  /-- Whether `table` is 1. -/
  second : Bool
  /-- `none` for -1. -/
  index : Option Nat
  entry : Option K
  nextEntry : Option K

namespace DictIterator

/-- `m_dictGetSafeIterator`. -/
def safe : DictIterator K := ⟨false, none, none, none⟩

/-- The table the iterator is in. -/
def table (it : DictIterator K) (d : Dict K V) : DictHt K V := if it.second then d.ht1 else d.ht0

/-- The entry `key` of the bucket the iterator is in and what follows it. -/
def chainFrom (it : DictIterator K) (d : Dict K V) (key : K) : List (K × V) :=
  match it.index with
  | some i => ((it.table d).bucket i).dropWhile fun e => e.1 ≠ key
  | none => []

/-- Return an entry, with the next one of its chain saved. -/
def stand (it : DictIterator K) (e : K × V) (chain : List (K × V)) : DictIterator K :=
  { it with entry := some e.1, nextEntry := chain.head?.map Prod.fst }

/-- Go on to the next bucket; `none` at the end. -/
def nextBucket (it : DictIterator K) (d : Dict K V) : Option (DictIterator K) :=
  let index := it.index.elim 0 (· + 1)
  if index ≥ (it.table d).size then
    if d.isRehashing ∧ !it.second then some { it with second := true, index := some 0 } else none
  else some { it with index := some index }

/-- The rounds of `m_dictNext`: the entry it returns, `none` for NULL. An entry that is
pointed to but no longer there is undefined behaviour, the outer `none`. -/
def nextLoop (d : Dict K V) : Nat → DictIterator K → Option (DictIterator K × Option (K × V))
  | 0, _ => none
  | rounds + 1, it =>
    match it.entry with
    | none =>
      match it.nextBucket d with
      | none => some ({ it with index := some (it.index.elim 0 (· + 1)) }, none)
      | some it =>
        match (it.table d).bucket (it.index.getD 0) with
        | e :: chain => some (it.stand e chain, some e)
        | [] => nextLoop d rounds it
    | some _ =>
      match it.nextEntry with
      | none => nextLoop d rounds { it with entry := none }
      | some key =>
        match it.chainFrom d key with
        | e :: chain => some (it.stand e chain, some e)
        | [] => none

end DictIterator

/-- `m_dictNext`. -/
def SharedDict.next (d : SharedDict K V) (it : DictIterator K) : Option (SharedDict K V × DictIterator K × Option (K × V)) :=
  -- The first step of an iterator counts it.
  let d := if it.entry.isNone ∧ it.index.isNone ∧ !it.second then { d with iterators := d.iterators + 1 } else d
  match it.nextLoop d.toDict (d.slots + 2) with
  | some (it, e) => some (d, it, e)
  | none => none

/-- `m_dictReleaseIterator`. -/
def SharedDict.release (d : SharedDict K V) (it : DictIterator K) : SharedDict K V :=
  if it.index.isNone ∧ !it.second then d else { d with iterators := d.iterators - 1 }

end RedisXSlot
