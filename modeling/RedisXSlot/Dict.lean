import Mathlib

/-! `dep/dict.c`: hash tables that are rehashed step by step.

A dictionary has two tables. When it has to grow or shrink it makes the second one and
then moves a bucket at a time, on every operation and in the cron; while it does, a key
is in the bucket of its hash in one table or the other. Buckets are chains with new
entries in front. Resizing is never disabled and no safe iterator is ever made, so
`dict_can_resize` is 1 and `iterators` 0. -/
namespace RedisXSlot

def DICT_HT_INITIAL_SIZE : Nat := 4

/-- `dictht`: a NULL table is the empty list. -/
structure DictHt (K V : Type) where
  table : List (List (K × V))
  used : Nat

structure Dict (K V : Type) where
  ht0 : DictHt K V
  ht1 : DictHt K V
  /-- `none` for -1. -/
  rehashidx : Option Nat

variable {K V : Type}

namespace DictHt

def size (ht : DictHt K V) : Nat := ht.table.length
def sizemask (ht : DictHt K V) : Nat := ht.size - 1

/-- `_dictReset`. -/
def reset : DictHt K V := ⟨[], 0⟩

def bucket (ht : DictHt K V) (i : Nat) : List (K × V) := ht.table.getD i []

/-- A new entry goes on top of its bucket. -/
def push (ht : DictHt K V) (i : Nat) (e : K × V) : DictHt K V :=
  ⟨ht.table.set i (e :: ht.bucket i), ht.used + 1⟩

variable [DecidableEq K] (hash : K → Nat)

/-- The key is in the bucket of its hash. -/
def has (ht : DictHt K V) (key : K) : Bool :=
  (ht.bucket (hash key &&& ht.sizemask)).any fun e => e.1 = key

/-- Unlink the first entry of the key from its bucket. -/
def unlink (ht : DictHt K V) (key : K) : DictHt K V :=
  let idx := hash key &&& ht.sizemask
  ⟨ht.table.set idx ((ht.bucket idx).eraseP fun e => e.1 = key), ht.used - 1⟩

end DictHt

namespace Dict

def create : Dict K V := ⟨.reset, .reset, none⟩

def isRehashing (d : Dict K V) : Bool := d.rehashidx.isSome

/-- `dictSize`. -/
def size (d : Dict K V) : Nat := d.ht0.used + d.ht1.used

/-- `dictSlots`. -/
def slots (d : Dict K V) : Nat := d.ht0.size + d.ht1.size

/-- The loop of `_dictNextPower`. The guard against `LONG_MAX` is left out, as is the wrap of
`realsize * sizeof(m_dictEntry*)`: sizes up to `2 ^ 60` meet neither, and no table is larger. -/
def nextPowerLoop : Nat → Nat → Nat → Nat
  | 0, i, _ => i
  | fuel + 1, i, size => if i ≥ size then i else nextPowerLoop fuel (i * 2) size

def nextPower (size : Nat) : Nat := nextPowerLoop size DICT_HT_INITIAL_SIZE size

/-- `m_dictExpand`; `none` is DICT_ERR. -/
def expand (d : Dict K V) (size : Nat) : Option (Dict K V) :=
  if d.isRehashing ∨ d.ht0.used > size then none
  else
    let realsize := nextPower size
    if realsize = d.ht0.size then none
    else
      let n : DictHt K V := ⟨List.replicate realsize [], 0⟩
      -- The first initialization is not a rehashing.
      if d.ht0.table.isEmpty then some { d with ht0 := n }
      else some { d with ht1 := n, rehashidx := some 0 }

/-- `m_dictResize`; `minimal` is an `int`. -/
def resize (d : Dict K V) : Option (Dict K V) :=
  if d.isRehashing then none
  else
    let minimal : Int := (d.ht0.used : Int).bmod (2 ^ 32)
    let minimal := if minimal < DICT_HT_INITIAL_SIZE then (DICT_HT_INITIAL_SIZE : Int) else minimal
    d.expand minimal.toNat

section Hash
variable (hash : K → Nat)

/-- Skip empty buckets from `idx` on, at most `visits` of them: the index reached, and
the visits left unless they have run out. -/
def skipEmpty (ht : DictHt K V) : Nat → Nat → Nat × Option Nat
  | 0, idx => (idx, none)
  | visits + 1, idx =>
    if (ht.bucket idx).isEmpty then
      if visits = 0 then (idx + 1, none) else skipEmpty ht visits (idx + 1)
    else (idx, some (visits + 1))

/-- Move the entries of a bucket, from its head on, to the new table. -/
def moveEntries (ht : DictHt K V) (chain : List (K × V)) : DictHt K V :=
  chain.foldl (fun ht e => ht.push (hash e.1 &&& ht.sizemask) e) ht

/-- The loop of `m_dictRehash` at index `idx`; true if it has visited too many empty
buckets. -/
def rehashLoop : Nat → Nat → Nat → Dict K V → Dict K V × Bool
  | 0, _, idx, d => ({ d with rehashidx := some idx }, false)
  | n + 1, visits, idx, d =>
    if d.ht0.used = 0 then ({ d with rehashidx := some idx }, false)
    else
      match skipEmpty d.ht0 visits idx with
      | (idx, none) => ({ d with rehashidx := some idx }, true)
      | (idx, some visits) =>
        let chain := d.ht0.bucket idx
        rehashLoop n visits (idx + 1)
          { ht0 := ⟨d.ht0.table.set idx [], d.ht0.used - chain.length⟩
            ht1 := moveEntries hash d.ht1 chain
            rehashidx := d.rehashidx }

/-- `m_dictRehash`: whether there is more to rehash. -/
def rehash (d : Dict K V) (n : Nat) : Dict K V × Bool :=
  match d.rehashidx with
  | none => (d, false)
  | some idx =>
    match rehashLoop hash n (n * 10) idx d with
    | (d, true) => (d, true)
    | (d, false) =>
      -- Check if we already rehashed the whole table...
      if d.ht0.used = 0 then (⟨d.ht1, .reset, none⟩, false) else (d, true)

/-- `m_dictRehashMilliseconds`; `rounds` is how often its loop runs before the time is up. -/
def rehashMilliseconds : Nat → Dict K V → Dict K V
  | 0, d => (rehash hash d 100).1
  | rounds + 1, d =>
    match rehash hash d 100 with
    | (d, true) => rehashMilliseconds rounds d
    | (d, false) => d

/-- `_dictRehashStep`, if rehashing. -/
def rehashStep (d : Dict K V) : Dict K V := if d.isRehashing then (rehash hash d 1).1 else d

/-- `_dictExpandIfNeeded`; `none` is DICT_ERR. -/
def expandIfNeeded (d : Dict K V) : Option (Dict K V) :=
  if d.isRehashing then some d
  else if d.ht0.size = 0 then d.expand DICT_HT_INITIAL_SIZE
  else if d.ht0.used ≥ d.ht0.size then d.expand (d.ht0.used * 2)
  else some d

variable [DecidableEq K]

/-- `_dictKeyIndex`: the bucket for a new entry, `none` for -1, after expanding if needed. -/
def keyIndex (d : Dict K V) (key : K) : Dict K V × Option Nat :=
  match expandIfNeeded d with
  | none => (d, none)
  | some d =>
    if d.ht0.has hash key then (d, none)
    else if !d.isRehashing then (d, some (hash key &&& d.ht0.sizemask))
    else if d.ht1.has hash key then (d, none)
    else (d, some (hash key &&& d.ht1.sizemask))

/-- `m_dictAdd`: true for DICT_OK. -/
def add (d : Dict K V) (key : K) (val : V) : Dict K V × Bool :=
  match keyIndex hash (rehashStep hash d) key with
  | (d, none) => (d, false)
  | (d, some index) =>
    if d.isRehashing then ({ d with ht1 := d.ht1.push index (key, val) }, true)
    else ({ d with ht0 := d.ht0.push index (key, val) }, true)

/-- `m_dictDelete` through `dictGenericDelete`: true for DICT_OK. -/
def delete (d : Dict K V) (key : K) : Dict K V × Bool :=
  if d.ht0.used = 0 ∧ d.ht1.used = 0 then (d, false)
  else
    let d := rehashStep hash d
    if d.ht0.has hash key then ({ d with ht0 := d.ht0.unlink hash key }, true)
    else if d.isRehashing ∧ d.ht1.has hash key then ({ d with ht1 := d.ht1.unlink hash key }, true)
    else (d, false)

/-- `m_dictEmpty`. -/
def empty (_ : Dict K V) : Dict K V := ⟨.reset, .reset, none⟩

/-- `do { h = ...random()...; } while (he == NULL)`; `none` while the draws do not end it. -/
def pickBucket (bucketAt : Nat → List (K × V)) : List Nat → Option (List (K × V) × List Nat)
  | [] => none
  | r :: draws => if (bucketAt r).isEmpty then pickBucket bucketAt draws else some (bucketAt r, draws)

/-- The bucket a `random()` of the loop leads to: while rehashing, of either table. -/
def bucketAt (d : Dict K V) (r : Nat) : List (K × V) :=
  match d.rehashidx with
  | some idx =>
    -- There are no entries before rehashidx.
    let h := idx + r % (d.ht0.size + d.ht1.size - idx)
    if h ≥ d.ht0.size then d.ht1.bucket (h - d.ht0.size) else d.ht0.bucket h
  | none => d.ht0.bucket (r &&& d.ht0.sizemask)

/-- `m_dictGetRandomKey`, its `random()` calls answered by `draws`; the outer `none` is a
loop that has not ended. The length of the chain is an `int` in C and has no bound here: chains
are below `2 ^ 31` entries long. -/
def getRandomKey (d : Dict K V) (draws : List Nat) : Dict K V × Option (Option (K × V)) :=
  if d.size = 0 then (d, some none)
  else
    let d := rehashStep hash d
    match pickBucket (bucketAt d) draws with
    | some (chain, r :: _) => (d, some chain[r % chain.length]?)
    | _ => (d, none)

end Hash
end Dict
end RedisXSlot
