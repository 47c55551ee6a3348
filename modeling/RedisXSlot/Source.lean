import RedisXSlot.Delivery
import RedisXSlot.Notify
import RedisXSlot.Tag

/-! The source: a Redis with the module in it, while a migration runs.

A call of the migration to its own server is answered from the keyspace and the index, and
changes them the way Redis does: a key that has expired goes as soon as it is looked at,
UNLINK takes a key away, and either way the module is notified. Between two calls of an
async migration other clients may run commands and time may pass (`Move`). What goes over
the network leaves the source as it is.

Keys are values here. In the C code the keys of a tag group are the strings of the index,
used without a reference of one's own: if such a key expires in its DUMP, the event for it
takes it out of the index and frees it, and UNLINK is called with the freed string all the
same. The model goes on with the key's bytes there. -/
namespace RedisXSlot
open Interaction

/-- The database a migration works on, the clock, and the module. -/
structure Source where
  keyspace : Keyspace
  now : Int
  mod : ModuleState

/-- What happens at the source, other than the calls of the migration. -/
inductive Move where
  | tick (ms : Nat)
  /-- A client's command on the key leaves it like this: a write, a deletion, a new expiry. -/
  | client (key : Bytes) (content : Option Entry) (draws : Nat)
  /-- Redis looks for expired keys in the background. -/
  | reap (key : Bytes)

inductive Label where
  | call (e : Event)
  | move (m : Move)

/-- The calls of the migration among the labels. -/
def calls (ls : List Label) : Trace :=
  ls.filterMap fun l => match l with
    | .call e => some e
    | .move _ => none

def Entry.expired (entry : Entry) (now : Int) : Bool := entry.expire.any (· < now)

section Hash
variable (hash : Bytes → Nat) (conf : SlotsMetaInfo) (db : Nat)

namespace Source

/-- The key as clients see it. -/
def live (s : Source) (key : Bytes) : Option Entry := (s.keyspace key).filter fun entry => !entry.expired s.now

/-- The key goes, and the module is notified. -/
def drop (s : Source) (key : Bytes) (type : NotifyType) (event : String) : Source :=
  { s with
    keyspace := Function.update s.keyspace key none
    mod := notify hash conf 0 s.mod ⟨type, event, db, key⟩ }

/-- Looking a key up: it goes if it has expired. -/
def touch (s : Source) (key : Bytes) : Source :=
  if (s.keyspace key).any (·.expired s.now) then s.drop hash conf db key .expired "expired" else s

/-- `UNLINK`. -/
def unlink (s : Source) (key : Bytes) : Source :=
  let s := s.touch hash conf db key
  if (s.keyspace key).isSome then s.drop hash conf db key .generic "del" else s

/-- What PTTL replies. -/
def pttl (s : Source) (key : Bytes) : Int :=
  match s.live key with
  | none => -2
  | some ⟨_, none⟩ => -1
  | some ⟨_, some expire⟩ => expire - s.now

/-- A client's command; a key it leaves there raises an event of its type. -/
def client (s : Source) (key : Bytes) (content : Option Entry) (draws : Nat) : Source :=
  match content with
  | some entry =>
    { s with
      keyspace := Function.update s.keyspace key (some entry)
      mod := notify hash conf draws s.mod ⟨.string, "set", db, key⟩ }
  | none => s.unlink hash conf db key

def move (s : Source) : Move → Source
  | .tick ms => { s with now := s.now + ms }
  | .client key content draws => s.client hash conf db key content draws
  | .reap key => s.touch hash conf db key

/-- A call is answered like this and leaves the source so. Calls to the network and to the
pool may be answered in any way. -/
def call (s : Source) (e : Event) (s' : Source) : Prop :=
  match e with
  | ⟨.dump key, a⟩ =>
    a = dumpReply (fun key => (s.live key).map Entry.val) key ∧ s' = s.touch hash conf db key
  | ⟨.pttl key, a⟩ => (∃ n : Int64, a = Reply.integer n ∧ n.toInt = s.pttl key) ∧ s' = s.touch hash conf db key
  | ⟨.unlink key, a⟩ =>
    a = Reply.integer (if (s.live key).isSome then 1 else 0) ∧ s' = s.unlink hash conf db key
  | ⟨.randomKey i slot, a⟩ =>
    ∃ draws d out, Dict.getRandomKey hash (s.mod.slots.table i slot) draws = (d, some out) ∧
      a = out.map Prod.fst ∧ s' = { s with mod := { s.mod with slots := s.mod.slots.setTable i slot d } }
  | ⟨.slotSize i slot, a⟩ => a = (s.mod.slots.table i slot).size ∧ s' = s
  | ⟨.taggedKeys i crc, a⟩ => a = (s.mod.slots.db_slot_infos i).tagged_key_list.taggedKeys crc ∧ s' = s
  | _ => s' = s

/-- A step of the source. -/
def step (s : Source) (l : Label) (s' : Source) : Prop :=
  match l with
  | .call e => s.call hash conf db e s'
  | .move m => s' = s.move hash conf db m

end Source
end Hash

/-! ### What a step changes -/

@[simp] theorem calls_append (a b : List Label) : calls (a ++ b) = calls a ++ calls b := List.filterMap_append
@[simp] theorem calls_nil : calls [] = [] := rfl
@[simp] theorem calls_call (e : Event) (ls : List Label) : calls (.call e :: ls) = e :: calls ls := rfl
@[simp] theorem calls_move (m : Move) (ls : List Label) : calls (.move m :: ls) = calls ls := rfl

/-- In a synchronous migration there is nothing but its own calls. -/
theorem calls_map_call (t : Trace) : calls (t.map .call) = t := by
  induction t with
  | nil => rfl
  | cons e t ih => rw [List.map_cons, calls_call, ih]

/-- Moves are no calls. -/
@[simp] theorem calls_map_move (ms : List Move) : calls (ms.map .move) = [] := by
  induction ms with
  | nil => rfl
  | cons m ms ih => rw [List.map_cons, calls_move, ih]

theorem mem_calls {e : Event} {ls : List Label} : e ∈ calls ls ↔ Label.call e ∈ ls := by
  induction ls with
  | nil => simp
  | cons l ls ih => cases l <;> simp [ih]

namespace Source
variable {hash : Bytes → Nat} {conf : SlotsMetaInfo} {db : Nat} {s s' : Source} {key : Bytes}

theorem live_eq_some {entry : Entry} (h : s.live key = some entry) :
    s.keyspace key = some entry ∧ entry.expired s.now = false := by
  simpa [live, Option.filter_eq_some_iff] using h

theorem touch_of_live {entry : Entry} (h : s.live key = some entry) : s.touch hash conf db key = s := by
  obtain ⟨hk, hx⟩ := live_eq_some h
  simp [touch, hk, hx]

theorem touch_of_absent (h : s.keyspace key = none) : s.touch hash conf db key = s := by
  simp [touch, h]

/-- After a look a key is there as clients see it. -/
theorem keyspace_touch (s : Source) (key : Bytes) : (s.touch hash conf db key).keyspace key = s.live key := by
  rw [touch, live]
  cases hk : s.keyspace key with
  | none => simp [hk]
  | some entry =>
    cases hx : entry.expired s.now with
    | true => simp [hx, drop, Option.filter]
    | false => simp [hx, hk, Option.filter]

theorem keyspace_touch_of_ne (s : Source) {k : Bytes} (hne : k ≠ key) :
    (s.touch hash conf db key).keyspace k = s.keyspace k := by
  rw [touch]
  split
  next => exact Function.update_of_ne hne ..
  next => rfl

@[simp] theorem now_touch (s : Source) (key : Bytes) : (s.touch hash conf db key).now = s.now := by
  rw [touch]
  split <;> rfl

theorem now_unlink (s : Source) (key : Bytes) : (s.unlink hash conf db key).now = s.now := by
  have htouch : (s.touch hash conf db key).now = s.now := now_touch s key
  rw [← htouch]
  simp only [unlink]
  split
  next => rfl
  next => rfl

theorem keyspace_unlink (s : Source) (key : Bytes) : (s.unlink hash conf db key).keyspace key = none := by
  simp only [unlink]
  split
  next => exact Function.update_self ..
  next h => simpa using h

theorem keyspace_unlink_of_ne (s : Source) {k : Bytes} (hne : k ≠ key) :
    (s.unlink hash conf db key).keyspace k = s.keyspace k := by
  simp only [unlink]
  split
  next => exact (Function.update_of_ne hne ..).trans (keyspace_touch_of_ne s hne)
  next => exact keyspace_touch_of_ne s hne

/-- Network traffic leaves the source alone. -/
theorem call_of_net {e : Event} (h : s.call hash conf db e s') (hnet : e.call.isNet = true) : s' = s := by
  obtain ⟨c, a⟩ := e
  cases c with
  | dump | pttl | unlink | restore | notifyOne | pthreadCreate | randomKey | slotSize | taggedKeys => cases hnet
  | _ => exact h

end Source
end RedisXSlot
