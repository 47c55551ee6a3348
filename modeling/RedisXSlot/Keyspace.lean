import RedisXSlot.Restore
import RedisXSlot.SendProofs

/-! The keys a server holds.

A database maps keys to entries: a value in its dumped form and an optional instant of
expiry. `Holds` is what a transfer of objects is for: every object's key has its entry,
and no other key has changed. It says nothing of an order, and determines the result. -/
namespace RedisXSlot
open Interaction

structure Entry where
  val : Bytes
  /-- The instant of expiry in milliseconds. -/
  expire : Option Int
  deriving DecidableEq, Repr

abbrev Keyspace := Bytes → Option Entry

/-- `RESTORE key ttlms val REPLACE`: a TTL of 0 means no expiry. -/
def Keyspace.restore (ks : Keyspace) (now : Int) (key : Bytes) (ttlms : Int64) (val : Bytes) : Keyspace :=
  Function.update ks key (some ⟨val, if ttlms = 0 then none else some (now + ttlms.toInt)⟩)

/-! ### The target's server -/

/-- A RESTORE that is not refused takes effect; nothing else the target asks for does. -/
def targetNext (now : Int) (ks : Keyspace) (e : Event) : Keyspace :=
  match e with
  | ⟨.restore key ttlms val, .string _⟩ => ks.restore now key ttlms val
  | _ => ks

def targetAfter (now : Int) (ks : Keyspace) (t : Trace) : Keyspace := t.foldl (targetNext now) ks

theorem targetAfter_append (now : Int) (ks : Keyspace) (t t' : Trace) :
    targetAfter now ks (t ++ t') = targetAfter now (targetAfter now ks t) t' := List.foldl_append

/-- RESTORE replies a status or an error. -/
def RedisReplies (t : Trace) : Prop :=
  ∀ key ttlms val a, (⟨.restore key ttlms val, a⟩ : Event) ∈ t → a = .error ∨ ∃ s, a = .string s

/-- The target runs a command in `slotsRestoreCmd` and finds no error. -/
def RestoreStep (now : Int) (ks : Keyspace) (argv : List Bytes) (ks' : Keyspace) : Prop :=
  ∃ t r, Runs (slotsRestoreCmd argv) t (some r) ∧ r ≠ SLOTS_MGRT_ERR ∧ RedisReplies t ∧
    ks' = targetAfter now ks t

/-- A synchronous target runs a command and its reply is no error. -/
def AckStep (now : Int) (ks : Keyspace) (argv : List Bytes) (ks' : Keyspace) : Prop :=
  ∃ t r, Runs (slotsRestoreRedisCommand false argv) t (some r) ∧ (NetAnswer.reply r.toWire).ok ∧
    RedisReplies t ∧ ks' = targetAfter now ks t

/-! ### What a transfer is for -/

/-- The entry an object stands for. -/
def DumpObj.entry (now : Int) (obj : DumpObj) : Entry :=
  ⟨obj.val, if obj.ttlms > 0 then some (now + obj.ttlms.toInt) else none⟩

/-- `ks'` is `ks` with the objects put in: each under its own key, and nothing else. -/
structure Holds (now : Int) (ks : Keyspace) (objs : List DumpObj) (ks' : Keyspace) : Prop where
  entry : ∀ obj ∈ objs, ks' obj.key = some (obj.entry now)
  frame : ∀ key, key ∉ objs.map DumpObj.key → ks' key = ks key

theorem Holds.unique {now : Int} {ks ks₁ ks₂ : Keyspace} {objs : List DumpObj}
    (h₁ : Holds now ks objs ks₁) (h₂ : Holds now ks objs ks₂) : ks₁ = ks₂ := by
  funext key
  by_cases hk : key ∈ objs.map DumpObj.key
  · obtain ⟨obj, hobj, rfl⟩ := List.mem_map.mp hk
    rw [h₁.entry obj hobj, h₂.entry obj hobj]
  · rw [h₁.frame key hk, h₂.frame key hk]

/-- The order of the objects does not matter. -/
theorem Holds.perm {now : Int} {ks ks' : Keyspace} {objs objs' : List DumpObj}
    (h : Holds now ks objs ks') (hp : objs.Perm objs') : Holds now ks objs' ks' where
  entry obj hobj := h.entry obj (hp.mem_iff.mpr hobj)
  frame key hk := h.frame key fun hm => hk ((hp.map DumpObj.key).mem_iff.mp hm)

/-- What an object becomes on the wire and in `decodeTriples`. -/
def DumpObj.sent (obj : DumpObj) : DumpObj := { obj with ttlms := obj.ttlArg }

/-- Put objects in one after the other, as `restoreAll` does with decoded ones. -/
def restoreEach (now : Int) (objs : List DumpObj) (ks : Keyspace) : Keyspace :=
  objs.foldl (fun ks obj => ks.restore now (cString obj.key) (if obj.ttlms < 0 then 0 else obj.ttlms) obj.val) ks

theorem ttlArg_sent (obj : DumpObj) : (if obj.sent.ttlms < 0 then 0 else obj.sent.ttlms) = obj.ttlArg := by
  have : ¬ obj.sent.ttlms < 0 := by
    rw [DumpObj.sent, Int64.lt_iff_toInt_lt, Int64.toInt_zero, ttlArg_toInt]
    omega
  rw [if_neg this]
  rfl

/-- A persistent object is sent with TTL 0, one that expires with a TTL above 0. -/
theorem restore_ttlArg (ks : Keyspace) (now : Int) (key : Bytes) (obj : DumpObj) :
    ks.restore now key obj.ttlArg obj.val = Function.update ks key (some (obj.entry now)) := by
  simp only [Keyspace.restore, DumpObj.entry, DumpObj.ttlArg]
  by_cases h : obj.ttlms > 0
  · have h0 : obj.ttlms ≠ 0 := by
      rintro he
      rw [he] at h
      exact absurd h (by decide)
    simp only [if_pos h, if_neg h0]
  · simp only [if_neg h, if_true]

/-- Restoring one object after the other: the first is put in as it is. -/
theorem restoreEach_cons (now : Int) {obj : DumpObj} (hnul : NulFree obj.key) (objs : List DumpObj) (ks : Keyspace) :
    restoreEach now ((obj :: objs).map DumpObj.sent) ks =
      restoreEach now (objs.map DumpObj.sent) (Function.update ks obj.key (some (obj.entry now))) := by
  have hkey : cString obj.sent.key = obj.key := cString_of_nulFree hnul
  simp only [restoreEach, List.map_cons, List.foldl_cons]
  rw [hkey, ttlArg_sent, show obj.sent.val = obj.val from rfl, restore_ttlArg]

/-- **Objects with NUL-free, distinct keys arrive as they are.** -/
theorem restoreEach_holds (now : Int) {objs : List DumpObj} (hnul : ∀ obj ∈ objs, NulFree obj.key)
    (hd : (objs.map DumpObj.key).Nodup) (ks : Keyspace) :
    Holds now ks objs (restoreEach now (objs.map DumpObj.sent) ks) := by
  induction objs generalizing ks with
  | nil => exact ⟨by simp, fun _ _ => rfl⟩
  | cons obj objs ih =>
    have hd' := List.nodup_cons.mp hd
    rw [restoreEach_cons now (hnul obj (List.mem_cons_self ..))]
    have h := ih (fun o ho => hnul o (List.mem_cons_of_mem obj ho)) hd'.2
      (Function.update ks obj.key (some (obj.entry now)))
    refine ⟨fun o ho => ?_, fun key hk => ?_⟩
    · rcases List.mem_cons.mp ho with rfl | ho
      · rw [h.frame _ hd'.1, Function.update_self]
      · exact h.entry o ho
    · rw [List.map_cons, List.mem_cons, not_or] at hk
      rw [h.frame key hk.2, Function.update_of_ne hk.1]

end RedisXSlot
