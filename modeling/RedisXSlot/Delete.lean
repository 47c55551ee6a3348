import RedisXSlot.Info
import RedisXSlot.ScanProofs

/-! SLOTSDEL: emptying slots.

The command goes through the table of a slot with a cursor and unlinks what it gets. Each
UNLINK comes back as an event that takes the entry out of that same table and moves its
rehashing on. A cursor stands for what ranks before it, whatever the tables are like, so
nothing is missed and the loop ends. Only a table whose size is 0 as an `int` is left out
(`slotsDel_empties_iff`). -/
namespace RedisXSlot
open Interaction ReverseCursor

/-! ### The code -/

/-- The server, and how many UNLINKs it has got. -/
structure Deleting (databases : Nat) where
  server : Server databases
  unlinks : Nat

section
variable (hash : Bytes → Nat) (conf : SlotsMetaInfo) (outcome : Nat → Option Reply) (db : Fin conf.databases)

/-- An UNLINK is executed, its event delivered, and replied to with an integer; or it is not, and gets
the reply of `outcome`. -/
def serveUnlink (w : Deleting conf.databases) : (c : Call) → Answer c × Deleting conf.databases
  | .unlink key =>
    match outcome w.unlinks with
    | none =>
      (Reply.integer (if w.server.keyspace db key then 1 else 0), ⟨w.server.step hash conf (.del db key) 0, w.unlinks + 1⟩)
    | some r => (r, { w with unlinks := w.unlinks + 1 })
  | c => (absent c, w)

/-- The loop over the list `l` that a step of the scan has filled: false on an error. -/
def deleteListed : List Bytes → Deleting conf.databases → Option (Bool × Deleting conf.databases)
  | [], w => some (true, w)
  | key :: l, w =>
    match (play (serveUnlink hash conf outcome db) (delKeys [key]) w).2 with
    | (some ret, w) => if ret = SLOTS_MGRT_ERR then some (false, w) else deleteListed l w
    | (none, _) => none

/-- The loop over the table of `slot` from `cursor` on: false on an error, and `none` if it has not
come to its end within so many rounds. -/
def deleteLoop (slot : Nat) : Nat → ULong → Deleting conf.databases → Option (Bool × Deleting conf.databases)
  | 0, _, _ => none
  | rounds + 1, cursor, w => do
    let (es, cursor) := (w.server.mod.slots.table db slot).scan cursor
    let (ok, w) ← deleteListed hash conf outcome db (es.map Prod.fst) w
    if !ok then return (false, w)
    else if cursor ≠ 0 then deleteLoop slot rounds cursor w
    else return (true, w)

/-- The loop over the slots; `none` is also an access outside the tables. -/
def deleteSlots (rounds : Nat) : List Int → Deleting conf.databases → Option (Bool × Deleting conf.databases)
  | [], w => some (true, w)
  | slot :: slots, w =>
    if 0 ≤ slot ∧ slot < conf.hash_slots_size.toNat then
      if toCInt (w.server.mod.slots.table db slot.toNat).size = 0 then deleteSlots rounds slots w
      else do
        let (ok, w) ← deleteLoop hash conf outcome db slot.toNat rounds 0 w
        if !ok then return (false, w) else deleteSlots rounds slots w
    else none

/-- `SlotsMGRT_DelSlotKeys`, in so many rounds for a slot. -/
def slotsmgrtDelSlotKeys (rounds : Nat) (slots : List Int) (w : Deleting conf.databases) :
    Option (Int × Deleting conf.databases) :=
  (deleteSlots hash conf outcome db rounds slots w).map fun (ok, w) =>
    (if ok then (slots.length : Int) else SLOTS_MGRT_ERR, w)

end

def REDISXSLOT_ERRORMSG_DEL : String := "ERR del error"

section
variable (hash : Bytes → Nat) (conf : SlotsMetaInfo) (outcome : Nat → Option Reply) (db : Fin conf.databases)

/-- `SlotsDel_RedisCommand`, `slotsdel slot1 [slot2 ...]`: the reply lists what is left in each slot. -/
def slotsDelRedisCommand (rounds : Nat) (argv : List Bytes) (s : Server conf.databases) :
    Option (InfoReply × Server conf.databases) :=
  if argv.length < 2 then some (.wrongArity, s)
  else
    match argv.tail.mapM string2ll with
    | none => some (.error REDISXSLOT_ERRORMSG_SYNTAX, s)
    | some args =>
      let slots := args.map longToInt
      (slotsmgrtDelSlotKeys hash conf outcome db rounds slots ⟨s, 0⟩).map fun (ret, w) =>
        if ret = SLOTS_MGRT_ERR then (.error REDISXSLOT_ERRORMSG_DEL, w.server)
        else (.slots (slots.map fun slot => (slot, ((w.server.mod.slots.table db slot.toNat).size : Int))), w.server)

end

/-- A reply that is an error to `delKeys`. -/
def Reply.failed : Reply → Bool
  | .null | .nil | .integer _ => false
  | .string _ | .error | .other => true

/-! ### Tables fit -/

section
variable {K V : Type} {hash : K → Nat} {d : Dict K V}

theorem DictHt.size_moveEntries (ht : DictHt K V) (chain : List (K × V)) :
    (Dict.moveEntries hash ht chain).size = ht.size := by
  induction chain generalizing ht with
  | nil => rfl
  | cons e chain ih =>
    rw [Dict.moveEntries, List.foldl_cons]
    exact (ih _).trans (List.length_set ..)

/-- The tables have fewer than `n` buckets. -/
def Dict.Below (d : Dict K V) (n : Nat) : Prop := d.ht0.size < n ∧ d.ht1.size < n

/-- A step of the rehashing makes no table larger. -/
theorem Dict.Below.rehashStep {n : Nat} (h : d.Below n) : (d.rehashStep hash).Below n := by
  have hloop (rounds visits idx : Nat) (d : Dict K V) (h : d.Below n) :
      (Dict.rehashLoop hash rounds visits idx d).1.Below n := by
    induction rounds generalizing visits idx d with
    | zero => exact h
    | succ rounds ih =>
      rw [Dict.rehashLoop]
      split
      next => exact h
      next =>
        split
        next => exact h
        next =>
          refine ih _ _ _ ⟨?_, ?_⟩
          · show (List.set ..).length < n
            rw [List.length_set]
            exact h.1
          · show (Dict.moveEntries ..).size < n
            rw [DictHt.size_moveEntries]
            exact h.2
  have hreset : (DictHt.reset : DictHt K V).size < n := h.1.trans_le' (Nat.zero_le _)
  rw [Dict.rehashStep]
  split
  next =>
    rw [Dict.rehash]
    split
    next => exact h
    next idx _ =>
      have hd := hloop 1 (1 * 10) idx d h
      split
      next d' he =>
        rw [he] at hd
        exact hd
      next d' he =>
        rw [he] at hd
        split
        next => exact ⟨hd.2, hreset⟩
        next => exact hd
  next => exact h

theorem Dict.Below.delete [DecidableEq K] {n : Nat} (h : d.Below n) (key : K) : (d.delete hash key).1.Below n := by
  have hunlink (ht : DictHt K V) (hht : ht.size < n) : (ht.unlink hash key).size < n := by
    show (List.set ..).length < n
    rw [List.length_set]
    exact hht
  have hstep : (d.rehashStep hash).Below n := h.rehashStep
  simp only [Dict.delete]
  split
  next => exact h
  next =>
    split
    next => exact ⟨hunlink _ hstep.1, hstep.2⟩
    next =>
      split
      next => exact ⟨hstep.1, hunlink _ hstep.2⟩
      next => exact hstep

end

/-! ### A step of the scan -/

section
variable {K V : Type}

/-- What is emitted is in the tables. -/
theorem Dict.scan_subset (d : Dict K V) (v : ULong) {e : K × V} (he : e ∈ (d.scan v).1) : e ∈ d.entries := by
  have hemit (ht : DictHt K V) (v : ULong) (h : e ∈ ht.emit v) : e ∈ ht.entries := (ht.bucket_sublist _).subset h
  have hexpand (ht : DictHt K V) (m : ULong) (fuel : Nat) (v : ULong) (h : e ∈ (scanExpansions ht m fuel v).1) :
      e ∈ ht.entries := by
    induction fuel generalizing v with
    | zero => cases h
    | succ fuel ih =>
      simp only [scanExpansions] at h
      split at h
      next =>
        rcases List.mem_append.mp h with h | h
        · exact hemit ht v h
        · exact ih _ h
      next => exact hemit ht v h
  have h0 (h : e ∈ d.ht0.entries) : e ∈ d.entries := List.mem_append_left _ h
  have h1 (h : e ∈ d.ht1.entries) : e ∈ d.entries := List.mem_append_right _ h
  simp only [Dict.scan] at he
  split at he
  next => cases he
  next =>
    split at he
    next => exact h0 (hemit _ v he)
    next =>
      split at he
      next =>
        rcases List.mem_append.mp he with he | he
        · exact h1 (hemit _ v he)
        · exact h0 (hexpand _ _ _ v he)
      next =>
        rcases List.mem_append.mp he with he | he
        · exact h0 (hemit _ v he)
        · exact h1 (hexpand _ _ _ v he)

end

/-! ### A part of the run -/

section
variable {hash : Bytes → Nat} {conf : SlotsMetaInfo} {outcome : Nat → Option Reply} {db : Fin conf.databases}

/-- The tables of a database fit. -/
def Slots.Fits (s : Slots) (db : Nat) : Prop := ∀ slot, (s.table db slot).Fits

theorem slotkey_tables_setTable (info : DbSlotInfo) (i slot : Nat) (d : Dict Bytes UInt32) :
    (info.setTable i d).slotkey_tables slot = if slot = i then d else info.slotkey_tables slot := by
  simp only [DbSlotInfo.setTable, Function.update_apply]

theorem table_slotsDel (s : Slots) (db : Nat) (key : Bytes) (slot : Nat) : (slotsDel hash conf s db key).table db slot =
    if slot = slotsNum conf.hash_slots_size key then ((s.table db slot).delete hash key).1 else s.table db slot := by
  simp only [slotsDel, Slots.table]
  split
  next =>
    rw [Slots.setInfo_info_self]
    exact (slotkey_tables_setTable ..).trans (ite_congr rfl (fun h => by rw [h]) fun _ => rfl)
  next =>
    rw [Slots.setInfo_info_self]
    exact (slotkey_tables_setTable ..).trans (ite_congr rfl (fun h => by rw [h]) fun _ => rfl)

theorem Slots.Fits.slotsDel {s : Slots} (h : s.Fits db) (key : Bytes) : (slotsDel hash conf s db key).Fits db := by
  intro slot
  rw [table_slotsDel]
  split
  next => exact Dict.Below.delete (h slot) key
  next => exact h slot

variable (hash conf db) in
/-- What holds between two moments of the run, `slots` being the numbers of the slots that are emptied
in between: the index is right at the end, and only keys of these slots have gone. -/
structure Deletes (slots : Set Nat) (s s' : Server conf.databases) : Prop where
  quiet : s'.mod.Quiet hash conf
  inSync : s'.InSync
  fits : s'.mod.slots.Fits db
  untouched : ∀ i key, ¬ (i = db ∧ slotsNum conf.hash_slots_size key ∈ slots) → s'.keyspace i key = s.keyspace i key
  removes : ∀ i key, s'.keyspace i key = true → s.keyspace i key = true

variable {slots : Set Nat} {s s' s'' : Server conf.databases} {w w' w'' : Deleting conf.databases} {ok : Bool}

theorem Deletes.refl (hq : s.mod.Quiet hash conf) (hs : s.InSync) (hfit : s.mod.slots.Fits db) :
    Deletes hash conf db slots s s := ⟨hq, hs, hfit, fun _ _ _ => rfl, fun _ _ => id⟩

theorem Deletes.trans (h : Deletes hash conf db slots s s') (h' : Deletes hash conf db slots s' s'') :
    Deletes hash conf db slots s s'' :=
  ⟨h'.quiet, h'.inSync, h'.fits, fun i key hne => (h'.untouched i key hne).trans (h.untouched i key hne),
    fun i key hk => h.removes i key (h'.removes i key hk)⟩

theorem Deletes.mono {slots' : Set Nat} (h : Deletes hash conf db slots s s') (hsub : slots ⊆ slots') :
    Deletes hash conf db slots' s s' :=
  ⟨h.quiet, h.inSync, h.fits, fun i key hne => h.untouched i key fun hc => hne ⟨hc.1, hsub hc.2⟩, h.removes⟩

/-- Some UNLINK of the numbers from `a` to below `b` gets an error. -/
def Fails (outcome : Nat → Option Reply) (a b : Nat) : Prop := ∃ j r, a ≤ j ∧ j < b ∧ outcome j = some r ∧ r.failed = true

/-- All of them are executed. -/
def AllExecuted (outcome : Nat → Option Reply) (a b : Nat) : Prop := ∀ j, a ≤ j → j < b → outcome j = none

theorem AllExecuted.not_fails {a b : Nat} (h : AllExecuted outcome a b) : ¬ Fails outcome a b := by
  rintro ⟨j, r, ha, hb, hr, -⟩
  rw [h j ha hb] at hr
  cases hr

theorem AllExecuted.sub {a b a' b' : Nat} (h : AllExecuted outcome a b) (ha : a ≤ a') (hb : b' ≤ b) :
    AllExecuted outcome a' b' := fun j hj hj' => h j (ha.trans hj) (hj'.trans_le hb)

variable (hash conf outcome db) in
/-- A part of the run, from `w` to `w'`: it stops at the first error. -/
structure Part (slots : Set Nat) (w w' : Deleting conf.databases) (ok : Bool) : Prop where
  deletes : Deletes hash conf db slots w.server w'.server
  le : w.unlinks ≤ w'.unlinks
  ok_iff : ok = false ↔ Fails outcome w.unlinks w'.unlinks

theorem Part.refl (hq : w.server.mod.Quiet hash conf) (hs : w.server.InSync) (hfit : w.server.mod.slots.Fits db) :
    Part hash conf outcome db slots w w true where
  deletes := .refl hq hs hfit
  le := le_refl _
  ok_iff := by
    refine iff_of_false Bool.noConfusion ?_
    rintro ⟨j, r, ha, hb, -⟩
    exact absurd (ha.trans_lt hb) (lt_irrefl _)

theorem Part.trans (h : Part hash conf outcome db slots w w' true) (h' : Part hash conf outcome db slots w' w'' ok) :
    Part hash conf outcome db slots w w'' ok where
  deletes := h.deletes.trans h'.deletes
  le := h.le.trans h'.le
  ok_iff := by
    have hnone : ¬ Fails outcome w.unlinks w'.unlinks := fun hf => by cases h.ok_iff.mpr hf
    rw [h'.ok_iff]
    constructor
    · intro ⟨j, r, ha, hb, hr⟩
      exact ⟨j, r, h.le.trans ha, hb, hr⟩
    · intro ⟨j, r, ha, hb, hr⟩
      refine ⟨j, r, Nat.not_lt.mp fun hj => hnone ⟨j, r, ha, hj, hr⟩, hb, hr⟩

theorem Part.mono {slots' : Set Nat} (h : Part hash conf outcome db slots w w' ok) (hsub : slots ⊆ slots') :
    Part hash conf outcome db slots' w w' ok := ⟨h.deletes.mono hsub, h.le, h.ok_iff⟩

/-! ### One UNLINK -/

/-- What a call of UNLINK leaves. -/
def Deleting.unlink (hash : Bytes → Nat) (outcome : Nat → Option Reply) (db : Fin conf.databases)
    (w : Deleting conf.databases) (key : Bytes) : Deleting conf.databases :=
  ⟨if outcome w.unlinks = none then w.server.step hash conf (.del db key) 0 else w.server, w.unlinks + 1⟩

/-- What `delKeys` makes of the reply for its only key. -/
def delResult : Reply → Int
  | .null | .nil => 0
  | .integer _ => 1
  | .string _ | .error | .other => SLOTS_MGRT_ERR

theorem delResult_eq_err_iff (r : Reply) : delResult r = SLOTS_MGRT_ERR ↔ r.failed = true := by
  cases r with
  | null | nil | integer => exact iff_of_false (by simp only [delResult]; decide) Bool.false_ne_true
  | string | error | other => exact iff_of_true rfl rfl

theorem play_delKeys (w : Deleting conf.databases) (key : Bytes) : ∃ ret,
    (play (serveUnlink hash conf outcome db) (delKeys [key]) w).2 = (some ret, w.unlink hash outcome db key) ∧
      (ret = SLOTS_MGRT_ERR ↔ ∃ r, outcome w.unlinks = some r ∧ r.failed = true) := by
  cases ho : outcome w.unlinks with
  | none =>
    refine ⟨1, ?_, iff_of_false (by decide) (by simp)⟩
    rw [Deleting.unlink, if_pos ho]
    simp only [delKeys, delLoop, Prog.perform_bind, play, serveUnlink, ho]
    rfl
  | some r =>
    refine ⟨delResult r, ?_, ?_⟩
    · rw [Deleting.unlink, if_neg (by simp [ho])]
      simp only [delKeys, delLoop, Prog.perform_bind, play, serveUnlink, ho]
      cases r <;> rfl
    · rw [delResult_eq_err_iff]
      simp

/-- UNLINK takes a key out, if it is executed. -/
theorem part_unlink (hq : w.server.mod.Quiet hash conf) (hs : w.server.InSync) (hfit : w.server.mod.slots.Fits db)
    (key : Bytes) {ok : Bool} (hok : ok = false ↔ ∃ r, outcome w.unlinks = some r ∧ r.failed = true) :
    Part hash conf outcome db {slotsNum conf.hash_slots_size key} w (w.unlink hash outcome db key) ok ∧
      (outcome w.unlinks = none → (w.unlink hash outcome db key).server.keyspace db key = false) := by
  have hfails : Fails outcome w.unlinks (w.unlinks + 1) ↔ ∃ r, outcome w.unlinks = some r ∧ r.failed = true := by
    constructor
    · rintro ⟨j, r, ha, hb, hr⟩
      obtain rfl : j = w.unlinks := by omega
      exact ⟨r, hr⟩
    · rintro ⟨r, hr⟩
      exact ⟨w.unlinks, r, le_refl _, Nat.lt_succ_self _, hr⟩
  have hpart (s' : Server conf.databases) (h : Deletes hash conf db {slotsNum conf.hash_slots_size key} w.server s') :
      Part hash conf outcome db {slotsNum conf.hash_slots_size key} w ⟨s', w.unlinks + 1⟩ ok :=
    ⟨h, Nat.le_succ _, hok.trans hfails.symm⟩
  rw [Deleting.unlink]
  split
  next ho =>
    obtain ⟨hq', hs'⟩ := step_inSync 0 hq hs (.del db key)
    have hkeys : (w.server.step hash conf (.del db key) 0).keyspace = w.server.keyspace.set db key false := by
      cases hk : w.server.keyspace db key with
      | false =>
        rw [Keys.set_self hk]
        simp [Server.step, Command.execute, hk]
      | true => simp [Server.step, Command.execute, hk]
    have hfit' : (w.server.step hash conf (.del db key) 0).mod.slots.Fits db := by
      cases hk : w.server.keyspace db key with
      | false =>
        simp only [Server.step, Command.execute, Command.serverEvents, hk]
        exact hfit
      | true =>
        simp only [Server.step, Command.execute, Command.serverEvents, hk, if_true, List.foldl, notify_del]
        exact hfit.slotsDel key
    refine ⟨hpart _ ⟨hq', hs'.mpr rfl, hfit', fun i k hne => ?_, fun i k hk => ?_⟩, fun _ => ?_⟩
    · rw [hkeys, Keys.set, if_neg]
      rintro ⟨rfl, rfl⟩
      exact hne ⟨rfl, rfl⟩
    · rw [hkeys, Keys.set_eq_true_iff] at hk
      exact (hk.resolve_left fun hc => by cases hc.2.2).2
    · rw [hkeys, Keys.set, if_pos ⟨rfl, rfl⟩]
  next ho => exact ⟨hpart _ (.refl hq hs hfit), fun hc => absurd hc ho⟩

/-! ### The loops -/

theorem Server.mem_table (hq : s.mod.Quiet hash conf) (hs : s.InSync) (slot : Nat) (key : Bytes) :
    key ∈ (s.mod.slots.table db slot).keys ↔ s.keyspace db key = true ∧ slotsNum conf.hash_slots_size key = slot := by
  rw [hq.wf.mem_table, Server.inSync_iff.mp hs]

variable (outcome) in
/-- **The list that a step of the scan has filled** is unlinked, up to an error. -/
theorem deleteListed_spec (hq : w.server.mod.Quiet hash conf) (hs : w.server.InSync) (hfit : w.server.mod.slots.Fits db)
    {slot : Nat} {l : List Bytes} (hl : ∀ key ∈ l, slotsNum conf.hash_slots_size key = slot) :
    ∃ ok w', deleteListed hash conf outcome db l w = some (ok, w') ∧ Part hash conf outcome db {slot} w w' ok ∧
      (AllExecuted outcome w.unlinks w'.unlinks → ∀ key ∈ l, w'.server.keyspace db key = false) := by
  induction l generalizing w with
  | nil => exact ⟨true, w, rfl, .refl hq hs hfit, fun _ _ h => by cases h⟩
  | cons key l ih =>
    have hslot := hl key (List.mem_cons_self ..)
    obtain ⟨ret, hplay, hret⟩ := @play_delKeys hash conf outcome db w key
    simp only [deleteListed, hplay]
    by_cases herr : ret = SLOTS_MGRT_ERR
    · rw [if_pos herr]
      have hok : false = false ↔ ∃ r, outcome w.unlinks = some r ∧ r.failed = true := iff_of_true rfl (hret.mp herr)
      obtain ⟨hpart, -⟩ := part_unlink hq hs hfit key hok
      rw [hslot] at hpart
      exact ⟨false, _, rfl, hpart, fun hall => absurd (hpart.ok_iff.mp rfl) hall.not_fails⟩
    · rw [if_neg herr]
      have hok : true = false ↔ ∃ r, outcome w.unlinks = some r ∧ r.failed = true :=
        iff_of_false Bool.noConfusion fun hc => herr (hret.mpr hc)
      obtain ⟨hpart, hgone⟩ := part_unlink hq hs hfit key hok
      rw [hslot] at hpart
      obtain ⟨ok, w', hrest, hpart', hgone'⟩ := ih hpart.deletes.quiet hpart.deletes.inSync hpart.deletes.fits
        fun k hk => hl k (List.mem_cons_of_mem _ hk)
      refine ⟨ok, w', hrest, hpart.trans hpart', fun hall k hk => ?_⟩
      rcases List.mem_cons.mp hk with rfl | hk
      · have hnow := hgone (hall _ (le_refl _) (hpart'.le.trans_lt' (Nat.lt_succ_self _)))
        exact Bool.eq_false_iff.mpr fun hc => Bool.false_ne_true (hnow.symm.trans (hpart'.deletes.removes db k hc))
      · exact hgone' (hall.sub hpart.le (le_refl _)) k hk

variable (outcome) in
/-- **The loop over a table** ends, and has left out nothing that ranks behind the cursor. -/
theorem deleteLoop_spec (hq : w.server.mod.Quiet hash conf) (hs : w.server.InSync) (hfit : w.server.mod.slots.Fits db)
    (slot : Nat) {rounds : Nat} {v : ULong} (hrounds : 2 ^ 64 ≤ rank v + rounds) :
    ∃ ok w', deleteLoop hash conf outcome db slot rounds v w = some (ok, w') ∧
      Part hash conf outcome db {slot} w w' ok ∧
      (AllExecuted outcome w.unlinks w'.unlinks →
        (∀ key, w.server.keyspace db key = true → slotsNum conf.hash_slots_size key = slot → rank v ≤ hashRank (hash key)) →
        ∀ key, slotsNum conf.hash_slots_size key = slot → w'.server.keyspace db key = false) := by
  induction rounds generalizing v w with
  | zero => exact absurd hrounds (Nat.not_le.mpr (rank_lt v))
  | succ rounds ih =>
    have hwf : (w.server.mod.slots.table db slot).Wf hash := (hq.wf db).table slot
    obtain ⟨k, -, hscan⟩ := Dict.scan_spec hwf (hfit slot)
    have hstep := hscan v
    have hemitted : ∀ key ∈ ((w.server.mod.slots.table db slot).scan v).1.map Prod.fst,
        slotsNum conf.hash_slots_size key = slot := by
      intro key hkey
      obtain ⟨e, he, rfl⟩ := List.mem_map.mp hkey
      exact (hq.wf db).place slot _ (List.mem_map_of_mem (Dict.scan_subset _ v he))
    obtain ⟨ok, w₁, hlisted, hpart, hgone⟩ := deleteListed_spec outcome hq hs hfit hemitted
    have hloop : deleteLoop hash conf outcome db slot (rounds + 1) v w =
        if !ok then some (false, w₁)
        else if ((w.server.mod.slots.table db slot).scan v).2 ≠ 0 then
          deleteLoop hash conf outcome db slot rounds ((w.server.mod.slots.table db slot).scan v).2 w₁
        else some (true, w₁) := by
      simp only [deleteLoop, hlisted, Option.bind_eq_bind, Option.bind_some]
      rfl
    rw [hloop]
    generalize (w.server.mod.slots.table db slot).scan v = r at hstep hgone ⊢
    -- Behind the step nothing is left of what ranks up to the new cursor.
    have hleft (hall : AllExecuted outcome w.unlinks w₁.unlinks)
        (hbehind : ∀ key, w.server.keyspace db key = true → slotsNum conf.hash_slots_size key = slot →
          rank v ≤ hashRank (hash key)) (key : Bytes) (hkey : w₁.server.keyspace db key = true)
        (hslot : slotsNum conf.hash_slots_size key = slot) : limit r.2 ≤ hashRank (hash key) := by
      have hkey' := hpart.deletes.removes db key hkey
      by_contra hlt
      obtain ⟨e, he, rfl⟩ := List.mem_map.mp ((Server.mem_table hq hs slot key).mpr ⟨hkey', hslot⟩)
      have hin := hstep.covers e he (hbehind e.1 hkey' hslot) (Nat.not_le.mp hlt)
      exact Bool.false_ne_true ((hgone hall e.1 (List.mem_map_of_mem hin)).symm.trans hkey)
    cases ok with
    | false => exact ⟨false, w₁, rfl, hpart, fun hall => absurd (hpart.ok_iff.mp rfl) hall.not_fails⟩
    | true =>
      rw [if_neg (by decide)]
      by_cases hend : r.2 = 0
      · rw [if_neg (not_not.mpr hend)]
        refine ⟨true, w₁, rfl, hpart, fun hall hbehind key hslot => Bool.eq_false_iff.mpr fun hkey => ?_⟩
        have hlast := hleft hall hbehind key hkey hslot
        rw [limit, if_pos hend] at hlast
        exact absurd (hashRank_lt (hash key)) (Nat.not_lt.mpr hlast)
      · have hnext : limit r.2 = rank r.2 := if_neg hend
        have hadvances := hstep.advances
        rw [hnext] at hadvances
        rw [if_pos hend]
        obtain ⟨ok, w', hrest, hpart', hgone'⟩ := ih (v := r.2) hpart.deletes.quiet hpart.deletes.inSync
          hpart.deletes.fits (by omega)
        refine ⟨ok, w', hrest, hpart.trans hpart', fun hall hbehind => ?_⟩
        have hnow := hleft (hall.sub (le_refl _) hpart'.le) hbehind
        rw [hnext] at hnow
        exact hgone' (hall.sub hpart.le (le_refl _)) hnow

/-! ### The number of keys -/

/-- Tables with the same keys have the same size. -/
theorem size_eq_of_keyspace (hq : s.mod.Quiet hash conf) (hs : s.InSync) (hq' : s'.mod.Quiet hash conf) (hs' : s'.InSync)
    {slot : Nat} (h : ∀ key, slotsNum conf.hash_slots_size key = slot → s'.keyspace db key = s.keyspace db key) :
    (s'.mod.slots.table db slot).size = (s.mod.slots.table db slot).size := by
  have hset : {k | k ∈ (s'.mod.slots.table db slot).keys} = {k | k ∈ (s.mod.slots.table db slot).keys} := by
    ext key
    show key ∈ (s'.mod.slots.table db slot).keys ↔ key ∈ (s.mod.slots.table db slot).keys
    rw [Server.mem_table hq' hs', Server.mem_table hq hs]
    exact and_congr_left fun hslot => by rw [h key hslot]
  rw [hq'.wf.size_eq_ncard, hq.wf.size_eq_ncard, hset]

theorem size_eq_zero_of_gone (hq : s.mod.Quiet hash conf) (hs : s.InSync) {slot : Nat}
    (h : ∀ key, slotsNum conf.hash_slots_size key = slot → s.keyspace db key = false) :
    (s.mod.slots.table db slot).size = 0 := by
  rw [hq.wf.size_eq, List.length_eq_zero_iff]
  refine List.eq_nil_iff_forall_not_mem.mpr fun key hkey => ?_
  obtain ⟨hin, hslot⟩ := (Server.mem_table hq hs slot key).mp hkey
  exact Bool.false_ne_true ((h key hslot).symm.trans hin)

/-! ### The slots -/

/-- The numbers of the slots that the arguments name. -/
def named (slots : List Int) : Set Nat := {slot | (slot : Int) ∈ slots}

/-- **The loop over the slots** ends. With every UNLINK executed it empties the slots whose size is
not mistaken for 0, and it never touches one that is. -/
theorem deleteSlots_spec (hq : w.server.mod.Quiet hash conf) (hs : w.server.InSync) (hfit : w.server.mod.slots.Fits db)
    {rounds : Nat} (hrounds : 2 ^ 64 ≤ rounds) {args : List Int}
    (hargs : ∀ slot ∈ args, 0 ≤ slot ∧ slot < conf.hash_slots_size.toNat) :
    ∃ ok w', deleteSlots hash conf outcome db rounds args w = some (ok, w') ∧
      Part hash conf outcome db (named args) w w' ok ∧
      (AllExecuted outcome w.unlinks w'.unlinks → ∀ slot ∈ named args,
        (toCInt (w.server.mod.slots.table db slot).size = 0 → (w.server.mod.slots.table db slot).size = 0) →
        ∀ key, slotsNum conf.hash_slots_size key = slot → w'.server.keyspace db key = false) ∧
      ∀ slot : Nat, toCInt (w.server.mod.slots.table db slot).size = 0 →
        ∀ key, slotsNum conf.hash_slots_size key = slot → w'.server.keyspace db key = w.server.keyspace db key := by
  induction args generalizing w with
  | nil => exact ⟨true, w, rfl, .refl hq hs hfit, fun _ slot hslot => (List.not_mem_nil hslot).elim, fun _ _ _ _ => rfl⟩
  | cons arg args ih =>
    obtain ⟨slot, rfl⟩ := Int.eq_ofNat_of_zero_le (hargs arg (List.mem_cons_self ..)).1
    have htail : ∀ slot ∈ args, 0 ≤ slot ∧ slot < conf.hash_slots_size.toNat :=
      fun slot h => hargs slot (List.mem_cons_of_mem _ h)
    have hsub : named args ⊆ named ((slot : Int) :: args) := fun _ h => List.mem_cons_of_mem _ h
    have hsingle : ({slot} : Set Nat) ⊆ named ((slot : Int) :: args) := by
      rintro _ rfl
      exact List.mem_cons_self ..
    rw [deleteSlots, if_pos (hargs _ (List.mem_cons_self ..)), Int.toNat_natCast]
    by_cases hskip : toCInt (w.server.mod.slots.table db slot).size = 0
    · rw [if_pos hskip]
      obtain ⟨ok, w', hrest, hpart, hgone, hkept⟩ := ih hq hs hfit htail
      refine ⟨ok, w', hrest, hpart.mono hsub, fun hall i hi hcount key hkey => ?_, hkept⟩
      rcases List.mem_cons.mp hi with hi | hi
      · obtain rfl : i = slot := Int.ofNat_inj.mp hi
        refine Bool.eq_false_iff.mpr fun hin => ?_
        have hpos := List.length_pos_of_mem ((Server.mem_table hq hs i key).mpr ⟨hpart.deletes.removes db key hin, hkey⟩)
        rw [← hq.wf.size_eq, hcount hskip] at hpos
        exact hpos.false
      · exact hgone hall i hi hcount key hkey
    · rw [if_neg hskip]
      obtain ⟨ok₁, w₁, hloop, hpart₁, hgone₁⟩ := deleteLoop_spec outcome (v := 0) hq hs hfit slot
        (show 2 ^ 64 ≤ rank 0 + rounds by rw [rank_zero, Nat.zero_add]; exact hrounds)
      -- The other slots are as they were.
      have hother (i : Nat) (hi : i ≠ slot) (key : Bytes) (hkey : slotsNum conf.hash_slots_size key = i) :
          w₁.server.keyspace db key = w.server.keyspace db key :=
        hpart₁.deletes.untouched db key fun hc => hi (hkey.symm.trans hc.2)
      have hsize (i : Nat) (hi : i ≠ slot) :
          (w₁.server.mod.slots.table db i).size = (w.server.mod.slots.table db i).size :=
        size_eq_of_keyspace hq hs hpart₁.deletes.quiet hpart₁.deletes.inSync (hother i hi)
      simp only [hloop, Option.bind_eq_bind, Option.bind_some]
      cases ok₁ with
      | false =>
        refine ⟨false, w₁, rfl, hpart₁.mono hsingle, fun hall => absurd (hpart₁.ok_iff.mp rfl) hall.not_fails,
          fun i hzero key hkey => hother i ?_ key hkey⟩
        rintro rfl
        exact hskip hzero
      | true =>
        obtain ⟨ok, w', hrest, hpart, hgone, hkept⟩ := ih hpart₁.deletes.quiet hpart₁.deletes.inSync hpart₁.deletes.fits htail
        refine ⟨ok, w', hrest, (hpart₁.mono hsingle).trans (hpart.mono hsub), fun hall i hi hcount key hkey => ?_,
          fun i hzero key hkey => ?_⟩
        · by_cases hslot : i = slot
          · subst hslot
            have hnow := hgone₁ (hall.sub (le_refl _) hpart.le) (fun _ _ _ => by rw [rank_zero]; exact Nat.zero_le _) key hkey
            exact Bool.eq_false_iff.mpr fun hc => Bool.false_ne_true (hnow.symm.trans (hpart.deletes.removes db key hc))
          · have hi' : i ∈ named args := (List.mem_cons.mp hi).resolve_left fun hc => hslot (Int.ofNat_inj.mp hc)
            exact hgone (hall.sub hpart₁.le (le_refl _)) i hi' (by rw [hsize i hslot]; exact hcount) key hkey
        · have hne : i ≠ slot := by
            rintro rfl
            exact hskip hzero
          rw [hkept i (by rw [hsize i hne]; exact hzero) key hkey, hother i hne key hkey]

variable (hash conf outcome db) in
/-- What SLOTSDEL is for: only keys of the named slots go, an error reply is an error, and if every
UNLINK is executed nothing is left of them in the keyspace, the tables and the list of tagged keys. -/
structure EmptiesSlots (s : Server conf.databases) (args : List Int) (ret : Int) (w' : Deleting conf.databases) :
    Prop where
  deletes : Deletes hash conf db (named args) s w'.server
  err_iff : ret = SLOTS_MGRT_ERR ↔ Fails outcome 0 w'.unlinks
  ret_eq : ret ≠ SLOTS_MGRT_ERR → ret = args.length
  keyspace : AllExecuted outcome 0 w'.unlinks → ∀ slot ∈ named args, ∀ key,
    slotsNum conf.hash_slots_size key = slot → w'.server.keyspace db key = false
  table : AllExecuted outcome 0 w'.unlinks → ∀ slot ∈ named args, (w'.server.mod.slots.table db slot).keys = []
  tagged : AllExecuted outcome 0 w'.unlinks → ∃ items,
    (w'.server.mod.slots.db_slot_infos db).tagged_key_list.Represents items ∧
      ∀ item ∈ items, slotsNum conf.hash_slots_size item.2 ∉ named args

/-- The run of the command, whether or not all of its slots are emptied. -/
theorem slotsmgrtDelSlotKeys_spec (hq : s.mod.Quiet hash conf) (hs : s.InSync) (hfit : s.mod.slots.Fits db) {rounds : Nat}
    (hrounds : 2 ^ 64 ≤ rounds) {args : List Int} (hargs : ∀ slot ∈ args, 0 ≤ slot ∧ slot < conf.hash_slots_size.toNat) :
    ∃ ret w', slotsmgrtDelSlotKeys hash conf outcome db rounds args ⟨s, 0⟩ = some (ret, w') ∧
      ((∀ slot ∈ named args, toCInt (s.mod.slots.table db slot).size = 0 → (s.mod.slots.table db slot).size = 0) →
        EmptiesSlots hash conf outcome db s args ret w') ∧
      ∀ slot : Nat, toCInt (s.mod.slots.table db slot).size = 0 →
        ∀ key, slotsNum conf.hash_slots_size key = slot → w'.server.keyspace db key = s.keyspace db key := by
  obtain ⟨ok, w', hrun, hpart, hgone, hkept⟩ := @deleteSlots_spec hash conf outcome db ⟨s, 0⟩ hq hs hfit rounds hrounds args hargs
  refine ⟨if ok then (args.length : Int) else SLOTS_MGRT_ERR, w', by rw [slotsmgrtDelSlotKeys, hrun]; rfl, fun hcount => ?_,
    hkept⟩
  have hlen : (args.length : Int) ≠ SLOTS_MGRT_ERR := by
    have herr : SLOTS_MGRT_ERR = -1 := rfl
    omega
  have hempty (hall : AllExecuted outcome 0 w'.unlinks) (slot : Nat) (hslot : slot ∈ named args) :
      ∀ key, slotsNum conf.hash_slots_size key = slot → w'.server.keyspace db key = false :=
    hgone hall slot hslot (hcount slot hslot)
  refine ⟨hpart.deletes, ?_, ?_, hempty, fun hall slot hslot => ?_, fun hall => ?_⟩
  · rw [← hpart.ok_iff]
    cases ok with
    | true => exact iff_of_false hlen Bool.noConfusion
    | false => exact iff_of_true rfl rfl
  · cases ok with
    | true => exact fun _ => rfl
    | false => exact fun h => absurd rfl h
  · have hzero := size_eq_zero_of_gone hpart.deletes.quiet hpart.deletes.inSync (hempty hall slot hslot)
    rw [hpart.deletes.quiet.wf.size_eq] at hzero
    exact List.eq_nil_of_length_eq_zero hzero
  · obtain ⟨items, hitems, hmem⟩ := (hpart.deletes.quiet.wf db).tagged
    refine ⟨items, hitems, fun item hitem hslot => ?_⟩
    obtain ⟨-, -, hkey⟩ := (hmem item).mp hitem
    have hin := (Server.inSync_iff.mp hpart.deletes.inSync db item.2).mp hkey
    exact Bool.false_ne_true ((hempty hall _ hslot item.2 rfl).symm.trans hin)

end

section
variable {hash : Bytes → Nat} {conf : SlotsMetaInfo} {db : Fin conf.databases} {s : Server conf.databases}

/-- A slot that is left out is not empty afterwards. -/
theorem not_emptiesSlots_of_skipped (hq : s.mod.Quiet hash conf) (hs : s.InSync) (hfit : s.mod.slots.Fits db) {rounds : Nat}
    (hrounds : 2 ^ 64 ≤ rounds) {args : List Int} (hargs : ∀ slot ∈ args, 0 ≤ slot ∧ slot < conf.hash_slots_size.toNat)
    {slot : Nat} (hslot : slot ∈ named args) (hpos : 0 < (s.mod.slots.table db slot).keys.length)
    (hmul : 2 ^ 32 ∣ (s.mod.slots.table db slot).keys.length) :
    ¬ ∀ outcome, ∃ ret w', slotsmgrtDelSlotKeys hash conf outcome db rounds args ⟨s, 0⟩ = some (ret, w') ∧
      EmptiesSlots hash conf outcome db s args ret w' := by
  intro h
  obtain ⟨ret, w', hrun, hempties⟩ := h fun _ => none
  obtain ⟨ret', w'', hrun', -, hkept⟩ := @slotsmgrtDelSlotKeys_spec hash conf (fun _ => none) db s hq hs hfit rounds hrounds
    args hargs
  rw [hrun] at hrun'
  cases hrun'
  obtain ⟨key, hkey⟩ := List.exists_mem_of_length_pos hpos
  obtain ⟨hin, hkeyslot⟩ := (Server.mem_table hq hs slot key).mp hkey
  have hgone := hempties.keyspace (fun _ _ _ => rfl) slot hslot key hkeyslot
  have hzero : toCInt (s.mod.slots.table db slot).size = 0 := by
    rw [toCInt_eq_zero_iff, hq.wf.size_eq]
    exact hmul
  rw [hkept slot hzero key hkeyslot, hin] at hgone
  cases hgone

/-- **When SLOTSDEL empties exactly the slots named**: whatever becomes of its UNLINKs the command
comes to an end, removes only keys of these slots, and removes them all if the UNLINKs are
executed, if and only if no slot named has a number of keys that is 0 as an `int` only. -/
theorem slotsDel_empties_iff (hq : s.mod.Quiet hash conf) (hs : s.InSync) (hfit : s.mod.slots.Fits db) {rounds : Nat}
    (hrounds : 2 ^ 64 ≤ rounds) {args : List Int} (hargs : ∀ slot ∈ args, 0 ≤ slot ∧ slot < conf.hash_slots_size.toNat) :
    (∀ outcome, ∃ ret w', slotsmgrtDelSlotKeys hash conf outcome db rounds args ⟨s, 0⟩ = some (ret, w') ∧
      EmptiesSlots hash conf outcome db s args ret w') ↔
      ∀ slot ∈ named args, 2 ^ 32 ∣ (s.mod.slots.table db slot).keys.length →
        (s.mod.slots.table db slot).keys.length = 0 := by
  constructor
  · intro h slot hslot hmul
    by_contra hne
    exact not_emptiesSlots_of_skipped hq hs hfit hrounds hargs hslot (Nat.pos_of_ne_zero hne) hmul h
  · intro hcount outcome
    obtain ⟨ret, w', hrun, hempties, -⟩ := @slotsmgrtDelSlotKeys_spec hash conf outcome db s hq hs hfit rounds hrounds args hargs
    refine ⟨ret, w', hrun, hempties fun slot hslot hzero => ?_⟩
    rw [toCInt_eq_zero_iff, hq.wf.size_eq] at hzero
    rw [hq.wf.size_eq]
    exact hcount slot hslot hzero

end

/-! ### A slot full of keys -/

section
variable {K V : Type} {hash : K → Nat} {d : Dict K V}

theorem Dict.nextPower_le (size : Nat) : Dict.nextPower size ≤ 4 + 2 * size := by
  have hloop (fuel i : Nat) : Dict.nextPowerLoop fuel i size ≤ max i (2 * size) := by
    induction fuel generalizing i with
    | zero => exact le_max_left ..
    | succ fuel ih =>
      rw [Dict.nextPowerLoop]
      split
      next => exact le_max_left ..
      next hlt =>
        have hrest := ih (i * 2)
        omega
  have h : Dict.nextPower size ≤ max 4 (2 * size) := hloop size 4
  omega

/-- A new entry makes no table larger than about four times the number of entries. -/
theorem Dict.Below.add [DecidableEq K] {n : Nat} (hwf : d.Wf hash) (h : d.Below n) (hn : 4 * d.size + 12 < n) (key : K)
    (val : V) : (d.add hash key val).1.Below n := by
  have hexpand (d d' : Dict K V) (m : Nat) (hd : d.Below n) (hm : 4 + 2 * m < n) (he : d.expand m = some d') :
      d'.Below n := by
    have hnew : (⟨List.replicate (Dict.nextPower m) [], 0⟩ : DictHt K V).size < n := by
      show (List.replicate _ _).length < n
      rw [List.length_replicate]
      exact (Dict.nextPower_le m).trans_lt hm
    simp only [Dict.expand] at he
    split at he
    next => cases he
    next =>
      split at he
      next => cases he
      next =>
        split at he
        next =>
          cases he
          exact ⟨hnew, hd.2⟩
        next =>
          cases he
          exact ⟨hd.1, hnew⟩
  have hpush (ht : DictHt K V) (i : Nat) (hht : ht.size < n) : (ht.push i (key, val)).size < n := by
    show (List.set ..).length < n
    rw [List.length_set]
    exact hht
  have hneed (d d' : Dict K V) (hd : d.Below n) (hm : 4 * d.ht0.used + 12 < n) (he : Dict.expandIfNeeded d = some d') :
      d'.Below n := by
    rw [Dict.expandIfNeeded] at he
    split at he
    next =>
      cases he
      exact hd
    next =>
      split at he
      next => exact hexpand d d' 4 hd (by omega) he
      next =>
        split at he
        next => exact hexpand d d' _ hd (by omega) he
        next =>
          cases he
          exact hd
  have hkey (d : Dict K V) (hd : d.Below n) (hm : 4 * d.ht0.used + 12 < n) : (d.keyIndex hash key).1.Below n := by
    rw [Dict.keyIndex]
    split
    next => exact hd
    next d' he =>
      have hd' := hneed d d' hd hm he
      split
      next => exact hd'
      next =>
        split
        next => exact hd'
        next =>
          split
          next => exact hd'
          next => exact hd'
  have hstep : (d.rehashStep hash).Below n := h.rehashStep
  have hused : 4 * (d.rehashStep hash).ht0.used + 12 < n := by
    have hm := Dict.rehashStep_moved hwf
    have hsize : (d.rehashStep hash).size = d.size := by
      rw [hm.wf.size_eq, hwf.size_eq, hm.perm.length_eq]
    have hle : (d.rehashStep hash).ht0.used ≤ (d.rehashStep hash).size := Nat.le_add_right ..
    omega
  have hd := hkey _ hstep hused
  rw [Dict.add]
  split
  next d' he =>
    rw [he] at hd
    exact hd
  next d' index he =>
    rw [he] at hd
    split
    next => exact ⟨hd.1, hpush _ _ hd.2⟩
    next => exact ⟨hpush _ _ hd.1, hd.2⟩

end

theorem table_slotsAdd {hash : Bytes → Nat} {conf : SlotsMetaInfo} (s : Slots) (db : Nat) (key : Bytes) (draws slot : Nat) :
    (slotsAdd hash conf s db key draws).table db slot = if slot = slotsNum conf.hash_slots_size key then
      ((s.table db slot).add hash key (slotsCrc key)).1 else s.table db slot := by
  simp only [slotsAdd, Slots.table]
  split
  next =>
    rw [Slots.setInfo_info_self]
    exact (slotkey_tables_setTable ..).trans (ite_congr rfl (fun h => by rw [h]) fun _ => rfl)
  next =>
    rw [Slots.setInfo_info_self]
    exact (slotkey_tables_setTable ..).trans (ite_congr rfl (fun h => by rw [h]) fun _ => rfl)

/-- One slot. -/
def conf1 : SlotsMetaInfo := ⟨1, 16, true, by decide⟩

/-- So many keys have been set. Their last digits part them into chains of about a tenth of them,
which an `int` counts even where it does not count the keys. -/
def crowdServer (n : Nat) : Server conf1.databases :=
  (Server.init conf1.databases).run lastByte conf1
    ((List.range n).map fun i => (.write .string "set" ⟨0, by decide⟩ (decimal i), 0))

theorem crowdServer_spec (n : Nat) : (crowdServer n).mod.Quiet lastByte conf1 ∧ (crowdServer n).InSync ∧
    (crowdServer n).mod.slots = slotsInit.run lastByte conf1 (crowd [] n) := by
  induction n with
  | zero => exact ⟨quiet_init, inSync_init, rfl⟩
  | succ n ih =>
    obtain ⟨hq, hs, hslots⟩ := ih
    have hstep : crowdServer (n + 1) =
        (crowdServer n).step lastByte conf1 (.write .string "set" ⟨0, by decide⟩ (decimal n)) 0 := by
      rw [crowdServer, List.range_succ, List.map_append, Server.run, List.foldl_append]
      rfl
    obtain ⟨hq', hs'⟩ := step_inSync 0 hq hs (.write .string "set" ⟨0, by decide⟩ (decimal n))
    rw [hstep]
    refine ⟨hq', hs'.mpr rfl, ?_⟩
    rw [crowd_succ, ← hslots]
    simp only [Server.step, Command.execute, Command.serverEvents, List.foldl, notify_type, List.nil_append]

theorem slotsNum_conf1 (key : Bytes) : slotsNum conf1.hash_slots_size key = 0 :=
  Nat.lt_one_iff.mp (slotsNum_lt conf1.size_pos key)

/-- The keys are in one table, which has room for them. -/
theorem crowdServer_table (n : Nat) : ((crowdServer n).mod.slots.table 0 0).keys.length = n ∧
    ∀ slot, ((crowdServer n).mod.slots.table 0 slot).Below (4 * n + 13) := by
  have hlength (k : Nat) : ((crowdServer k).mod.slots.table 0 0).keys.length = k := by
    obtain ⟨hq, -, hslots⟩ := crowdServer_spec k
    have hset : {key | key ∈ ((crowdServer k).mod.slots.table 0 0).keys} = (crowdServer k).mod.slots.keys conf1 0 := by
      ext key
      exact (hq.wf.mem_table).trans (and_iff_left (slotsNum_conf1 key))
    rw [← hq.wf.size_eq, hq.wf.size_eq_ncard, hset, hslots, ncard_crowd]
  refine ⟨hlength n, fun slot => ?_⟩
  have hbelow (k : Nat) (hk : 4 * k + 13 ≤ 4 * n + 13) : ((crowdServer k).mod.slots.table 0 slot).Below (4 * n + 13) := by
    induction k with
    | zero =>
      have hpos : 0 < 4 * n + 13 := by omega
      exact ⟨hpos, hpos⟩
    | succ k ih =>
      have hlast := ih (by omega)
      obtain ⟨hq, -, hslots⟩ := crowdServer_spec k
      rw [(crowdServer_spec (k + 1)).2.2, crowd_succ, ← hslots, table_slotsAdd]
      split
      next h =>
        rw [slotsNum_conf1] at h
        subst h
        have hwf : ((crowdServer k).mod.slots.table 0 0).Wf lastByte := (hq.wf 0).table 0
        have hsize := hwf.size_eq_keys
        rw [hlength] at hsize
        exact hlast.add hwf (by omega) _ _
      next => exact hlast
  exact hbelow n (le_refl _)

/-- A slot with a multiple of `2 ^ 32` keys is not emptied. -/
theorem not_slotsDel_crowd {n : Nat} (hpos : 0 < n) (hmul : 2 ^ 32 ∣ n) (hfit : 4 * n + 13 ≤ 2 ^ 64) {rounds : Nat}
    (hrounds : 2 ^ 64 ≤ rounds) :
    ¬ ∀ outcome, ∃ ret w', slotsmgrtDelSlotKeys lastByte conf1 outcome ⟨0, by decide⟩ rounds [0] ⟨crowdServer n, 0⟩ =
      some (ret, w') ∧ EmptiesSlots lastByte conf1 outcome ⟨0, by decide⟩ (crowdServer n) [0] ret w' := by
  obtain ⟨hq, hs, -⟩ := crowdServer_spec n
  obtain ⟨hlen, hbelow⟩ := crowdServer_table n
  have hargs : ∀ slot ∈ ([0] : List Int), 0 ≤ slot ∧ slot < conf1.hash_slots_size.toNat := by decide
  have hslot : 0 ∈ named [0] := List.mem_singleton.mpr rfl
  refine not_emptiesSlots_of_skipped hq hs (fun slot => ?_) hrounds hargs hslot ?_ ?_
  · exact ⟨(hbelow slot).1.trans_le hfit, (hbelow slot).2.trans_le hfit⟩
  · rw [hlen]
    exact hpos
  · rw [hlen]
    exact hmul

/-- Of `2 ^ 32` keys in a slot none is deleted. -/
theorem not_slotsDel_empties : ¬ ∀ outcome, ∃ ret w',
    slotsmgrtDelSlotKeys lastByte conf1 outcome ⟨0, by decide⟩ (2 ^ 64) [0] ⟨crowdServer (2 ^ 32), 0⟩ = some (ret, w') ∧
      EmptiesSlots lastByte conf1 outcome ⟨0, by decide⟩ (crowdServer (2 ^ 32)) [0] ret w' :=
  not_slotsDel_crowd (by norm_num) (dvd_refl _) (by norm_num) (le_refl _)

/-- Two keys are. -/
theorem slotsDel_empties_iff_two :
    (∀ outcome, ∃ ret w',
      slotsmgrtDelSlotKeys lastByte conf1 outcome ⟨0, by decide⟩ (2 ^ 64) [0] ⟨crowdServer 2, 0⟩ = some (ret, w') ∧
        EmptiesSlots lastByte conf1 outcome ⟨0, by decide⟩ (crowdServer 2) [0] ret w') ↔
      ∀ slot ∈ named [0], 2 ^ 32 ∣ ((crowdServer 2).mod.slots.table 0 slot).keys.length →
        ((crowdServer 2).mod.slots.table 0 slot).keys.length = 0 := by
  obtain ⟨hq, hs, -⟩ := crowdServer_spec 2
  obtain ⟨-, hbelow⟩ := crowdServer_table 2
  have hfit : (crowdServer 2).mod.slots.Fits (⟨0, by decide⟩ : Fin conf1.databases) := fun slot =>
    ⟨(hbelow slot).1.trans_le (by norm_num), (hbelow slot).2.trans_le (by norm_num)⟩
  exact slotsDel_empties_iff hq hs hfit (le_refl _) (by decide)

end RedisXSlot
