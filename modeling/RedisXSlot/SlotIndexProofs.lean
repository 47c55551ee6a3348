import RedisXSlot.DictProofs
import RedisXSlot.SkiplistProofs
import RedisXSlot.SlotIndex

/-! The slot index as a set of keys.

`DbSlotInfo.Wf` ties the two halves of a database's index together: the dictionaries hold
each key in the table of its slot, and the skiplist holds exactly the tagged ones among
them. Under it an index is its set of `keys`, and each operation has the effect on that
set its name says. -/
namespace RedisXSlot

variable (hash : Bytes → Nat) (conf : SlotsMetaInfo)

/-- The keys of a database's index: each is looked for in the table of its slot. -/
def DbSlotInfo.keys (info : DbSlotInfo) : Set Bytes :=
  {key | key ∈ (info.slotkey_tables (slotsNum conf.hash_slots_size key)).keys}

/-- The item of a key in the skiplist. -/
def tagItem (key : Bytes) : Item := ((slotsCrc key).toNat, key)

/-- What a skiplist of the tagged keys among `keys` contains. -/
def Tagged (keys : Set Bytes) (item : Item) : Prop :=
  hasTag item.2 = true ∧ item = tagItem item.2 ∧ item.2 ∈ keys

theorem Tagged.iff_insert {keys : Set Bytes} {key : Bytes} {item : Item} :
    Tagged (insert key keys) item ↔ (hasTag key = true ∧ item = tagItem key) ∨ Tagged keys item := by
  rw [Tagged, Tagged, Set.mem_insert_iff]
  constructor
  · rintro ⟨ht, hi, he | hk⟩
    · exact .inl ⟨he ▸ ht, he ▸ hi⟩
    · exact .inr ⟨ht, hi, hk⟩
  · rintro (⟨ht, rfl⟩ | ⟨ht, hi, hk⟩)
    · exact ⟨ht, rfl, .inl rfl⟩
    · exact ⟨ht, hi, .inr hk⟩

theorem Tagged.iff_diff {keys : Set Bytes} {key : Bytes} {item : Item} :
    Tagged (keys \ {key}) item ↔ item ≠ tagItem key ∧ Tagged keys item := by
  rw [Tagged, Tagged, Set.mem_sdiff, Set.mem_singleton_iff]
  constructor
  · rintro ⟨ht, hi, hk, hne⟩
    exact ⟨fun he => hne (congrArg Prod.snd he), ht, hi, hk⟩
  · rintro ⟨hne, ht, hi, hk⟩
    exact ⟨ht, hi, hk, fun he => hne (he ▸ hi)⟩

/-- The representation invariant of a database's index. -/
structure DbSlotInfo.Wf (info : DbSlotInfo) : Prop where
  table : ∀ slot, (info.slotkey_tables slot).Wf hash
  place : ∀ slot, ∀ key ∈ (info.slotkey_tables slot).keys, slotsNum conf.hash_slots_size key = slot
  tagged : ∃ items, info.tagged_key_list.Represents items ∧ ∀ item, item ∈ items ↔ Tagged (info.keys conf) item

def Slots.Wf (s : Slots) : Prop := ∀ db, (s.db_slot_infos db).Wf hash conf

/-- The indexed keys of a database. -/
def Slots.keys (s : Slots) (db : Nat) : Set Bytes := (s.db_slot_infos db).keys conf

variable {hash conf}

namespace DbSlotInfo
variable {info : DbSlotInfo} {slot : Nat} {d : Dict Bytes UInt32}

theorem wf_init : DbSlotInfo.Wf hash conf ⟨fun _ => .create, .create⟩ where
  table _ := Dict.wf_create hash
  place _ _ h := absurd h List.not_mem_nil
  tagged := ⟨[], Skiplist.represents_create, fun item => by simp [Tagged, keys]⟩

/-- A dictionary may be replaced by one with keys of its slot, if the skiplist follows. -/
theorem Wf.setTable (h : info.Wf hash conf) (hd : d.Wf hash)
    (hplace : ∀ key ∈ d.keys, slotsNum conf.hash_slots_size key = slot) {z : Skiplist} {items : List Item}
    (hz : z.Represents items) (hitems : ∀ item, item ∈ items ↔ Tagged ((info.setTable slot d).keys conf) item) :
    DbSlotInfo.Wf hash conf { info.setTable slot d with tagged_key_list := z } where
  table i := by
    by_cases hi : i = slot
    · subst hi
      simpa [DbSlotInfo.setTable] using hd
    · simpa [DbSlotInfo.setTable, hi] using h.table i
  place i key hk := by
    by_cases hi : i = slot
    · subst hi
      exact hplace key (by simpa [DbSlotInfo.setTable] using hk)
    · exact h.place i key (by simpa [DbSlotInfo.setTable, hi] using hk)
  tagged := ⟨items, hz, hitems⟩

theorem mem_keys_setTable (key : Bytes) : key ∈ (info.setTable slot d).keys conf ↔
    if slotsNum conf.hash_slots_size key = slot then key ∈ d.keys else key ∈ info.keys conf := by
  by_cases hk : slotsNum conf.hash_slots_size key = slot
  · simp [keys, setTable, hk]
  · simp [keys, setTable, hk]

theorem Wf.mem_keys (h : info.Wf hash conf) {key : Bytes} (hk : key ∈ (info.slotkey_tables slot).keys) :
    key ∈ info.keys conf := by
  rw [keys, Set.mem_ofPred_eq, h.place slot key hk]
  exact hk

/-- Moving entries within a dictionary changes nothing outside it. -/
theorem Wf.moved (h : info.Wf hash conf) (hm : Dict.Moved hash (info.slotkey_tables slot) d) :
    (info.setTable slot d).Wf hash conf ∧ (info.setTable slot d).keys conf = info.keys conf := by
  have hkeys : (info.setTable slot d).keys conf = info.keys conf := by
    ext key
    rw [mem_keys_setTable]
    split
    next hk => rw [hm.keys_perm.mem_iff, keys, Set.mem_ofPred_eq, hk]
    next => rfl
  obtain ⟨items, hz, hitems⟩ := h.tagged
  exact ⟨h.setTable hm.wf (fun key hk => h.place slot key (hm.keys_perm.mem_iff.mp hk)) hz
    fun item => by rw [hitems, hkeys], hkeys⟩

theorem keys_setTable_insert {key : Bytes} (hs : slotsNum conf.hash_slots_size key = slot)
    (hmem : ∀ key', key' ∈ d.keys ↔ key' = key ∨ key' ∈ (info.slotkey_tables slot).keys) :
    (info.setTable slot d).keys conf = insert key (info.keys conf) := by
  ext key'
  rw [mem_keys_setTable, Set.mem_insert_iff]
  split
  next hk => rw [hmem, keys, Set.mem_ofPred_eq, hk]
  next hk => exact ⟨.inr, fun hk' => hk'.resolve_left fun he => hk (he ▸ hs)⟩

theorem keys_setTable_diff {key : Bytes} (hs : slotsNum conf.hash_slots_size key = slot)
    (hmem : ∀ key', key' ∈ d.keys ↔ key' ≠ key ∧ key' ∈ (info.slotkey_tables slot).keys) :
    (info.setTable slot d).keys conf = info.keys conf \ {key} := by
  ext key'
  rw [mem_keys_setTable, Set.mem_sdiff, Set.mem_singleton_iff]
  split
  next hk => rw [hmem, and_comm, keys, Set.mem_ofPred_eq, hk]
  next hk => exact ⟨fun hk' => ⟨hk', fun he => hk (he ▸ hs)⟩, And.left⟩

/-- A new key goes to the table of its slot, and to the skiplist if it is tagged. -/
theorem Wf.insert (h : info.Wf hash conf) {key : Bytes} (hs : slotsNum conf.hash_slots_size key = slot)
    (hk : key ∉ info.keys conf) (hd : d.Wf hash)
    (hmem : ∀ key', key' ∈ d.keys ↔ key' = key ∨ key' ∈ (info.slotkey_tables slot).keys) (draws : Nat) :
    DbSlotInfo.Wf hash conf { info.setTable slot d with
      tagged_key_list :=
        if hasTag key then info.tagged_key_list.insert (slotsCrc key).toNat key draws else info.tagged_key_list } := by
  have hplace : ∀ key' ∈ d.keys, slotsNum conf.hash_slots_size key' = slot := by
    intro key' hk'
    rcases (hmem key').mp hk' with rfl | hk'
    · exact hs
    · exact h.place _ key' hk'
  obtain ⟨items, hz, hitems⟩ := h.tagged
  by_cases ht : hasTag key = true
  · rw [if_pos ht]
    have hnew : tagItem key ∉ items := fun hin => hk ((hitems _).mp hin).2.2
    obtain ⟨items', hz', hperm⟩ := Skiplist.insert_represents hz hnew draws
    refine h.setTable hd hplace hz' fun item => ?_
    rw [keys_setTable_insert hs hmem, Tagged.iff_insert, hperm.mem_iff, List.mem_cons, hitems]
    exact or_congr_left (and_iff_right ht).symm
  · rw [if_neg ht]
    refine h.setTable hd hplace hz fun item => ?_
    rw [keys_setTable_insert hs hmem, Tagged.iff_insert, hitems]
    exact ⟨.inr, fun hi => hi.resolve_left fun hl => ht hl.1⟩

/-- A key leaves the table of its slot, and the skiplist if it is tagged. -/
theorem Wf.erase (h : info.Wf hash conf) {key : Bytes} (hs : slotsNum conf.hash_slots_size key = slot)
    (hd : d.Wf hash) (hmem : ∀ key', key' ∈ d.keys ↔ key' ≠ key ∧ key' ∈ (info.slotkey_tables slot).keys) :
    DbSlotInfo.Wf hash conf { info.setTable slot d with
      tagged_key_list :=
        if hasTag key then (info.tagged_key_list.delete (slotsCrc key).toNat key).1 else info.tagged_key_list } := by
  have hplace : ∀ key' ∈ d.keys, slotsNum conf.hash_slots_size key' = slot := fun key' hk' =>
    h.place _ key' ((hmem key').mp hk').2
  obtain ⟨items, hz, hitems⟩ := h.tagged
  by_cases ht : hasTag key = true
  · rw [if_pos ht]
    obtain ⟨items', hz', hperm, -⟩ := Skiplist.delete_represents hz (slotsCrc key).toNat key
    refine h.setTable hd hplace hz' fun item => ?_
    rw [keys_setTable_diff hs hmem, Tagged.iff_diff, hperm.mem_iff, hz.nodup.mem_erase_iff, hitems]
    rfl
  · rw [if_neg ht]
    refine h.setTable hd hplace hz fun item => ?_
    rw [keys_setTable_diff hs hmem, Tagged.iff_diff, hitems]
    refine ⟨fun hi => ⟨fun he => ht ?_, hi⟩, And.right⟩
    have := hi.1
    rwa [he] at this

end DbSlotInfo

namespace Slots
variable {s : Slots}

theorem Wf.setInfo (h : s.Wf hash conf) {db : Nat} {info : DbSlotInfo} (hi : info.Wf hash conf) :
    (s.setInfo db info).Wf hash conf := by
  intro i
  by_cases hdb : i = db
  · subst hdb
    simpa [Slots.setInfo] using hi
  · simpa [Slots.setInfo, hdb] using h i

theorem setInfo_info_of_ne (s : Slots) {db i : Nat} (hi : i ≠ db) (info : DbSlotInfo) :
    (s.setInfo db info).db_slot_infos i = s.db_slot_infos i := Function.update_of_ne hi ..

@[simp] theorem setInfo_info_self (s : Slots) (db : Nat) (info : DbSlotInfo) :
    (s.setInfo db info).db_slot_infos db = info := Function.update_self ..

end Slots

/-! ### One key -/

section
variable {s : Slots}

/-- **`Slots_Add` adds the key** to its database and leaves the others alone. -/
theorem slotsAdd_spec (h : s.Wf hash conf) (db : Nat) (key : Bytes) (draws : Nat) :
    ∃ info, slotsAdd hash conf s db key draws = s.setInfo db info ∧ info.Wf hash conf ∧
      info.keys conf = insert key (s.keys conf db) := by
  have hinfo := h db
  have hd := hinfo.table (slotsNum conf.hash_slots_size key)
  simp only [slotsAdd, Slots.keys]
  by_cases hk : key ∈ (s.db_slot_infos db).keys conf
  · obtain ⟨hm, hr⟩ := Dict.add_of_mem hd hk (slotsCrc key)
    obtain ⟨hwf, hkeys⟩ := hinfo.moved hm
    rw [if_neg (by simp [hr])]
    exact ⟨_, rfl, hwf, by rw [hkeys, Set.insert_eq_of_mem hk]⟩
  · obtain ⟨hwf, hperm, hr⟩ := Dict.add_of_not_mem hd hk (slotsCrc key)
    have hmem := fun key' => (hperm.map Prod.fst).mem_iff (a := key')
    simp only [List.map_cons, List.mem_cons] at hmem
    have hwf' := hinfo.insert rfl hk hwf hmem draws
    by_cases ht : hasTag key = true
    · rw [if_pos ht] at hwf'
      rw [if_pos ⟨hr, ht⟩]
      exact ⟨_, rfl, hwf', DbSlotInfo.keys_setTable_insert rfl hmem⟩
    · rw [if_neg ht] at hwf'
      rw [if_neg fun hc => ht hc.2]
      exact ⟨_, rfl, hwf', DbSlotInfo.keys_setTable_insert rfl hmem⟩

/-- **`Slots_Del` takes the key out** of its database and leaves the others alone. -/
theorem slotsDel_spec (h : s.Wf hash conf) (db : Nat) (key : Bytes) :
    ∃ info, slotsDel hash conf s db key = s.setInfo db info ∧ info.Wf hash conf ∧
      info.keys conf = s.keys conf db \ {key} := by
  have hinfo := h db
  have hd := hinfo.table (slotsNum conf.hash_slots_size key)
  simp only [slotsDel, Slots.keys]
  by_cases hk : key ∈ (s.db_slot_infos db).keys conf
  · obtain ⟨hwf, -, hr⟩ := Dict.delete_of_mem hd hk
    have hmem := Dict.mem_keys_delete hd key
    have hwf' := hinfo.erase rfl hwf hmem
    by_cases ht : hasTag key = true
    · rw [if_pos ht] at hwf'
      rw [if_pos ⟨hr, ht⟩]
      exact ⟨_, rfl, hwf', DbSlotInfo.keys_setTable_diff rfl hmem⟩
    · rw [if_neg ht] at hwf'
      rw [if_neg fun hc => ht hc.2]
      exact ⟨_, rfl, hwf', DbSlotInfo.keys_setTable_diff rfl hmem⟩
  · obtain ⟨hm, hr⟩ := Dict.delete_of_not_mem hd hk
    obtain ⟨hwf, hkeys⟩ := hinfo.moved hm
    rw [if_neg (by simp [hr])]
    exact ⟨_, rfl, hwf, by rw [hkeys, Set.sdiff_singleton_eq_self hk]⟩

/-! ### Flushes -/

theorem flushDb_spec {info : DbSlotInfo} (h : info.Wf hash conf) :
    (flushDb conf.hash_slots_size.toNat info).Wf hash conf ∧
      (flushDb conf.hash_slots_size.toNat info).keys conf = ∅ := by
  have hnil (slot : Nat) : ((flushDb conf.hash_slots_size.toNat info).slotkey_tables slot).keys = [] := by
    simp only [flushDb]
    split
    next => rfl
    next hn =>
      by_cases hslot : slot < conf.hash_slots_size.toNat
      · have hsize : (info.slotkey_tables slot).size = 0 := by
          by_contra hne
          exact hn ⟨hslot, hne⟩
        rw [(h.table slot).size_eq_keys] at hsize
        exact List.eq_nil_of_length_eq_zero hsize
      · refine List.eq_nil_iff_forall_not_mem.mpr fun key hk => hslot ?_
        rw [← h.place slot key hk]
        exact slotsNum_lt conf.size_pos key
  have hkeys : (flushDb conf.hash_slots_size.toNat info).keys conf = ∅ := by
    ext key
    simp [DbSlotInfo.keys, hnil]
  refine ⟨⟨fun slot => ?_, fun slot key hk => by simp [hnil] at hk, [], ?_, fun item => ?_⟩, hkeys⟩
  · simp only [flushDb]
    split
    next => exact Dict.wf_empty hash _
    next => exact h.table slot
  · obtain ⟨items, hz, -⟩ := h.tagged
    simp only [flushDb]
    split
    next => exact Skiplist.represents_create
    next hlen =>
      rw [not_not, hz.length_eq, List.length_eq_zero_iff] at hlen
      exact hlen ▸ hz
  · simp [hkeys, Tagged]

/-- **A flush empties its database**, or all of them, when it starts. -/
theorem flushdbCallback_spec (h : s.Wf hash conf) (start : Bool) (dbnum : Option Nat) :
    (flushdbCallback conf s start dbnum).Wf hash conf ∧
      ∀ db, (flushdbCallback conf s start dbnum).keys conf db =
        if start ∧ (dbnum = some db ∨ (dbnum = none ∧ db < conf.databases)) then ∅ else s.keys conf db := by
  cases start with
  | false => exact ⟨h, fun db => by simp [flushdbCallback]⟩
  | true =>
    cases dbnum with
    | some d =>
      have hf := flushDb_spec (h d)
      refine ⟨h.setInfo hf.1, fun db => ?_⟩
      simp only [flushdbCallback, Slots.keys]
      by_cases hdb : db = d
      · subst hdb
        simpa using hf.2
      · have hne : ¬ (True ∧ (some d = some db ∨ (some d = none ∧ db < conf.databases))) := by
          simp [Ne.symm hdb]
        rw [if_neg hne]
        exact congrArg (DbSlotInfo.keys conf) (Slots.setInfo_info_of_ne s hdb _)
    | none =>
      simp only [flushdbCallback, Slots.keys]
      refine ⟨fun db => ?_, fun db => ?_⟩
      · simp only [Bool.not_true, Bool.false_eq_true, if_false]
        split
        next => exact (flushDb_spec (h db)).1
        next => exact h db
      · by_cases hdb : db < conf.databases
        · simpa [hdb] using (flushDb_spec (h db)).2
        · simp [hdb]

/-! ### The cron -/

namespace Slots

variable (hash) in
/-- The same index, with entries moved within dictionaries. -/
def Moved (s s' : Slots) : Prop :=
  ∀ db, (s'.db_slot_infos db).tagged_key_list = (s.db_slot_infos db).tagged_key_list ∧
    ∀ slot, Dict.Moved hash (s.table db slot) (s'.table db slot)

theorem Moved.refl (h : s.Wf hash conf) : Moved hash s s := fun db => ⟨rfl, fun slot => .refl ((h db).table slot)⟩

theorem Moved.trans {s' s'' : Slots} (h : Moved hash s s') (h' : Moved hash s' s'') : Moved hash s s'' :=
  fun db => ⟨(h' db).1.trans (h db).1, fun slot => ((h db).2 slot).trans ((h' db).2 slot)⟩

theorem Moved.keys {s' : Slots} (h : Moved hash s s') (db : Nat) : s'.keys conf db = s.keys conf db := by
  ext key
  exact ((h db).2 _).keys_perm.mem_iff

theorem Moved.wf {s' : Slots} (h : Moved hash s s') (hs : s.Wf hash conf) : s'.Wf hash conf := by
  intro db
  obtain ⟨items, hz, hitems⟩ := (hs db).tagged
  refine ⟨fun slot => ((h db).2 slot).wf, fun slot key hk => ?_, items, (h db).1 ▸ hz, fun item => ?_⟩
  · exact (hs db).place slot key (((h db).2 slot).keys_perm.mem_iff.mp hk)
  · rw [hitems, show (s'.db_slot_infos db).keys conf = (s.db_slot_infos db).keys conf from h.keys db]

theorem setTable_moved (h : s.Wf hash conf) {db slot : Nat} {d : Dict Bytes UInt32}
    (hd : Dict.Moved hash (s.table db slot) d) : Moved hash s (s.setTable db slot d) := by
  intro i
  by_cases hi : i = db
  · subst hi
    refine ⟨by simp [setTable, DbSlotInfo.setTable], fun j => ?_⟩
    by_cases hj : j = slot
    · subst hj
      simpa [table, setTable, DbSlotInfo.setTable] using hd
    · simpa [table, setTable, DbSlotInfo.setTable, hj] using Dict.Moved.refl ((h i).table j)
  · have hinfo : (s.setTable db slot d).db_slot_infos i = s.db_slot_infos i := setInfo_info_of_ne s hi _
    exact ⟨by rw [hinfo], fun j => by rw [table, table, hinfo]; exact .refl ((h i).table j)⟩

theorem iterate_moved {f : Slots → Slots} (hf : ∀ s, s.Wf hash conf → Moved hash s (f s)) (n : Nat)
    (h : s.Wf hash conf) : Moved hash s (f^[n] s) := by
  induction n generalizing s with
  | zero => exact .refl h
  | succ n ih => exact (hf s h).trans (ih ((hf s h).wf h))

end Slots

theorem tryResizeDbSlotHashTables_moved (db slot : Nat) (h : s.Wf hash conf) :
    Slots.Moved hash s (tryResizeDbSlotHashTables s db slot) := by
  rw [tryResizeDbSlotHashTables]
  split
  next =>
    split
    next d hd => exact Slots.setTable_moved h (Dict.resize_moved ((h _).table _) hd)
    next => exact Slots.Moved.refl h
  next => exact Slots.Moved.refl h

theorem resizeSlot_moved (s : Slots) (h : s.Wf hash conf) : Slots.Moved hash s (resizeSlot conf s) :=
  tryResizeDbSlotHashTables_moved s.resize_db s.resize_db_slot h

theorem resizeDb_moved (n : Nat) (s : Slots) (h : s.Wf hash conf) : Slots.Moved hash s (resizeDb conf n s) :=
  Slots.iterate_moved resizeSlot_moved n h

theorem incrementallyDbSlotRehash_moved (rounds db slot : Nat) (h : s.Wf hash conf) :
    Slots.Moved hash s (incrementallyDbSlotRehash hash rounds s db slot).1 := by
  rw [incrementallyDbSlotRehash]
  split
  next => exact Slots.setTable_moved h (Dict.rehashMilliseconds_moved ((h db).table slot) rounds)
  next => exact .refl h

theorem rehashSlots_moved (rounds n slot : Nat) (h : s.Wf hash conf) :
    Slots.Moved hash s (rehashSlots hash conf rounds n slot s).1 := by
  induction n generalizing slot s with
  | zero => exact .refl h
  | succ n ih =>
    have hm := incrementallyDbSlotRehash_moved rounds s.rehash_db slot h
    rw [rehashSlots]
    split
    next s' heq =>
      rw [heq] at hm
      exact hm
    next s' heq =>
      rw [heq] at hm
      exact hm.trans (ih (s := { s' with rehash_db := (s'.rehash_db + 1) % conf.databases }) (slot + 1) (hm.wf h))

theorem rehashDbs_moved (rounds n : Nat) (h : s.Wf hash conf) :
    Slots.Moved hash s (rehashDbs hash conf rounds n s) := by
  induction n generalizing s with
  | zero => exact .refl h
  | succ n ih =>
    have hm := rehashSlots_moved rounds conf.hash_slots_size.toNat 0 h
    rw [rehashDbs]
    split
    next s' heq =>
      rw [heq] at hm
      exact hm
    next s' heq =>
      rw [heq] at hm
      exact hm.trans (ih (hm.wf h))

/-- **The cron only moves entries**, in whatever databases it gets round to. -/
theorem dbSlotCron_moved (child : Bool) (rounds : Nat) (h : s.Wf hash conf) :
    Slots.Moved hash s (dbSlotCron hash conf child rounds s) := by
  have hm : Slots.Moved hash s ((resizeDb conf (min CRON_DB_SLOTS_PER_CALL conf.hash_slots_size.toNat))^[min
      CRON_DBS_PER_CALL conf.databases] s) :=
    Slots.iterate_moved (resizeDb_moved _) _ h
  simp only [dbSlotCron]
  split
  next => exact hm
  next => exact hm.trans (rehashDbs_moved rounds conf.databases (hm.wf h))

/-! ### Runs -/

theorem Slots.step_wf (h : s.Wf hash conf) (op : SlotsOp) : (s.step hash conf op).Wf hash conf := by
  cases op with
  | add db key draws =>
    obtain ⟨info, heq, hwf, -⟩ := slotsAdd_spec h db key draws
    rw [step, heq]
    exact h.setInfo hwf
  | del db key =>
    obtain ⟨info, heq, hwf, -⟩ := slotsDel_spec h db key
    rw [step, heq]
    exact h.setInfo hwf
  | flush start dbnum => exact (flushdbCallback_spec h start dbnum).1
  | cron child rounds => exact (dbSlotCron_moved child rounds h).wf h

theorem Slots.run_wf (h : s.Wf hash conf) (ops : List SlotsOp) : (s.run hash conf ops).Wf hash conf := by
  induction ops generalizing s with
  | nil => exact h
  | cons op ops ih => exact ih (s.step_wf h op)

/-- An operation on one database changes no other. -/
theorem Slots.step_frame (h : s.Wf hash conf) {op : SlotsOp} {db db' : Nat} (hop : op.db = some db) (hne : db' ≠ db) :
    (s.step hash conf op).db_slot_infos db' = s.db_slot_infos db' := by
  cases op with
  | add _ key draws =>
    cases hop
    obtain ⟨info, heq, -⟩ := slotsAdd_spec h db key draws
    rw [step, heq, setInfo_info_of_ne s hne]
  | del _ key =>
    cases hop
    obtain ⟨info, heq, -⟩ := slotsDel_spec h db key
    rw [step, heq, setInfo_info_of_ne s hne]
  | flush start _ =>
    cases hop
    cases start with
    | false => rfl
    | true => exact setInfo_info_of_ne s hne _
  | cron => cases hop

/-- **The representation invariant holds in every reachable state**: each indexed key is
once in the table of its slot and nowhere else, and the skiplist is the sorted list of
the tagged keys with their checksums. -/
theorem slots_invariant (hash : Bytes → Nat) (conf : SlotsMetaInfo) (ops : List SlotsOp) :
    let s := slotsInit.run hash conf ops
    (∀ db slot key, key ∈ (s.table db slot).keys → slot = slotsNum conf.hash_slots_size key ∧
      slot < conf.hash_slots_size.toNat ∧ (s.table db slot).keys.count key = 1) ∧
    (∀ db, ∃ items, (s.db_slot_infos db).tagged_key_list.Represents items ∧
      (s.db_slot_infos db).tagged_key_list.length = items.length ∧ items.Pairwise Item.Lt ∧
      (items.map Prod.snd).Nodup ∧ ∀ score key, (score, key) ∈ items ↔ hasTag key = true ∧
        score = (slotsCrc key).toNat ∧ key ∈ (s.table db (slotsNum conf.hash_slots_size key)).keys) ∧
    ∀ op db db', op.db = some db → db' ≠ db →
      (s.step hash conf op).db_slot_infos db' = s.db_slot_infos db' := by
  have h : (slotsInit.run hash conf ops).Wf hash conf :=
    Slots.run_wf (fun _ => DbSlotInfo.wf_init) ops
  refine ⟨fun db slot key hk => ?_, fun db => ?_, fun op db db' hop hne => Slots.step_frame h hop hne⟩
  · have hplace := (h db).place slot key hk
    exact ⟨hplace.symm, hplace ▸ slotsNum_lt conf.size_pos key,
      List.count_eq_one_of_mem ((h db).table slot).nodup hk⟩
  · obtain ⟨items, hz, hitems⟩ := (h db).tagged
    refine ⟨items, hz, hz.length_eq, hz.sorted, ?_, fun score key => ?_⟩
    · refine hz.nodup.map_on fun a ha b hb hab => ?_
      rw [((hitems a).mp ha).2.1, ((hitems b).mp hb).2.1, hab]
    · rw [hitems, Tagged, tagItem, Prod.mk.injEq]
      exact ⟨fun ⟨ht, he, hk⟩ => ⟨ht, he.1, hk⟩, fun ⟨ht, he, hk⟩ => ⟨ht, ⟨he, rfl⟩, hk⟩⟩

end
end RedisXSlot
