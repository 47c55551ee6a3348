import RedisXSlot.Cron
import RedisXSlot.Delete

/-! Whether a draw can hit every key.

`m_dictGetRandomKey` draws until it meets a bucket with entries, and while the table is rehashed
it draws from `rehashidx` on only. Whatever has been done to a table, there are no entries
before that index (`Dict.Swept`), so every entry can be drawn (`Slots.run_drawable`). -/
namespace RedisXSlot

/-! ### Buckets that are done -/

namespace Dict
variable {K V : Type} {hash : K → Nat} {d : Dict K V}

/-- There are no entries before rehashidx, which is within the table. -/
def Swept (d : Dict K V) : Prop := ∀ idx, d.rehashidx = some idx → idx ≤ d.ht0.size ∧ ∀ i < idx, d.ht0.bucket i = []

theorem swept_of_none (h : d.rehashidx = none) : d.Swept := fun idx hidx => by
  rw [h] at hidx
  cases hidx

/-- What `skipEmpty` passes is empty. -/
theorem skipEmpty_empty (ht : DictHt K V) (visits idx : Nat) :
    ∀ i, idx ≤ i → i < (skipEmpty ht visits idx).1 → ht.bucket i = [] := by
  induction visits generalizing idx with
  | zero => exact fun i hi hlt => absurd hlt (Nat.not_lt.mpr hi)
  | succ visits ih =>
    intro i hi hlt
    rw [skipEmpty] at hlt
    split at hlt
    next hempty =>
      rcases hi.eq_or_lt with rfl | hi
      · exact List.isEmpty_iff.mp hempty
      · split at hlt
        next => omega
        next => exact ih (idx + 1) i hi hlt
    next => exact absurd hlt (Nat.not_lt.mpr hi)

/-- A table that is in use has a bucket with entries. -/
theorem exists_bucket (h : d.Wf hash) (hused : d.ht0.used ≠ 0) : ∃ i, i < d.ht0.size ∧ d.ht0.bucket i ≠ [] := by
  rw [h.ht0.used] at hused
  obtain ⟨e, he⟩ := List.exists_mem_of_length_pos (Nat.pos_of_ne_zero hused)
  have hne := List.ne_nil_of_mem (h.ht0.mem_bucket he)
  exact ⟨_, bucket_index_lt hne, hne⟩

theorem rehashLoop_swept (h : d.Wf hash) (hr : d.rehashidx ≠ none) {idx : Nat} (hle : idx ≤ d.ht0.size)
    (hs : ∀ i < idx, d.ht0.bucket i = []) (n visits : Nat) : (rehashLoop hash n visits idx d).1.Swept := by
  have hset {i : Nat} (hi : i ≤ d.ht0.size) (hempty : ∀ j < i, d.ht0.bucket j = []) :
      Swept { d with rehashidx := some i } := by
    intro j hj
    cases hj
    exact ⟨hi, hempty⟩
  induction n generalizing d idx visits with
  | zero => exact hset hle hs
  | succ n ih =>
    have hskip : ∀ i < (skipEmpty d.ht0 visits idx).1, d.ht0.bucket i = [] := by
      intro i hi
      rcases Nat.lt_or_ge i idx with hlt | hge
      · exact hs i hlt
      · exact skipEmpty_empty d.ht0 visits idx i hge hi
    rw [rehashLoop]
    split
    next => exact hset hle hs
    next hused =>
      split
      next i heq =>
        rw [heq] at hskip
        obtain ⟨j, hj, hne⟩ := exists_bucket h hused
        have hij : i ≤ j := Nat.not_lt.mp fun hlt => hne (hskip j hlt)
        exact hset (hij.trans hj.le) hskip
      next i v heq =>
        rw [heq] at hskip
        have hfound := skipEmpty_found heq
        have hlt : i < d.ht0.table.length := bucket_index_lt hfound
        have hmoved := moveBucket_moved h hr hfound
        have hsize : (⟨d.ht0.table.set i [], d.ht0.used - (d.ht0.bucket i).length⟩ : DictHt K V).size = d.ht0.size :=
          List.length_set
        have hempty : ∀ j < i + 1,
            (⟨d.ht0.table.set i [], d.ht0.used - (d.ht0.bucket i).length⟩ : DictHt K V).bucket j = [] := by
          intro j hj
          rw [DictHt.bucket_set]
          split
          next => rfl
          next hne => exact hskip j (by omega)
        exact @ih _ hmoved.wf hr _ (hsize.symm ▸ hlt) hempty v fun hi hempty j hj => by
          cases hj
          exact ⟨hi, hempty⟩

theorem Swept.rehash (hs : d.Swept) (h : d.Wf hash) (n : Nat) : (Dict.rehash hash d n).1.Swept := by
  rw [Dict.rehash]
  split
  next => exact hs
  next idx hidx =>
    obtain ⟨hle, hempty⟩ := hs idx hidx
    have hloop := rehashLoop_swept h (by rw [hidx]; exact Option.some_ne_none idx) hle hempty n (n * 10)
    split
    next d' heq =>
      rw [heq] at hloop
      exact hloop
    next d' heq =>
      rw [heq] at hloop
      split
      next => exact swept_of_none rfl
      next => exact hloop

theorem Swept.rehashStep (hs : d.Swept) (h : d.Wf hash) : (Dict.rehashStep hash d).Swept := by
  rw [Dict.rehashStep]
  split
  next => exact hs.rehash h 1
  next => exact hs

theorem Swept.rehashMilliseconds (hs : d.Swept) (h : d.Wf hash) (rounds : Nat) :
    (Dict.rehashMilliseconds hash rounds d).Swept := by
  induction rounds generalizing d with
  | zero => exact hs.rehash h 100
  | succ rounds ih =>
    have hstep := hs.rehash h 100
    have hmoved := rehash_moved h 100
    rw [Dict.rehashMilliseconds]
    split
    next d' heq =>
      rw [heq] at hstep hmoved
      exact ih hstep hmoved.wf
    next d' heq =>
      rw [heq] at hstep
      exact hstep

/-- A rehashing starts at the first bucket. -/
theorem expand_swept {size : Nat} {d' : Dict K V} (h : d.expand size = some d') : d'.Swept := by
  rw [expand] at h
  split at h
  next => cases h
  next hnot =>
    simp only at h
    split at h
    next => cases h
    next =>
      split at h
      next =>
        cases h
        exact swept_of_none (not_isRehashing_iff.mp fun hr => hnot (.inl hr))
      next =>
        cases h
        intro idx hidx
        cases hidx
        exact ⟨Nat.zero_le _, fun i hi => absurd hi (Nat.not_lt_zero i)⟩

theorem resize_swept {d' : Dict K V} (h : d.resize = some d') : d'.Swept := by
  rw [resize] at h
  split at h
  next => cases h
  next => exact expand_swept h

theorem Swept.expandIfNeeded (hs : d.Swept) {d' : Dict K V} (h : Dict.expandIfNeeded d = some d') : d'.Swept := by
  rw [Dict.expandIfNeeded] at h
  split at h
  next =>
    cases h
    exact hs
  next =>
    split at h
    next => exact expand_swept h
    next =>
      split at h
      next => exact expand_swept h
      next =>
        cases h
        exact hs

variable [DecidableEq K]

theorem Swept.keyIndex (hs : d.Swept) (key : K) : (Dict.keyIndex hash d key).1.Swept := by
  rw [Dict.keyIndex]
  split
  next => exact hs
  next d' heq =>
    have hs' := hs.expandIfNeeded heq
    split
    next => exact hs'
    next =>
      split
      next => exact hs'
      next =>
        split
        next => exact hs'
        next => exact hs'

theorem Swept.add (hs : d.Swept) (h : d.Wf hash) (key : K) (val : V) : (Dict.add hash d key val).1.Swept := by
  have hindex : (Dict.keyIndex hash (Dict.rehashStep hash d) key).1.Swept := (hs.rehashStep h).keyIndex key
  rw [Dict.add]
  split
  next d' heq =>
    rw [heq] at hindex
    exact hindex
  next d' index heq =>
    rw [heq] at hindex
    split
    next => exact hindex
    next hr => exact swept_of_none (not_isRehashing_iff.mp hr)

theorem Swept.delete (hs : d.Swept) (h : d.Wf hash) (key : K) : (Dict.delete hash d key).1.Swept := by
  have hstep := hs.rehashStep h
  rw [Dict.delete]
  split
  next => exact hs
  next =>
    simp only
    split
    next =>
      intro idx hidx
      obtain ⟨hle, hempty⟩ := hstep idx hidx
      refine ⟨hle.trans_eq List.length_set.symm, fun i hi => ?_⟩
      rw [DictHt.unlink]
      dsimp only
      rw [DictHt.bucket_set]
      split
      next hij => rw [hij.1, hempty i hi, List.eraseP_nil]
      next => exact hempty i hi
    next =>
      split
      next => exact hstep
      next => exact hstep

omit [DecidableEq K]

/-! ### Drawing -/

/-- Some `random()` leads to the bucket of an entry. -/
theorem exists_bucketAt (h : d.Wf hash) (hs : d.Swept) {e : K × V} (he : e ∈ d.entries) : ∃ r, e ∈ d.bucketAt r := by
  cases hidx : d.rehashidx with
  | none =>
    have hin : e ∈ d.ht0.entries := by
      refine (List.mem_append.mp he).resolve_right fun he => ?_
      rw [h.idle hidx] at he
      exact List.not_mem_nil he
    refine ⟨hash e.1, ?_⟩
    rw [bucketAt, hidx]
    exact h.ht0.mem_bucket hin
  | some idx =>
    obtain ⟨hle, hempty⟩ := hs idx hidx
    have hne : d.rehashidx ≠ none := by rw [hidx]; exact Option.some_ne_none idx
    obtain ⟨hne0, hne1⟩ := h.rehashing hne
    have hlt0 : hash e.1 &&& d.ht0.sizemask < d.ht0.size := h.ht0.index_lt hne0 e.1
    have hlt1 : hash e.1 &&& d.ht1.sizemask < d.ht1.size := h.ht1.index_lt hne1 e.1
    rcases List.mem_append.mp he with he | he
    · have hin := h.ht0.mem_bucket he
      have hge : idx ≤ hash e.1 &&& d.ht0.sizemask := Nat.not_lt.mp fun hlt => by
        rw [hempty _ hlt] at hin
        exact List.not_mem_nil hin
      refine ⟨(hash e.1 &&& d.ht0.sizemask) - idx, ?_⟩
      rw [bucketAt, hidx]
      simp only
      rw [Nat.mod_eq_of_lt (by omega), Nat.add_sub_cancel' hge, if_neg (by omega)]
      exact hin
    · refine ⟨d.ht0.size + (hash e.1 &&& d.ht1.sizemask) - idx, ?_⟩
      rw [bucketAt, hidx]
      simp only
      rw [Nat.mod_eq_of_lt (by omega), Nat.add_sub_cancel' (by omega), if_pos (by omega), Nat.add_sub_cancel_left]
      exact h.ht1.mem_bucket he

/-- **Every entry can be drawn.** -/
theorem exists_draws (h : d.Wf hash) (hs : d.Swept) {e : K × V} (he : e ∈ d.entries) :
    ∃ draws, (getRandomKey hash d draws).2 = some (some e) := by
  have hm := rehashStep_moved h
  obtain ⟨r, hr⟩ := exists_bucketAt hm.wf (hs.rehashStep h) (hm.perm.mem_iff.mpr he)
  obtain ⟨i, hi, hget⟩ := List.getElem_of_mem hr
  have hsize : d.size ≠ 0 := by
    rw [h.size_eq]
    exact (List.length_pos_of_mem he).ne'
  have hpick : pickBucket (bucketAt (rehashStep hash d)) [r, i] = some (bucketAt (rehashStep hash d) r, [i]) := by
    rw [pickBucket, if_neg]
    rw [List.isEmpty_iff]
    exact List.ne_nil_of_mem hr
  refine ⟨[r, i], ?_⟩
  rw [getRandomKey, if_neg hsize]
  simp only [hpick]
  rw [Nat.mod_eq_of_lt hi, List.getElem?_eq_getElem hi, hget]

theorem Swept.getRandomKey (hs : d.Swept) (h : d.Wf hash) (draws : List Nat) : (Dict.getRandomKey hash d draws).1.Swept := by
  rw [Dict.getRandomKey]
  split
  next => exact hs
  next =>
    simp only
    split
    next => exact hs.rehashStep h
    next => exact hs.rehashStep h

/-- Some draws end the loop. -/
theorem exists_ending (h : d.Wf hash) (hs : d.Swept) : ∃ draws out, (getRandomKey hash d draws).2 = some out := by
  cases hentries : d.entries with
  | nil => exact ⟨[], none, (getRandomKey_spec h []).2.2.mpr hentries⟩
  | cons e rest =>
    obtain ⟨draws, hdraws⟩ := exists_draws h hs (hentries ▸ List.mem_cons_self : e ∈ d.entries)
    exact ⟨draws, some e, hdraws⟩

end Dict

/-! ### The index -/

variable {hash : Bytes → Nat} {conf : SlotsMetaInfo} {s : Slots}

/-- Every table is swept up to its rehashidx. -/
def Slots.AllSwept (s : Slots) : Prop := ∀ db slot, (s.table db slot).Swept

theorem Slots.AllSwept.setTable (hs : s.AllSwept) {db slot : Nat} {d : Dict Bytes UInt32} (hd : d.Swept) :
    (s.setTable db slot d).AllSwept := by
  intro i j
  rw [Slots.table_setTable]
  split
  next => exact hd
  next => exact hs i j

theorem Slots.table_setInfo_of_ne {db i : Nat} (h : i ≠ db) (info : DbSlotInfo) (slot : Nat) :
    (s.setInfo db info).table i slot = s.table i slot := by
  rw [Slots.table, Slots.setInfo_info_of_ne s h, Slots.table]

theorem Slots.AllSwept.slotsAdd (hs : s.AllSwept) (h : s.Wf hash conf) (db : Nat) (key : Bytes) (draws : Nat) :
    (RedisXSlot.slotsAdd hash conf s db key draws).AllSwept := by
  intro i slot
  by_cases hi : i = db
  · subst hi
    rw [table_slotsAdd]
    split
    next => exact (hs i slot).add ((h i).table slot) key (slotsCrc key)
    next => exact hs i slot
  · obtain ⟨info, heq, -⟩ := slotsAdd_spec h db key draws
    rw [heq, Slots.table_setInfo_of_ne hi]
    exact hs i slot

theorem Slots.AllSwept.slotsDel (hs : s.AllSwept) (h : s.Wf hash conf) (db : Nat) (key : Bytes) :
    (RedisXSlot.slotsDel hash conf s db key).AllSwept := by
  intro i slot
  by_cases hi : i = db
  · subst hi
    rw [table_slotsDel]
    split
    next => exact (hs i slot).delete ((h i).table slot) key
    next => exact hs i slot
  · obtain ⟨info, heq, -⟩ := slotsDel_spec h db key
    rw [heq, Slots.table_setInfo_of_ne hi]
    exact hs i slot

theorem flushDb_swept {info : DbSlotInfo} (hs : ∀ slot, (info.slotkey_tables slot).Swept) (n slot : Nat) :
    ((flushDb n info).slotkey_tables slot).Swept := by
  rw [flushDb]
  dsimp only
  split
  next => exact Dict.swept_of_none rfl
  next => exact hs slot

theorem Slots.AllSwept.flush (hs : s.AllSwept) (start : Bool) (dbnum : Option Nat) :
    (flushdbCallback conf s start dbnum).AllSwept := by
  rw [flushdbCallback]
  split
  next => exact hs
  next =>
    cases dbnum with
    | some db =>
      intro i slot
      by_cases hi : i = db
      · subst hi
        show ((s.setInfo i (flushDb conf.hash_slots_size.toNat (s.db_slot_infos i))).table i slot).Swept
        rw [Slots.table, Slots.setInfo_info_self]
        exact flushDb_swept (hs i) _ slot
      · simp only
        rw [Slots.table_setInfo_of_ne hi]
        exact hs i slot
    | none =>
      intro i slot
      rw [Slots.table]
      dsimp only
      split
      next => exact flushDb_swept (hs i) _ slot
      next => exact hs i slot

theorem tryResizeDbSlotHashTables_swept (hs : s.AllSwept) (db slot : Nat) :
    (tryResizeDbSlotHashTables s db slot).AllSwept := by
  rw [tryResizeDbSlotHashTables]
  split
  next =>
    split
    next d hd => exact hs.setTable (Dict.resize_swept hd)
    next => exact hs
  next => exact hs

theorem Slots.AllSwept.iterate {f : Slots → Slots} (hf : ∀ s : Slots, s.AllSwept → (f s).AllSwept) (hs : s.AllSwept) (n : Nat) :
    (f^[n] s).AllSwept := by
  induction n generalizing s with
  | zero => exact hs
  | succ n ih => exact ih (hf s hs)

theorem resizeSlot_swept (s : Slots) (hs : s.AllSwept) : (resizeSlot conf s).AllSwept :=
  tryResizeDbSlotHashTables_swept hs s.resize_db s.resize_db_slot

theorem resizeDb_swept (n : Nat) (s : Slots) (hs : s.AllSwept) : (resizeDb conf n s).AllSwept :=
  Slots.AllSwept.iterate resizeSlot_swept hs n

theorem incrementallyDbSlotRehash_swept (hs : s.AllSwept) (h : s.Wf hash conf) (rounds db slot : Nat) :
    (incrementallyDbSlotRehash hash rounds s db slot).1.AllSwept := by
  rw [incrementallyDbSlotRehash]
  split
  next => exact hs.setTable ((hs db slot).rehashMilliseconds ((h db).table slot) rounds)
  next => exact hs

theorem rehashSlots_swept (hs : s.AllSwept) (h : s.Wf hash conf) (rounds n slot : Nat) :
    (rehashSlots hash conf rounds n slot s).1.AllSwept := by
  induction n generalizing slot s with
  | zero => exact hs
  | succ n ih =>
    have hstep := incrementallyDbSlotRehash_swept hs h rounds s.rehash_db slot
    have hm := incrementallyDbSlotRehash_moved rounds s.rehash_db slot h
    rw [rehashSlots]
    split
    next s' heq =>
      rw [heq] at hstep
      exact hstep
    next s' heq =>
      rw [heq] at hstep hm
      exact @ih { s' with rehash_db := (s'.rehash_db + 1) % conf.databases } hstep (hm.wf h) (slot + 1)

theorem rehashDbs_swept (hs : s.AllSwept) (h : s.Wf hash conf) (rounds n : Nat) :
    (rehashDbs hash conf rounds n s).AllSwept := by
  induction n generalizing s with
  | zero => exact hs
  | succ n ih =>
    have hstep := rehashSlots_swept hs h rounds conf.hash_slots_size.toNat 0
    have hm := rehashSlots_moved rounds conf.hash_slots_size.toNat 0 h
    rw [rehashDbs]
    split
    next s' heq =>
      rw [heq] at hstep
      exact hstep
    next s' heq =>
      rw [heq] at hstep hm
      exact ih hstep (hm.wf h)

theorem Slots.AllSwept.cron (hs : s.AllSwept) (h : s.Wf hash conf) (child : Bool) (rounds : Nat) :
    (dbSlotCron hash conf child rounds s).AllSwept := by
  have hsweep : (s.sweep conf).AllSwept := Slots.AllSwept.iterate (resizeDb_swept _) hs _
  have hwf : (s.sweep conf).Wf hash conf := (Slots.iterate_moved (resizeDb_moved _) _ h).wf h
  rw [dbSlotCron_eq]
  split
  next => exact hsweep
  next => exact rehashDbs_swept hsweep hwf rounds conf.databases

theorem Slots.AllSwept.step (hs : s.AllSwept) (h : s.Wf hash conf) (op : SlotsOp) : (s.step hash conf op).AllSwept := by
  cases op with
  | add db key draws => exact hs.slotsAdd h db key draws
  | del db key => exact hs.slotsDel h db key
  | flush start dbnum => exact hs.flush start dbnum
  | cron child rounds => exact hs.cron h child rounds

theorem Slots.AllSwept.run (hs : s.AllSwept) (h : s.Wf hash conf) (ops : List SlotsOp) : (s.run hash conf ops).AllSwept := by
  induction ops generalizing s with
  | nil => exact hs
  | cons op ops ih => exact ih (hs.step h op) (Slots.step_wf h op)

theorem allSwept_init : slotsInit.AllSwept := fun _ _ => Dict.swept_of_none rfl

/-- **Whatever has happened to the index, every key of a table can be drawn.** -/
theorem Slots.run_drawable (hash : Bytes → Nat) (conf : SlotsMetaInfo) (ops : List SlotsOp) (db slot : Nat) {key : Bytes}
    (hkey : key ∈ ((slotsInit.run hash conf ops).table db slot).keys) :
    ∃ draws crc, (Dict.getRandomKey hash ((slotsInit.run hash conf ops).table db slot) draws).2 = some (some (key, crc)) := by
  have hwf : (slotsInit.run hash conf ops).Wf hash conf := Slots.run_wf (fun _ => DbSlotInfo.wf_init) ops
  have hswept : (slotsInit.run hash conf ops).AllSwept := allSwept_init.run (fun _ => DbSlotInfo.wf_init) ops
  obtain ⟨⟨key, crc⟩, he, rfl⟩ := List.mem_map.mp hkey
  obtain ⟨draws, hdraws⟩ := Dict.exists_draws ((hwf db).table slot) (hswept db slot) he
  exact ⟨draws, crc, hdraws⟩

end RedisXSlot
