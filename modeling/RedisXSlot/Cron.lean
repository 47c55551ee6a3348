import RedisXSlot.Coverage
import RedisXSlot.Lib.Counters

/-! How the cron gets round.

The resize loops go through some databases, and for each of them a run of slots, with
counters that stay from call to call; the rehash loops try one table after the other until
one is being rehashed, moving on in both counters at each try. So which tables are got to
depends on the gcd of the numbers of databases and slots (`resize_covers_iff`,
`rehash_progress_iff`). -/
namespace RedisXSlot

section
variable (conf : SlotsMetaInfo)

def dbsPerCall : Nat := min CRON_DBS_PER_CALL conf.databases
def dbSlotsPerCall : Nat := min CRON_DB_SLOTS_PER_CALL conf.hash_slots_size.toNat

/-- The resize loops of a call. -/
def Slots.sweep (s : Slots) : Slots := (resizeDb conf (dbSlotsPerCall conf))^[dbsPerCall conf] s

/-- The table `tryResizeDbSlotHashTables` is to be called for next. -/
def Slots.resizePair (s : Slots) : Nat × Nat := (s.resize_db, s.resize_db_slot)

/-- The tables the resize loops of a call pass to `tryResizeDbSlotHashTables`, in order. -/
def Slots.swept (s : Slots) : List (Nat × Nat) :=
  (List.range (dbsPerCall conf)).flatMap fun j =>
    (List.range (dbSlotsPerCall conf)).map fun i =>
      ((resizeSlot conf)^[i] ((resizeDb conf (dbSlotsPerCall conf))^[j] s)).resizePair

end

theorem dbSlotCron_eq (hash : Bytes → Nat) (conf : SlotsMetaInfo) (child : Bool) (rounds : Nat) (s : Slots) :
    dbSlotCron hash conf child rounds s =
      if !conf.activerehashing || child then s.sweep conf else rehashDbs hash conf rounds conf.databases (s.sweep conf) := rfl

/-! ### The counters of the resize loops -/

section
variable {hash : Bytes → Nat} {conf : SlotsMetaInfo} {s : Slots}

/-- The counters are in range. -/
structure Slots.InRange (conf : SlotsMetaInfo) (s : Slots) : Prop where
  db : s.resize_db < conf.databases
  slot : s.resize_db_slot < conf.hash_slots_size.toNat

theorem tryResizeDbSlotHashTables_counters (s : Slots) (db slot : Nat) :
    (tryResizeDbSlotHashTables s db slot).resize_db = s.resize_db ∧
      (tryResizeDbSlotHashTables s db slot).resize_db_slot = s.resize_db_slot ∧
      (tryResizeDbSlotHashTables s db slot).rehash_db = s.rehash_db := by
  rw [tryResizeDbSlotHashTables]
  split
  next => split <;> exact ⟨rfl, rfl, rfl⟩
  next => exact ⟨rfl, rfl, rfl⟩

theorem resizeSlot_iterate (hr : s.InRange conf) (n : Nat) :
    ((resizeSlot conf)^[n] s).resize_db = s.resize_db ∧
      ((resizeSlot conf)^[n] s).resize_db_slot = (s.resize_db_slot + n) % conf.hash_slots_size.toNat ∧
      ((resizeSlot conf)^[n] s).rehash_db = s.rehash_db := by
  induction n with
  | zero => exact ⟨rfl, (Nat.mod_eq_of_lt hr.slot).symm, rfl⟩
  | succ n ih =>
    obtain ⟨hdb, hslot, hre⟩ := ih
    obtain ⟨h1, -, h3⟩ := tryResizeDbSlotHashTables_counters ((resizeSlot conf)^[n] s)
      ((resizeSlot conf)^[n] s).resize_db ((resizeSlot conf)^[n] s).resize_db_slot
    rw [Function.iterate_succ_apply']
    refine ⟨h1.trans hdb, ?_, h3.trans hre⟩
    show (((resizeSlot conf)^[n] s).resize_db_slot + 1) % conf.hash_slots_size.toNat = _
    rw [hslot, Nat.mod_add_mod, Nat.add_assoc]

theorem resizeDb_iterate (hr : s.InRange conf) (n m : Nat) :
    ((resizeDb conf n)^[m] s).resize_db = (s.resize_db + m) % conf.databases ∧
      ((resizeDb conf n)^[m] s).resize_db_slot = (s.resize_db_slot + m * n) % conf.hash_slots_size.toNat ∧
      ((resizeDb conf n)^[m] s).rehash_db = s.rehash_db := by
  have hD : 0 < conf.databases := Nat.zero_lt_of_lt hr.db
  induction m with
  | zero => exact ⟨(Nat.mod_eq_of_lt hr.db).symm, by rw [Nat.zero_mul]; exact (Nat.mod_eq_of_lt hr.slot).symm, rfl⟩
  | succ m ih =>
    obtain ⟨hdb, hslot, hre⟩ := ih
    have hr' : ((resizeDb conf n)^[m] s).InRange conf := ⟨hdb ▸ Nat.mod_lt _ hD, hslot ▸ Nat.mod_lt _ conf.size_pos⟩
    obtain ⟨h1, h2, h3⟩ := resizeSlot_iterate hr' n
    rw [Function.iterate_succ_apply']
    refine ⟨?_, ?_, h3.trans hre⟩
    · show (((resizeSlot conf)^[n] ((resizeDb conf n)^[m] s)).resize_db + 1) % conf.databases = _
      rw [h1, hdb, Nat.mod_add_mod, Nat.add_assoc]
    · show ((resizeSlot conf)^[n] ((resizeDb conf n)^[m] s)).resize_db_slot = _
      rw [h2, hslot, Nat.mod_add_mod, Nat.add_assoc, Nat.succ_mul]

theorem Slots.InRange.resizeDb (hr : s.InRange conf) (n m : Nat) : ((resizeDb conf n)^[m] s).InRange conf :=
  ⟨(resizeDb_iterate hr n m).1 ▸ Nat.mod_lt _ (Nat.zero_lt_of_lt hr.db),
    (resizeDb_iterate hr n m).2.1 ▸ Nat.mod_lt _ conf.size_pos⟩

/-- **What a call passes**: runs of slots, each for the next database. -/
theorem mem_swept (hr : s.InRange conf) {p : Nat × Nat} :
    p ∈ s.swept conf ↔ ∃ j < dbsPerCall conf, ∃ i < dbSlotsPerCall conf, (s.resize_db + j) % conf.databases = p.1 ∧
      (s.resize_db_slot + j * dbSlotsPerCall conf + i) % conf.hash_slots_size.toNat = p.2 := by
  have hpair (j i : Nat) : ((resizeSlot conf)^[i] ((resizeDb conf (dbSlotsPerCall conf))^[j] s)).resizePair =
      ((s.resize_db + j) % conf.databases,
        (s.resize_db_slot + j * dbSlotsPerCall conf + i) % conf.hash_slots_size.toNat) := by
    obtain ⟨h1, h2, -⟩ := resizeSlot_iterate (hr.resizeDb (dbSlotsPerCall conf) j) i
    obtain ⟨h1', h2', -⟩ := resizeDb_iterate hr (dbSlotsPerCall conf) j
    rw [Slots.resizePair, h1, h2, h1', h2', Nat.mod_add_mod]
  simp only [Slots.swept, List.mem_flatMap, List.mem_map, List.mem_range, hpair, Prod.ext_iff]

/-! ### What a run passes -/

theorem rehashSlots_counters (rounds n slot : Nat) (s : Slots) :
    (rehashSlots hash conf rounds n slot s).1.resize_db = s.resize_db ∧
      (rehashSlots hash conf rounds n slot s).1.resize_db_slot = s.resize_db_slot := by
  induction n generalizing slot s with
  | zero => exact ⟨rfl, rfl⟩
  | succ n ih =>
    rw [rehashSlots, incrementallyDbSlotRehash]
    split_ifs
    next => exact ⟨rfl, rfl⟩
    next => exact ih (slot + 1) { s with rehash_db := (s.rehash_db + 1) % conf.databases }

theorem rehashDbs_counters (rounds n : Nat) (s : Slots) :
    (rehashDbs hash conf rounds n s).resize_db = s.resize_db ∧
      (rehashDbs hash conf rounds n s).resize_db_slot = s.resize_db_slot := by
  induction n generalizing s with
  | zero => exact ⟨rfl, rfl⟩
  | succ n ih =>
    have hs := @rehashSlots_counters hash conf rounds conf.hash_slots_size.toNat 0 s
    rw [rehashDbs]
    split
    next s' heq =>
      rw [heq] at hs
      exact hs
    next s' heq =>
      rw [heq] at hs
      exact ⟨(ih s').1.trans hs.1, (ih s').2.trans hs.2⟩

def SlotsOp.isCron : SlotsOp → Bool
  | .cron .. => true
  | _ => false

theorem step_counters_of_not_cron (s : Slots) {op : SlotsOp} (hop : op.isCron = false) :
    (s.step hash conf op).resize_db = s.resize_db ∧ (s.step hash conf op).resize_db_slot = s.resize_db_slot := by
  cases op with
  | add db key draws =>
    simp only [Slots.step, slotsAdd]
    split <;> exact ⟨rfl, rfl⟩
  | del db key =>
    simp only [Slots.step, slotsDel]
    split <;> exact ⟨rfl, rfl⟩
  | flush start dbnum =>
    simp only [Slots.step, flushdbCallback]
    split
    next => exact ⟨rfl, rfl⟩
    next => cases dbnum <;> exact ⟨rfl, rfl⟩
  | cron child rounds => exact absurd hop (by simp [SlotsOp.isCron])

theorem dbSlotCron_counters (hr : s.InRange conf) (child : Bool) (rounds : Nat) :
    (dbSlotCron hash conf child rounds s).resize_db = (s.resize_db + dbsPerCall conf) % conf.databases ∧
      (dbSlotCron hash conf child rounds s).resize_db_slot =
        (s.resize_db_slot + dbsPerCall conf * dbSlotsPerCall conf) % conf.hash_slots_size.toNat := by
  obtain ⟨hdb, hslot, -⟩ := resizeDb_iterate hr (dbSlotsPerCall conf) (dbsPerCall conf)
  rw [dbSlotCron_eq]
  split
  next => exact ⟨hdb, hslot⟩
  next =>
    obtain ⟨hdb', hslot'⟩ := @rehashDbs_counters hash conf rounds conf.databases (s.sweep conf)
    exact ⟨hdb'.trans hdb, hslot'.trans hslot⟩

theorem Slots.InRange.step (hr : s.InRange conf) (op : SlotsOp) : (s.step hash conf op).InRange conf := by
  cases hop : op.isCron with
  | false =>
    obtain ⟨hdb, hslot⟩ := @step_counters_of_not_cron hash conf s op hop
    exact ⟨hdb.trans_lt hr.db, hslot.trans_lt hr.slot⟩
  | true =>
    cases op with
    | cron child rounds =>
      obtain ⟨hdb, hslot⟩ := @dbSlotCron_counters hash conf s hr child rounds
      exact ⟨hdb.trans_lt (Nat.mod_lt _ (Nat.zero_lt_of_lt hr.db)), hslot.trans_lt (Nat.mod_lt _ conf.size_pos)⟩
    | _ => exact absurd hop (by simp [SlotsOp.isCron])

theorem Slots.InRange.run (hr : s.InRange conf) (ops : List SlotsOp) : (s.run hash conf ops).InRange conf := by
  induction ops generalizing s with
  | nil => exact hr
  | cons op ops ih => exact ih (hr.step op)

end

section
variable (hash : Bytes → Nat) (conf : SlotsMetaInfo)

/-- What an operation passes to `tryResizeDbSlotHashTables`. -/
def Slots.passed (s : Slots) : SlotsOp → List (Nat × Nat)
  | .cron .. => s.swept conf
  | _ => []

def Slots.passedBy (s : Slots) : List SlotsOp → List (Nat × Nat)
  | [] => []
  | op :: ops => s.passed conf op ++ (s.step hash conf op).passedBy ops

end

section
variable {hash : Bytes → Nat} {conf : SlotsMetaInfo} {s : Slots}

/-- The crons of a run pass what one long sweep does. -/
theorem mem_passedBy (hr : s.InRange conf) (ops : List SlotsOp) {p : Nat × Nat} :
    p ∈ s.passedBy hash conf ops ↔
      ∃ m < ops.countP SlotsOp.isCron * dbsPerCall conf, ∃ l < dbSlotsPerCall conf, (s.resize_db + m) % conf.databases = p.1 ∧
        (s.resize_db_slot + m * dbSlotsPerCall conf + l) % conf.hash_slots_size.toNat = p.2 := by
  induction ops generalizing s with
  | nil => simp [Slots.passedBy]
  | cons op ops ih =>
    rw [Slots.passedBy, List.mem_append, ih (hr.step op)]
    cases hop : op.isCron with
    | false =>
      obtain ⟨hdb, hslot⟩ := @step_counters_of_not_cron hash conf s op hop
      have hnone : s.passed conf op = [] := by
        cases op with
        | cron child rounds => exact absurd hop (by simp [SlotsOp.isCron])
        | _ => rfl
      rw [hnone, hdb, hslot, List.countP_cons_of_neg (by simp [hop])]
      simp
    | true =>
      cases op with
      | cron child rounds =>
        obtain ⟨hdb, hslot⟩ := @dbSlotCron_counters hash conf s hr child rounds
        rw [show s.passed conf (.cron child rounds) = s.swept conf from rfl, mem_swept hr,
          show s.step hash conf (.cron child rounds) = dbSlotCron hash conf child rounds s from rfl, hdb, hslot,
          List.countP_cons_of_pos (p := SlotsOp.isCron) rfl]
        -- The first call takes the first `dbsPerCall` rounds, the others the rounds after it.
        constructor
        · intro h
          rcases h with ⟨m, hm, l, hl, h1, h2⟩ | ⟨m, hm, l, hl, h1, h2⟩
          · exact ⟨m, hm.trans_le (Nat.le_mul_of_pos_left _ (Nat.succ_pos _)), l, hl, h1, h2⟩
          · refine ⟨dbsPerCall conf + m, ?_, l, hl, ?_, ?_⟩
            · rw [Nat.succ_mul, Nat.add_comm]
              exact Nat.add_lt_add_right hm _
            · rw [← h1, Nat.mod_add_mod, Nat.add_assoc]
            · rw [← h2, Nat.add_assoc (_ % _), Nat.mod_add_mod, Nat.add_mul]
              simp only [Nat.add_assoc]
        · intro ⟨m, hm, l, hl, h1, h2⟩
          rcases Nat.lt_or_ge m (dbsPerCall conf) with hlt | hge
          · exact .inl ⟨m, hlt, l, hl, h1, h2⟩
          · obtain ⟨k, rfl⟩ := Nat.exists_eq_add_of_le hge
            refine .inr ⟨k, ?_, l, hl, ?_, ?_⟩
            · rw [Nat.succ_mul, Nat.add_comm] at hm
              exact Nat.lt_of_add_lt_add_right hm
            · rw [← h1, Nat.mod_add_mod, Nat.add_assoc]
            · rw [← h2, Nat.add_assoc (_ % _), Nat.mod_add_mod, Nat.add_mul]
              simp only [Nat.add_assoc]
      | _ => exact absurd hop (by simp [SlotsOp.isCron])

/-- **When the resize loops get to every table**: within as many calls as there are tables
each is passed, and nothing out of range, if and only if there are at most
`CRON_DB_SLOTS_PER_CALL` slots or these per call and database step through the slots in
strides no longer than that. -/
theorem resize_covers_iff (hash : Bytes → Nat) (conf : SlotsMetaInfo) {s : Slots} (hr : s.InRange conf)
    (ops : List SlotsOp) (hn : ops.countP SlotsOp.isCron = conf.databases * conf.hash_slots_size.toNat) :
    ((∀ db < conf.databases, ∀ slot < conf.hash_slots_size.toNat, (db, slot) ∈ s.passedBy hash conf ops) ∧
        ∀ p ∈ s.passedBy hash conf ops, p.1 < conf.databases ∧ p.2 < conf.hash_slots_size.toNat) ↔
      conf.hash_slots_size.toNat ≤ CRON_DB_SLOTS_PER_CALL ∨
        (CRON_DB_SLOTS_PER_CALL * conf.databases).gcd conf.hash_slots_size.toNat ≤ CRON_DB_SLOTS_PER_CALL := by
  have hD : 0 < conf.databases := Nat.zero_lt_of_lt hr.db
  have hr' : 0 < dbsPerCall conf := lt_min (by decide) hD
  have hc : 0 < dbSlotsPerCall conf := lt_min (by decide) conf.size_pos
  have hsweep := Counters.sweep_iff hD conf.size_pos hc hr.db hr.slot
    (Nat.le_mul_of_pos_right (conf.databases * conf.hash_slots_size.toNat) hr')
  have hrange (p : Nat × Nat) (hp : p ∈ s.passedBy hash conf ops) :
      p.1 < conf.databases ∧ p.2 < conf.hash_slots_size.toNat := by
    obtain ⟨m, -, l, -, h1, h2⟩ := (mem_passedBy hr ops).mp hp
    exact ⟨h1 ▸ Nat.mod_lt _ hD, h2 ▸ Nat.mod_lt _ conf.size_pos⟩
  have hgcd : (dbSlotsPerCall conf * conf.databases).gcd conf.hash_slots_size.toNat ≤ dbSlotsPerCall conf ↔
      conf.hash_slots_size.toNat ≤ CRON_DB_SLOTS_PER_CALL ∨
        (CRON_DB_SLOTS_PER_CALL * conf.databases).gcd conf.hash_slots_size.toNat ≤ CRON_DB_SLOTS_PER_CALL := by
    rw [dbSlotsPerCall]
    rcases Nat.le_total conf.hash_slots_size.toNat CRON_DB_SLOTS_PER_CALL with hle | hle
    · rw [min_eq_right hle]
      exact iff_of_true (Nat.gcd_le_right _ conf.size_pos) (.inl hle)
    · rw [min_eq_left hle]
      constructor
      · exact .inr
      · intro h
        exact h.elim (fun h => (Nat.gcd_le_right _ conf.size_pos).trans h) id
  rw [and_iff_left hrange, ← hgcd, ← hsweep]
  simp only [mem_passedBy hr, hn]

end

theorem inRange_init {conf : SlotsMetaInfo} (hD : 0 < conf.databases) : slotsInit.InRange conf := ⟨hD, conf.size_pos⟩

theorem resize_covers_iff_default :
    (∀ db < conf16.databases, ∀ slot < conf16.hash_slots_size.toNat,
        (db, slot) ∈ slotsInit.passedBy (fun _ => 0) conf16 (List.replicate (16 * 1024) (.cron false 0))) ∧
      ∀ p ∈ slotsInit.passedBy (fun _ => 0) conf16 (List.replicate (16 * 1024) (.cron false 0)),
        p.1 < conf16.databases ∧ p.2 < conf16.hash_slots_size.toNat :=
  (resize_covers_iff (fun _ => 0) conf16 (inRange_init (by decide)) (List.replicate (16 * 1024) (.cron false 0))
    (List.countP_replicate ..)).mpr (.inl (by decide))

/-- Twice the slots with the databases as they are. -/
def conf2048 : SlotsMetaInfo := ⟨2048, 16, true, by decide⟩

/-- Each call goes once round the slots in its sixteen databases, always with the same half of
the slots for the same database. -/
theorem not_resize_covers : conf2048.Accepted ∧ slotsInit.InRange conf2048 ∧
    (0, 1024) ∉ slotsInit.passedBy (fun _ => 0) conf2048
      (List.replicate (conf2048.databases * conf2048.hash_slots_size.toNat) (.cron false 0)) := by
  refine ⟨(by decide : 2048 ≤ MAX_HASH_SLOTS_SIZE), inRange_init (by decide), fun hmem => ?_⟩
  obtain ⟨m, -, l, hl, hdb, hslot⟩ := (mem_passedBy (inRange_init (by decide)) _).mp hmem
  have hl : l < 1024 := hl.trans_le (min_le_left _ _)
  have hdb : (0 + m) % 16 = 0 := hdb
  have hslot : (0 + m * 1024 + l) % 2048 = 1024 := hslot
  omega

section
variable {hash : Bytes → Nat} {conf : SlotsMetaInfo} {s : Slots}

/-! ### What the resize loops make of a table -/

/-- What `tryResizeDbSlotHashTables` makes of a table. -/
def resizeTable (d : Dict Bytes UInt32) : Dict Bytes UInt32 :=
  if htNeedsResize d then d.resize.getD d else d

/-- The table is sparse, and making it smaller starts a rehashing. -/
def resizes (d : Dict Bytes UInt32) : Bool := htNeedsResize d && d.resize.isSome

section
variable {d : Dict Bytes UInt32}

theorem resizeTable_of_isRehashing (h : d.isRehashing) : resizeTable d = d := by
  rw [resizeTable, Dict.resize, if_pos h]
  exact ite_self d

theorem resizeTable_of_not_resizes (h : resizes d = false) : resizeTable d = d := by
  rw [resizeTable]
  split
  next hneeds =>
    rw [resizes, hneeds, Bool.true_and, Option.isSome_eq_false_iff, Option.isNone_iff_eq_none] at h
    rw [h, Option.getD_none]
  next => rfl

theorem resizeTable_of_resizes (hd : d.Wf hash) (h : resizes d = true) : (resizeTable d).isRehashing := by
  rw [resizes, Bool.and_eq_true, Option.isSome_iff_exists] at h
  obtain ⟨hneeds, d', hd'⟩ := h
  rw [resizeTable, if_pos hneeds, hd', Option.getD_some]
  rw [Dict.resize] at hd'
  split at hd'
  next => cases hd'
  next hidle =>
    -- With more than four slots it has a table, so the new one is the second.
    have htable : d.ht0.table.isEmpty = false := by
      have hslots : 4 < d.slots := by
        rw [htNeedsResize, Bool.and_eq_true, decide_eq_true_eq] at hneeds
        exact hneeds.1
      rw [Dict.slots, hd.idle (Dict.not_isRehashing_iff.mp hidle)] at hslots
      rw [List.isEmpty_eq_false_iff, ← List.length_pos_iff]
      exact Nat.lt_trans (by decide) hslots
    exact Dict.expand_isRehashing hd' htable

theorem resizeTable_iterate (hd : d.Wf hash) (n : Nat) : resizeTable^[n + 1] d = resizeTable d := by
  have hfix : resizeTable (resizeTable d) = resizeTable d := by
    cases h : resizes d with
    | false => rw [resizeTable_of_not_resizes h, resizeTable_of_not_resizes h]
    | true => exact resizeTable_of_isRehashing (resizeTable_of_resizes hd h)
  rw [Function.iterate_succ_apply, Function.iterate_fixed hfix]

theorem isRehashing_resizeTable_iff (hd : d.Wf hash) :
    (resizeTable d).isRehashing = true ↔ d.isRehashing = true ∨ resizes d = true := by
  cases h : resizes d with
  | false =>
    rw [resizeTable_of_not_resizes h]
    simp
  | true => exact iff_of_true (resizeTable_of_resizes hd h) (.inr rfl)

end

theorem Slots.table_setTable (s : Slots) (db slot i j : Nat) (d : Dict Bytes UInt32) :
    (s.setTable db slot d).table i j = if i = db ∧ j = slot then d else s.table i j := by
  rw [Slots.table, Slots.setTable, Slots.setInfo]
  dsimp only
  by_cases hi : i = db
  · subst hi
    rw [Function.update_self, DbSlotInfo.setTable]
    dsimp only
    rw [Function.update_apply]
    simp [Slots.table]
  · rw [Function.update_of_ne hi]
    simp [hi, Slots.table]

theorem table_tryResizeDbSlotHashTables (s : Slots) (db slot i j : Nat) :
    (tryResizeDbSlotHashTables s db slot).table i j =
      if i = db ∧ j = slot then resizeTable (s.table i j) else s.table i j := by
  rw [tryResizeDbSlotHashTables]
  split
  next hneeds =>
    split
    next d hd =>
      rw [Slots.table_setTable]
      refine if_ctx_congr Iff.rfl (fun h => ?_) fun _ => rfl
      rw [h.1, h.2, resizeTable, if_pos hneeds, hd, Option.getD_some]
    next hnone =>
      split
      next h => rw [h.1, h.2, resizeTable, hnone, Option.getD_none, ite_self]
      next => rfl
  next hneeds =>
    split
    next h => rw [h.1, h.2, resizeTable, if_neg hneeds]
    next => rfl

theorem table_resizeSlot (s : Slots) (db slot : Nat) :
    (resizeSlot conf s).table db slot = resizeTable^[[s.resizePair].count (db, slot)] (s.table db slot) := by
  refine (table_tryResizeDbSlotHashTables s s.resize_db s.resize_db_slot db slot).trans ?_
  rw [List.count_singleton, Slots.resizePair]
  by_cases h : db = s.resize_db ∧ slot = s.resize_db_slot
  · rw [if_pos h, h.1, h.2, beq_self_eq_true, if_pos rfl, Function.iterate_one]
  · have hne : ((s.resize_db, s.resize_db_slot) == (db, slot)) = false := by
      rw [beq_eq_false_iff_ne]
      intro heq
      exact h ⟨(congrArg Prod.fst heq).symm, (congrArg Prod.snd heq).symm⟩
    rw [if_neg h, hne, if_neg Bool.false_ne_true, Function.iterate_zero, id_eq]

theorem table_resizeSlot_iterate (s : Slots) (n db slot : Nat) : ((resizeSlot conf)^[n] s).table db slot =
    resizeTable^[((List.range n).map fun i => ((resizeSlot conf)^[i] s).resizePair).count (db, slot)] (s.table db slot) := by
  induction n with
  | zero => rfl
  | succ n ih =>
    rw [Function.iterate_succ_apply', List.range_succ, List.map_append, List.count_append, Nat.add_comm,
      Function.iterate_add_apply, ← ih]
    exact table_resizeSlot ((resizeSlot conf)^[n] s) db slot

/-- The loops try each table they pass. -/
theorem table_sweep (s : Slots) (db slot : Nat) :
    (s.sweep conf).table db slot = resizeTable^[(s.swept conf).count (db, slot)] (s.table db slot) := by
  rw [Slots.sweep, Slots.swept]
  generalize dbsPerCall conf = n
  induction n with
  | zero => rfl
  | succ n ih =>
    rw [Function.iterate_succ_apply', List.range_succ, List.flatMap_append, List.count_append, Nat.add_comm,
      Function.iterate_add_apply, ← ih, List.flatMap_singleton]
    exact table_resizeSlot_iterate ((resizeDb conf (dbSlotsPerCall conf))^[n] s) (dbSlotsPerCall conf) db slot

/-- The tables that are being rehashed when the rehash loops start. -/
theorem isRehashing_sweep_iff (h : s.Wf hash conf) (db slot : Nat) :
    ((s.sweep conf).table db slot).isRehashing = true ↔
      (s.table db slot).isRehashing = true ∨ (db, slot) ∈ s.swept conf ∧ resizes (s.table db slot) = true := by
  have hd : (s.table db slot).Wf hash := (h db).table slot
  rw [table_sweep]
  cases hn : (s.swept conf).count (db, slot) with
  | zero =>
    rw [List.count_eq_zero] at hn
    simp [hn]
  | succ n =>
    have hmem : (db, slot) ∈ s.swept conf := List.count_pos_iff.mp (hn ▸ Nat.succ_pos n)
    rw [resizeTable_iterate hd, isRehashing_resizeTable_iff hd]
    simp [hmem]

/-! ### The rehash loops -/

/-- Either the inner loop rehashes one of the tables it looks at, or none of them needs it and it
goes on to the next databases. -/
theorem rehashSlots_cases (rounds n slot : Nat) (hdb : s.rehash_db < conf.databases) :
    (∃ k < n, (s.table ((s.rehash_db + k) % conf.databases) (slot + k)).isRehashing = true ∧
      ∃ db', rehashSlots hash conf rounds n slot s =
        ({ s.setTable ((s.rehash_db + k) % conf.databases) (slot + k)
            ((s.table ((s.rehash_db + k) % conf.databases) (slot + k)).rehashMilliseconds hash rounds) with
          rehash_db := db' }, true)) ∨
    ((∀ k < n, (s.table ((s.rehash_db + k) % conf.databases) (slot + k)).isRehashing = false) ∧
      rehashSlots hash conf rounds n slot s = ({ s with rehash_db := (s.rehash_db + n) % conf.databases }, false)) := by
  induction n generalizing slot s with
  | zero =>
    right
    refine ⟨fun k hk => absurd hk (Nat.not_lt_zero k), ?_⟩
    rw [Nat.add_zero, Nat.mod_eq_of_lt hdb]
    rfl
  | succ n ih =>
    have hfirst : (s.rehash_db + 0) % conf.databases = s.rehash_db := Nat.mod_eq_of_lt hdb
    rw [rehashSlots, incrementallyDbSlotRehash]
    cases hr : (s.table s.rehash_db slot).isRehashing with
    | true =>
      left
      refine ⟨0, Nat.succ_pos n, ?_, s.rehash_db, ?_⟩
      · rw [hfirst]
        exact hr
      · rw [hfirst]
        rfl
    | false =>
      have hnext (k : Nat) : ((s.rehash_db + 1) % conf.databases + k) % conf.databases =
          (s.rehash_db + (k + 1)) % conf.databases := by
        rw [Nat.mod_add_mod, Nat.add_assoc, Nat.add_comm 1 k]
      have hslot (k : Nat) : slot + 1 + k = slot + (k + 1) := by omega
      rcases ih (slot + 1) (s := { s with rehash_db := (s.rehash_db + 1) % conf.databases })
        (Nat.mod_lt _ (Nat.zero_lt_of_lt hdb)) with ⟨k, hk, hre, db', heq⟩ | ⟨hnone, heq⟩
      · left
        simp only [hnext, hslot] at hre heq
        exact ⟨k + 1, Nat.succ_lt_succ hk, hre, db', heq⟩
      · right
        simp only [hnext, hslot] at hnone heq
        refine ⟨fun k hk => ?_, heq⟩
        cases k with
        | zero =>
          rw [hfirst]
          exact hr
        | succ k => exact hnone k (Nat.lt_of_succ_lt_succ hk)

/-- The same of both loops, which look at the tables one after the other, going on in both
counters. -/
theorem rehashDbs_cases (rounds n : Nat) (hdb : s.rehash_db < conf.databases) :
    (∃ k < n * conf.hash_slots_size.toNat, ∃ db slot, db = (s.rehash_db + k) % conf.databases ∧
      slot = k % conf.hash_slots_size.toNat ∧ (s.table db slot).isRehashing = true ∧
      (rehashDbs hash conf rounds n s).table db slot = (s.table db slot).rehashMilliseconds hash rounds) ∨
    ((∀ k < n * conf.hash_slots_size.toNat,
        (s.table ((s.rehash_db + k) % conf.databases) (k % conf.hash_slots_size.toNat)).isRehashing = false) ∧
      ∀ db slot, (rehashDbs hash conf rounds n s).table db slot = s.table db slot) := by
  induction n generalizing s with
  | zero =>
    right
    rw [Nat.zero_mul]
    exact ⟨fun k hk => absurd hk (Nat.not_lt_zero k), fun _ _ => rfl⟩
  | succ n ih =>
    rw [rehashDbs]
    rcases rehashSlots_cases rounds conf.hash_slots_size.toNat 0 hdb with ⟨k, hk, hre, db', heq⟩ | ⟨hnone, heq⟩
    · left
      rw [Nat.zero_add] at hre heq
      refine ⟨k, hk.trans_le (Nat.le_mul_of_pos_left _ (Nat.succ_pos n)), _, k, rfl, (Nat.mod_eq_of_lt hk).symm, hre, ?_⟩
      rw [heq]
      exact (Slots.table_setTable s _ _ _ _ _).trans (if_pos ⟨rfl, rfl⟩)
    · rw [heq]
      -- The first round over the slots found nothing, and the next ones go on from its last database.
      have hnext (k : Nat) : ((s.rehash_db + conf.hash_slots_size.toNat) % conf.databases + k) % conf.databases =
          (s.rehash_db + (k + conf.hash_slots_size.toNat)) % conf.databases := by
        rw [Nat.mod_add_mod, Nat.add_assoc, Nat.add_comm k]
      rcases ih (s := { s with rehash_db := (s.rehash_db + conf.hash_slots_size.toNat) % conf.databases })
        (Nat.mod_lt _ (Nat.zero_lt_of_lt hdb)) with ⟨k, hk, db, slot, hpdb, hpslot, hre, hwork⟩ | ⟨hrest, hsame⟩
      · left
        refine ⟨k + conf.hash_slots_size.toNat, ?_, db, slot, hpdb.trans (hnext k), ?_, hre, hwork⟩
        · rw [Nat.succ_mul]
          exact Nat.add_lt_add_right hk _
        · rw [hpslot, Nat.add_mod_right]
      · right
        refine ⟨fun k hk => ?_, hsame⟩
        rcases Nat.lt_or_ge k conf.hash_slots_size.toNat with hlt | hge
        · rw [Nat.mod_eq_of_lt hlt]
          have := hnone k hlt
          rwa [Nat.zero_add] at this
        · obtain ⟨j, rfl⟩ := Nat.exists_eq_add_of_le' hge
          rw [Nat.succ_mul] at hk
          have := hrest j (Nat.lt_of_add_lt_add_right hk)
          rw [← hnext, Nat.add_mod_right]
          exact this

/-- A call does some rehashing: it changes a table that is being rehashed. -/
def Slots.Progress (hash : Bytes → Nat) (conf : SlotsMetaInfo) (rounds : Nat) (s : Slots) : Prop :=
  ∃ db < conf.databases, ∃ slot < conf.hash_slots_size.toNat, ((s.sweep conf).table db slot).isRehashing = true ∧
    (dbSlotCron hash conf false rounds s).table db slot ≠ (s.sweep conf).table db slot

/-- The table is being rehashed, or the resize loops of a call start it. -/
def Slots.Due (conf : SlotsMetaInfo) (s : Slots) (db slot : Nat) : Prop :=
  (s.table db slot).isRehashing = true ∨
    (∃ j < dbsPerCall conf, ∃ i < dbSlotsPerCall conf, (s.resize_db + j) % conf.databases = db ∧
      (s.resize_db_slot + j * dbSlotsPerCall conf + i) % conf.hash_slots_size.toNat = slot) ∧
    resizes (s.table db slot) = true

theorem progress_iff {rounds : Nat} (hactive : conf.activerehashing = true) (h : s.Wf hash conf) (hr : s.InRange conf)
    (hdb : s.rehash_db < conf.databases) : s.Progress hash conf rounds ↔
      ∃ db < conf.databases, ∃ slot < conf.hash_slots_size.toNat, s.Due conf db slot ∧
        s.rehash_db + slot ≡ db [MOD conf.databases.gcd conf.hash_slots_size.toNat] := by
  have hD : 0 < conf.databases := Nat.zero_lt_of_lt hdb
  have hrehash : (s.sweep conf).rehash_db = s.rehash_db := (resizeDb_iterate hr _ _).2.2
  have hcron : dbSlotCron hash conf false rounds s = rehashDbs hash conf rounds conf.databases (s.sweep conf) := by
    rw [dbSlotCron_eq, hactive]
    rfl
  have hdue (db slot : Nat) : s.Due conf db slot ↔ ((s.sweep conf).table db slot).isRehashing = true := by
    rw [isRehashing_sweep_iff h, Slots.Due, mem_swept hr]
  have hcases := @rehashDbs_cases hash conf (s.sweep conf) rounds conf.databases (hrehash ▸ hdb)
  rw [hrehash] at hcases
  simp only [Slots.Progress, hcron, hdue]
  constructor
  · intro ⟨db, _, slot, _, _, hne⟩
    rcases hcases with ⟨k, hk, db', slot', hpdb, hpslot, hre, -⟩ | ⟨-, hsame⟩
    · have hdb' : db' < conf.databases := hpdb ▸ Nat.mod_lt _ hD
      have hslot' : slot' < conf.hash_slots_size.toNat := hpslot ▸ Nat.mod_lt _ conf.size_pos
      exact ⟨db', hdb', slot', hslot', hre,
        (Counters.meet_iff hD conf.size_pos hdb hdb' hslot').mp ⟨k, hk, hpdb.symm, hpslot.symm⟩⟩
    · exact absurd (hsame db slot) hne
  · intro ⟨db, hdb', slot, hslot', hre, hmod⟩
    obtain ⟨k, hk, hpdb, hpslot⟩ := (Counters.meet_iff hD conf.size_pos hdb hdb' hslot').mpr hmod
    rcases hcases with ⟨k', -, db', slot', hpdb', hpslot', hre', hwork⟩ | ⟨hnone, -⟩
    · refine ⟨db', hpdb' ▸ Nat.mod_lt _ hD, slot', hpslot' ▸ Nat.mod_lt _ conf.size_pos, hre', ?_⟩
      rw [hwork]
      exact Dict.rehashMilliseconds_ne hre' rounds
    · have := hnone k hk
      rw [hpdb, hpslot, hre] at this
      cases this

/-- **When the cron's rehashing gets on**: if some table is being rehashed, a call does some
rehashing, if and only if then some table being rehashed lies on the diagonal through the
database whose turn it is; the loops move on in both counters at each try. -/
theorem rehash_progress_iff (hash : Bytes → Nat) (conf : SlotsMetaInfo) (rounds : Nat) {s : Slots}
    (hactive : conf.activerehashing = true) (h : s.Wf hash conf) (hr : s.InRange conf)
    (hdb : s.rehash_db < conf.databases) :
    ((∃ db < conf.databases, ∃ slot < conf.hash_slots_size.toNat, (s.table db slot).isRehashing = true) →
        s.Progress hash conf rounds) ↔
      ((∃ db < conf.databases, ∃ slot < conf.hash_slots_size.toNat, (s.table db slot).isRehashing = true) →
        ∃ db < conf.databases, ∃ slot < conf.hash_slots_size.toNat, s.Due conf db slot ∧
          s.rehash_db + slot ≡ db [MOD conf.databases.gcd conf.hash_slots_size.toNat]) := by
  rw [progress_iff hactive h hr hdb]

end

instance (conf : SlotsMetaInfo) (s : Slots) (db slot : Nat) : Decidable (s.Due conf db slot) :=
  inferInstanceAs (Decidable (_ ∨ _ ∧ _))

/-- Two slots in two databases. -/
def conf2 : SlotsMetaInfo := ⟨2, 2, true, by decide⟩

/-- The fifth key of the odd slot makes its table grow. -/
def grown (db : Nat) : Slots :=
  slotsInit.run (fun _ => 0) conf2 ([[97], [98], [99], [104], [105]].map fun key => .add db key 0)

theorem grown_wf (db : Nat) : (grown db).Wf (fun _ => 0) conf2 := Slots.run_wf (fun _ => DbSlotInfo.wf_init) _

theorem grown_inRange (db : Nat) : (grown db).InRange conf2 := (inRange_init (by decide)).run _

theorem rehash_progress_iff_odd : (grown 1).Progress (fun _ => 0) conf2 0 :=
  (rehash_progress_iff (fun _ => 0) conf2 0 rfl (grown_wf 1) (grown_inRange 1) (by decide +kernel)).mpr
    (fun _ => ⟨1, by decide, 1, by decide, by decide +kernel, by decide⟩)
    ⟨1, by decide, 1, by decide, by decide +kernel⟩

/-- From database 0 on, the even slots are looked at in it, and the odd ones in the other. -/
theorem not_rehash_progress : ((grown 0).table 0 1).isRehashing = true ∧ ¬ (grown 0).Progress (fun _ => 0) conf2 0 := by
  refine ⟨by decide +kernel, ?_⟩
  rw [progress_iff rfl (grown_wf 0) (grown_inRange 0) (by decide +kernel)]
  decide +kernel

end RedisXSlot
