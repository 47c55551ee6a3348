import RedisXSlot.Delete

/-! Slot numbers that come from a client.

The five commands that take slot numbers check them each in its own way: SLOTSSCAN and
SLOTSDEL not at all, SLOTSMGRTSLOT and SLOTSMGRTTAGSLOT only from above, and SLOTSINFO
starts its loop at an `int` that was a `long long`. For each of them we say for which
arguments it stays within the tables and does what a client can expect (`guarded_iff`). -/
namespace RedisXSlot
open Interaction

/-- A command line with slot numbers that are numbers, and arguments that are otherwise in order. -/
inductive SlotsCommand where
  | info (argv : List Bytes) (start count : Int) (hlen : argv.length < 4) (hargs : slotsInfoArgs argv = some (start, count))
  | scan (argv : List Bytes) (slot cursor : Int) (count : Nat) (hlen : argv.length = 3 ∨ argv.length = 5)
      (hslot : string2ll (argv.getD 1 []) = some slot) (hcursor : string2ll (argv.getD 2 []) = some cursor)
      (hcount : scanCount argv = some count)
  | del (argv : List Bytes) (slots : List Int) (hlen : 2 ≤ argv.length) (hslots : argv.tail.mapM string2ll = some slots)
  | mgrtSlot (argv : List Bytes) (timeout slot : Int) (hlen : argv.length = 5 ∨ argv.length = 6)
      (htimeout : string2ll (argv.getD 3 []) = some timeout) (hslot : string2ll (argv.getD 4 []) = some slot)
  | mgrtTagSlot (argv : List Bytes) (timeout slot : Int) (hlen : argv.length = 5 ∨ argv.length = 6)
      (htimeout : string2ll (argv.getD 3 []) = some timeout) (hslot : string2ll (argv.getD 4 []) = some slot)

/-- The slot of a call to the index. -/
def Call.slot : Call → Option Nat
  | .randomKey _ slot | .slotSize _ slot => some slot
  | _ => none

/-- The target and the type that a migration command names. -/
def MgrtConf.named (mconf : MgrtConf) (argv : List Bytes) : MgrtConf :=
  { mconf with
    host := cString (argv.getD 1 [])
    port := cString (argv.getD 2 [])
    mgrtType := argv[5]?.map cString }

/-- The reply of a migration command. -/
def mgrtReply (p : Int × Int) : Act ClientReply :=
  if p.1 = SLOTS_MGRT_ERR then return .error REDISXSLOT_ERRORMSG_MGRT else return .array [p.1, p.2]

/-- A slot command runs on the slot it is given, within the tables, or refuses it. -/
def MgrtGuarded (conf : SlotsMetaInfo) (run : MgrtConf → Nat → Int → Act (Int × Int)) (mconf : MgrtConf)
    (argv : List Bytes) (slot : Int) : Prop :=
  if 0 ≤ slot ∧ slot < conf.hash_slots_size.toNat then
    slotCommand conf mconf run argv = run (mconf.named argv) slot.toNat 0 >>= mgrtReply ∧
      ∀ t o, Runs (slotCommand conf mconf run argv) t o → ∀ e ∈ t, ∀ i, e.call.slot = some i → i < conf.hash_slots_size.toNat
  else ∃ msg, slotCommand conf mconf run argv = .ret (.error msg)

/-- No access outside the tables; and a slot that there is not is refused, another one worked on. -/
def SlotsCommand.Guarded (conf : SlotsMetaInfo) (db : Fin conf.databases) : SlotsCommand → Prop
  | .info argv _ _ _ _ => ∀ s, slotsInfoRedisCommand conf s db argv ≠ none
  | .scan argv slot cursor count _ _ _ _ => ∀ s,
    if 0 ≤ slot ∧ slot < conf.hash_slots_size.toNat then
      slotsScanRedisCommand conf s db argv =
        some (.page (ll2string (List.replicate REDIS_LONGSTR_SIZE 0)
            (slotsmgrtScan (s.table db slot.toNat) count (BitVec.ofInt 64 cursor)).1.toInt)
          (slotsmgrtScan (s.table db slot.toNat) count (BitVec.ofInt 64 cursor)).2)
    else ∃ msg, slotsScanRedisCommand conf s db argv = some (.error msg)
  | .del argv _ _ _ => ∀ (hash : Bytes → Nat) (outcome : Nat → Option Reply) (s : Server conf.databases),
    s.mod.Quiet hash conf → s.InSync → s.mod.slots.Fits db → ∀ rounds, 2 ^ 64 ≤ rounds →
      slotsDelRedisCommand hash conf outcome db rounds argv s ≠ none
  | .mgrtSlot argv _ slot _ _ _ => ∀ mconf, MgrtGuarded conf slotsmgrtSlotOneKey mconf argv slot
  | .mgrtTagSlot argv _ slot _ _ _ => ∀ mconf, MgrtGuarded conf (slotsmgrtTagSlotKeys conf) mconf argv slot

/-- The arguments that the commands can deal with. -/
def SlotsCommand.InRange (conf : SlotsMetaInfo) : SlotsCommand → Prop
  | .info _ start count _ _ => (-2 ^ 63 ≤ start + count ∧ start + count < 2 ^ 63) ∧
    (0 ≤ longToInt start ∨ start + count ≤ longToInt start)
  | .scan _ slot _ _ _ _ _ _ => 0 ≤ slot ∧ slot < conf.hash_slots_size.toNat
  | .del _ slots _ _ => ∀ slot ∈ slots, 0 ≤ longToInt slot ∧ longToInt slot < conf.hash_slots_size.toNat
  | .mgrtSlot _ _ slot _ _ _ | .mgrtTagSlot _ _ slot _ _ _ => 0 ≤ slot

section
variable {conf : SlotsMetaInfo} {argv : List Bytes}

theorem longToInt_hash_slots_size (hconf : conf.Accepted) :
    longToInt conf.hash_slots_size.toNat = conf.hash_slots_size.toNat := by
  have hmax : conf.hash_slots_size.toNat ≤ 65536 := hconf
  exact (longToInt_eq_iff (by omega)).mpr (by omega)

theorem longToInt_of_slot (hconf : conf.Accepted) {slot : Int} (h : 0 ≤ slot) (h' : slot < conf.hash_slots_size.toNat) :
    longToInt slot = slot := by
  have hmax : conf.hash_slots_size.toNat ≤ 65536 := hconf
  exact (longToInt_eq_iff h).mpr (by omega)

/-! ### SLOTSINFO and SLOTSSCAN -/

theorem info_ne_none_iff (hconf : conf.Accepted) {start count : Int} (hlen : argv.length < 4)
    (hargs : slotsInfoArgs argv = some (start, count)) (s : Slots) (db : Nat) :
    slotsInfoRedisCommand conf s db argv ≠ none ↔ (-2 ^ 63 ≤ start + count ∧ start + count < 2 ^ 63) ∧
      (0 ≤ longToInt start ∨ start + count ≤ longToInt start) := by
  rw [slotsInfoRedisCommand, if_neg (by omega), hargs]
  simp only [longToInt_hash_slots_size hconf]
  split
  next hsum =>
    rw [and_iff_right hsum, Ne, Option.map_eq_none_iff]
    by_cases hi : 0 ≤ longToInt start
    · obtain ⟨l, hloop, -⟩ := infoLoop_spec s db (start + count) conf.hash_slots_size.toNat hi (le_refl _)
      rw [hloop]
      exact iff_of_true (Option.some_ne_none l) (.inl hi)
    · by_cases hstop : start + count ≤ longToInt start
      · refine iff_of_true ?_ (.inr hstop)
        cases (conf.hash_slots_size.toNat - longToInt start).toNat with
        | zero => exact Option.some_ne_none _
        | succ rounds =>
          rw [infoLoop, if_neg (by omega)]
          exact Option.some_ne_none _
      · rw [infoLoop_neg (by omega) (by omega) (by omega)]
        exact iff_of_false (fun h => h rfl) (by omega)
  next hsum => exact iff_of_false (fun h => h rfl) fun h => hsum h.1

theorem scan_guarded_iff (hconf : conf.Accepted) {slot cursor : Int} {count : Nat}
    (hlen : argv.length = 3 ∨ argv.length = 5) (hslot : string2ll (argv.getD 1 []) = some slot)
    (hcursor : string2ll (argv.getD 2 []) = some cursor) (hcount : scanCount argv = some count) (db : Fin conf.databases) :
    (SlotsCommand.scan argv slot cursor count hlen hslot hcursor hcount).Guarded conf db ↔
      0 ≤ slot ∧ slot < conf.hash_slots_size.toNat := by
  have hcmd (s : Slots) : slotsScanRedisCommand conf s db argv =
      if 0 ≤ longToInt slot ∧ longToInt slot < conf.hash_slots_size.toNat then
        some (.page (ll2string (List.replicate REDIS_LONGSTR_SIZE 0)
            (slotsmgrtScan (s.table db (longToInt slot).toNat) count (BitVec.ofInt 64 cursor)).1.toInt)
          (slotsmgrtScan (s.table db (longToInt slot).toNat) count (BitVec.ofInt 64 cursor)).2)
      else none := by
    rw [slotsScanRedisCommand, if_neg (by omega), hslot, hcursor, hcount]
  constructor
  · intro h
    by_contra hout
    obtain ⟨msg, hmsg⟩ : ∃ msg, slotsScanRedisCommand conf slotsInit db argv = some (.error msg) := by
      have h' := h slotsInit
      rwa [if_neg hout] at h'
    rw [hcmd] at hmsg
    split at hmsg <;> cases hmsg
  · intro hin s
    rw [if_pos hin, hcmd, longToInt_of_slot hconf hin.1 hin.2, if_pos hin]

/-! ### SLOTSDEL -/

/-- On an empty server a slot that there is not is met in any case. -/
theorem deleteSlots_init {hash : Bytes → Nat} {outcome : Nat → Option Reply} {db : Fin conf.databases} {rounds : Nat}
    {args : List Int}
    (h : deleteSlots hash conf outcome db rounds args ⟨Server.init conf.databases, 0⟩ ≠ none) :
    ∀ slot ∈ args, 0 ≤ slot ∧ slot < conf.hash_slots_size.toNat := by
  induction args with
  | nil => exact fun _ h => (List.not_mem_nil h).elim
  | cons arg args ih =>
    rw [deleteSlots] at h
    split at h
    next hin =>
      have hzero : toCInt ((Server.init conf.databases).mod.slots.table db arg.toNat).size = 0 :=
        (toCInt_eq_zero_iff _).mpr (dvd_zero _)
      rw [if_pos hzero] at h
      exact List.forall_mem_cons.mpr ⟨hin, ih h⟩
    next => exact absurd rfl h

theorem del_guarded_iff {slots : List Int} (hlen : 2 ≤ argv.length) (hslots : argv.tail.mapM string2ll = some slots)
    (db : Fin conf.databases) : (SlotsCommand.del argv slots hlen hslots).Guarded conf db ↔
      ∀ slot ∈ slots, 0 ≤ longToInt slot ∧ longToInt slot < conf.hash_slots_size.toNat := by
  have hcmd (hash : Bytes → Nat) (outcome : Nat → Option Reply) (rounds : Nat) (s : Server conf.databases) :
      slotsDelRedisCommand hash conf outcome db rounds argv s ≠ none ↔
        deleteSlots hash conf outcome db rounds (slots.map longToInt) ⟨s, 0⟩ ≠ none := by
    rw [slotsDelRedisCommand, if_neg (by omega), hslots]
    simp only [slotsmgrtDelSlotKeys, Ne, Option.map_eq_none_iff]
  have hmap : (∀ slot ∈ slots.map longToInt, 0 ≤ slot ∧ slot < (conf.hash_slots_size.toNat : Int)) ↔
      ∀ slot ∈ slots, 0 ≤ longToInt slot ∧ longToInt slot < conf.hash_slots_size.toNat := List.forall_mem_map
  rw [← hmap]
  constructor
  · intro h
    have hfit : (Server.init conf.databases).mod.slots.Fits db := fun _ => ⟨by show 0 < 2 ^ 64; norm_num, by show 0 < 2 ^ 64; norm_num⟩
    have hinit := h (fun _ => 0) (fun _ => none) (Server.init conf.databases) quiet_init inSync_init hfit (2 ^ 64) (le_refl _)
    exact deleteSlots_init ((hcmd _ _ _ _).mp hinit)
  · intro hin hash outcome s hq hs hfit rounds hrounds
    obtain ⟨ok, w', hrun, -⟩ := @deleteSlots_spec hash conf outcome db ⟨s, 0⟩ hq hs hfit rounds hrounds _ hin
    rw [hcmd, hrun]
    exact Option.some_ne_none _

/-! ### SLOTSMGRTSLOT and SLOTSMGRTTAGSLOT -/

/-- Every access of the trace to the tables is to one of these slots. -/
def SlotsOnly (slots : Set Nat) (t : Trace) : Prop := ∀ e ∈ t, ∀ i, e.call.slot = some i → i ∈ slots

section
variable {mconf : MgrtConf} {slots : Set Nat} {t : Trace}

theorem SlotsOnly.nil : SlotsOnly slots [] := fun _ h => (List.not_mem_nil h).elim

theorem SlotsOnly.append {t' : Trace} (h : SlotsOnly slots t) (h' : SlotsOnly slots t') : SlotsOnly slots (t ++ t') := by
  intro e he
  rcases List.mem_append.mp he with he | he
  · exact h e he
  · exact h' e he

theorem SlotsOnly.of_none (h : ∀ e ∈ t, e.call.slot = none) : SlotsOnly slots t := by
  intro e he i hi
  rw [h e he] at hi
  cases hi

/-- A call and what comes behind it. -/
theorem SlotsOnly.cons {e : Event} (he : ∀ i, e.call.slot = some i → i ∈ slots) (h : SlotsOnly slots t) :
    SlotsOnly slots (e :: t) := List.forall_mem_cons.mpr ⟨he, h⟩

/-- Migrating keys does not look at the tables. -/
theorem migrateKeys_slotsOnly {keys : List Bytes} {o : Option Int} (h : Runs (migrateKeys mconf keys) t o) :
    SlotsOnly slots t := by
  have hdumps {t : Trace} (ht : OnlyDumps t) : SlotsOnly slots t := .of_none fun e he => by
    obtain ⟨key, hc | hc⟩ := ht e he
    · rw [hc]
      rfl
    · rw [hc]
      rfl
  have hnet {t : Trace} (ht : ∀ e ∈ t, e.call.isNet = true) : SlotsOnly slots t := .of_none fun e he => by
    have hcall := ht e he
    cases hc : e.call with
    | randomKey | slotSize =>
      rw [hc] at hcall
      cases hcall
    | _ => rfl
  cases migrateKeys_runs h with
  | nothing hd => exact hdumps hd.onlyDumps
  | dumpError ht => exact hdumps ht
  | fault hd => exact hdumps hd.onlyDumps
  | overran hd _ _ hover => exact (hdumps hd.onlyDumps).append (hnet hover.net)
  | failed hd _ _ hsends => exact (hdumps hd.onlyDumps).append (hnet hsends.exchange.net)
  | sent hd _ _ hsends hdel =>
    obtain ⟨r, rfl, n, hcalls, -⟩ := delLoop_spec keys 0 hdel
    refine ((hdumps hd.onlyDumps).append (hnet hsends.exchange.net)).append (.of_none fun e he => ?_)
    obtain ⟨key, hc⟩ := exists_unlink hcalls e he
    rw [hc]
    rfl

theorem slotsmgrtSlotOneKey_slotsOnly {slot : Nat} {left : Int} {o : Option (Int × Int)} (hslot : slot ∈ slots)
    (h : Runs (slotsmgrtSlotOneKey mconf slot left) t o) : SlotsOnly slots t := by
  rw [slotsmgrtSlotOneKey] at h
  obtain ⟨pick, t, rfl, hpick⟩ := Runs.of_perform h
  refine .cons (fun i hi => Option.some_inj.mp hi ▸ hslot) ?_
  cases pick with
  | none =>
    obtain ⟨rfl, -⟩ := Runs.ret_iff.mp hpick
    exact .nil
  | some key =>
    rcases Runs.bind_cases hpick with ⟨ret, t₁, t₂, rfl, hmig, hret⟩ | ⟨-, hmig⟩
    · refine (migrateKeys_slotsOnly hmig).append ?_
      split at hret
      next =>
        obtain ⟨rfl, -⟩ := Runs.ret_iff.mp hret
        exact .nil
      next =>
        obtain ⟨n, t, rfl, hsize⟩ := Runs.of_perform hret
        obtain ⟨rfl, -⟩ := Runs.ret_iff.mp hsize
        exact .cons (fun i hi => Option.some_inj.mp hi ▸ hslot) .nil
    · exact migrateKeys_slotsOnly hmig

theorem slotsmgrtListedKeys_slotsOnly {slot : Nat} {keys : List Bytes} {left : Int} {o : Option (Int × Int)} (hslot : slot ∈ slots)
    (h : Runs (slotsmgrtListedKeys mconf slot keys left) t o) : SlotsOnly slots t := by
  rw [slotsmgrtListedKeys] at h
  split at h
  next =>
    obtain ⟨rfl, -⟩ := Runs.ret_iff.mp h
    exact .nil
  next =>
    split at h
    next =>
      obtain ⟨rfl, -⟩ := Runs.fault_iff.mp h
      exact .nil
    next =>
      rcases Runs.bind_cases h with ⟨ret, t₁, t₂, rfl, hmig, hret⟩ | ⟨-, hmig⟩
      · obtain ⟨n, t, rfl, hsize⟩ := Runs.of_perform hret
        obtain ⟨rfl, -⟩ := Runs.ret_iff.mp hsize
        exact (migrateKeys_slotsOnly hmig).append (.cons (fun i hi => Option.some_inj.mp hi ▸ hslot) .nil)
      · exact migrateKeys_slotsOnly hmig

theorem slotsmgrtTagSlotKeys_slotsOnly {conf : SlotsMetaInfo} {slot : Nat} {left : Int} {o : Option (Int × Int)}
    (hslot : slot ∈ slots) (hkeys : ∀ key, slotsNum conf.hash_slots_size key ∈ slots)
    (h : Runs (slotsmgrtTagSlotKeys conf mconf slot left) t o) : SlotsOnly slots t := by
  rw [slotsmgrtTagSlotKeys] at h
  obtain ⟨pick, t, rfl, hpick⟩ := Runs.of_perform h
  refine .cons (fun i hi => Option.some_inj.mp hi ▸ hslot) ?_
  cases pick with
  | none =>
    obtain ⟨rfl, -⟩ := Runs.ret_iff.mp hpick
    exact .nil
  | some key =>
    simp only [slotsmgrtTagKeys] at hpick
    split at hpick
    next =>
      rcases Runs.bind_cases hpick with ⟨ret, t₁, t₂, rfl, hmig, hret⟩ | ⟨-, hmig⟩
      · obtain ⟨rfl, -⟩ := Runs.ret_iff.mp hret
        exact (migrateKeys_slotsOnly hmig).append .nil
      · exact migrateKeys_slotsOnly hmig
    next =>
      obtain ⟨n, t, rfl, hsize⟩ := Runs.of_perform hpick
      refine .cons (fun i hi => Option.some_inj.mp hi ▸ hkeys key) ?_
      split at hsize
      next =>
        obtain ⟨rfl, -⟩ := Runs.ret_iff.mp hsize
        exact .nil
      next =>
        obtain ⟨group, t, rfl, hlisted⟩ := Runs.of_perform hsize
        exact .cons (fun i hi => by cases hi) (slotsmgrtListedKeys_slotsOnly (hkeys key) hlisted)

end

/-- **The check of the two commands**: a slot that there is not is refused from above only. -/
theorem slotCommand_eq (mconf : MgrtConf) (run : MgrtConf → Nat → Int → Act (Int × Int)) {timeout slot : Int}
    (hlen : argv.length = 5 ∨ argv.length = 6) (htimeout : string2ll (argv.getD 3 []) = some timeout)
    (hslot : string2ll (argv.getD 4 []) = some slot) :
    slotCommand conf mconf run argv =
      if slot ≥ conf.hash_slots_size.toNat then .ret (.error REDISXSLOT_ERRORMSG_SYNTAX)
      else if 0 ≤ longToInt slot ∧ longToInt slot < conf.hash_slots_size.toNat then
        run (mconf.named argv) (longToInt slot).toNat 0 >>= mgrtReply
      else .fault := by
  rw [slotCommand, if_neg (by omega), htimeout, hslot]
  rfl

/-- A command that runs on the slots it is given refuses the others if they are not below 0. -/
theorem mgrtGuarded_iff (hconf : conf.Accepted) {run : MgrtConf → Nat → Int → Act (Int × Int)}
    (hcalls : ∀ mconf slot left, ∃ c k, run mconf slot left = .call c k)
    (honly : ∀ mconf slot left t o, slot < conf.hash_slots_size.toNat → Runs (run mconf slot left) t o →
      SlotsOnly (Set.Iio conf.hash_slots_size.toNat) t)
    {timeout slot : Int} (hlen : argv.length = 5 ∨ argv.length = 6) (htimeout : string2ll (argv.getD 3 []) = some timeout)
    (hslot : string2ll (argv.getD 4 []) = some slot) :
    (∀ mconf, MgrtGuarded conf run mconf argv slot) ↔ 0 ≤ slot := by
  have hmax : conf.hash_slots_size.toNat ≤ 65536 := hconf
  constructor
  · intro h
    by_contra hneg
    obtain ⟨msg, hmsg⟩ : ∃ msg, slotCommand conf oneConnection run argv = .ret (.error msg) := by
      have h' := h oneConnection
      rwa [MgrtGuarded, if_neg (by omega)] at h'
    rw [slotCommand_eq oneConnection run hlen htimeout hslot, if_neg (by omega)] at hmsg
    split at hmsg
    next =>
      obtain ⟨c, k, hc⟩ := hcalls (oneConnection.named argv) (longToInt slot).toNat 0
      rw [hc] at hmsg
      cases hmsg
    next => cases hmsg
  · intro hpos mconf
    rw [MgrtGuarded, slotCommand_eq mconf run hlen htimeout hslot]
    split
    next hin =>
      rw [if_neg (by omega), longToInt_of_slot hconf hin.1 hin.2, if_pos hin]
      refine ⟨rfl, fun t o hrun => ?_⟩
      have hlt : slot.toNat < conf.hash_slots_size.toNat := by omega
      rcases Runs.bind_cases hrun with ⟨p, t₁, t₂, rfl, hrun, h⟩ | ⟨-, hrun⟩
      · have hreply : t₂ = [] := by
          rw [mgrtReply] at h
          split at h
          next => exact (Runs.ret_iff.mp h).1
          next => exact (Runs.ret_iff.mp h).1
        rw [hreply, List.append_nil]
        exact honly _ _ _ _ _ hlt hrun
      · exact honly _ _ _ _ _ hlt hrun
    next hout =>
      rw [if_pos (by omega)]
      exact ⟨_, rfl⟩

end

/-- **When no client input indexes outside the tables**, and a slot that there is not is refused: for
SLOTSSCAN if the slot is one, for SLOTSDEL if the slots are as `int`s, for SLOTSMGRTSLOT and
SLOTSMGRTTAGSLOT if the slot is not negative, and for SLOTSINFO if the sum of the arguments is a
`long long` and the loop does not start below the first slot. -/
theorem guarded_iff {conf : SlotsMetaInfo} (hconf : conf.Accepted) (db : Fin conf.databases) (c : SlotsCommand) :
    c.Guarded conf db ↔ c.InRange conf := by
  cases c with
  | info argv start count hlen hargs =>
    constructor
    · exact fun h => (info_ne_none_iff hconf hlen hargs slotsInit db).mp (h slotsInit)
    · exact fun h s => (info_ne_none_iff hconf hlen hargs s db).mpr h
  | scan argv slot cursor count hlen hslot hcursor hcount => exact scan_guarded_iff hconf hlen hslot hcursor hcount db
  | del argv slots hlen hslots => exact del_guarded_iff hlen hslots db
  | mgrtSlot argv timeout slot hlen htimeout hslot =>
    refine mgrtGuarded_iff hconf (fun mconf slot left => ⟨_, _, rfl⟩) (fun mconf slot left t o hlt hrun => ?_) hlen htimeout hslot
    exact slotsmgrtSlotOneKey_slotsOnly hlt hrun
  | mgrtTagSlot argv timeout slot hlen htimeout hslot =>
    refine mgrtGuarded_iff hconf (fun mconf slot left => ⟨_, _, rfl⟩) (fun mconf slot left t o hlt hrun => ?_) hlen htimeout hslot
    exact slotsmgrtTagSlotKeys_slotsOnly hlt (fun key => slotsNum_lt conf.size_pos key) hrun

/-- `SLOTSSCAN 0 0`. -/
def scanFirst : SlotsCommand :=
  .scan [[], [48], [48]] 0 0 10 (.inl rfl) (by decide) (by decide) (by decide)

theorem guarded_iff_scanFirst : scanFirst.Guarded conf16 ⟨0, by decide⟩ ↔ scanFirst.InRange conf16 :=
  guarded_iff accepted_conf16 ⟨0, by decide⟩ scanFirst

/-- `SLOTSSCAN 1024 0` with 1024 slots. -/
def scanBehind : SlotsCommand :=
  .scan [[], [49, 48, 50, 52], [48]] 1024 0 10 (.inl rfl) (by decide) (by decide) (by decide)

/-- A slot behind the last one is looked up. -/
theorem not_guarded : ¬ scanBehind.Guarded conf16 ⟨0, by decide⟩ := by
  intro h
  have hin := (scan_guarded_iff accepted_conf16 (.inl rfl) (by decide) (by decide) (by decide) _).mp h
  exact absurd hin.2 (by decide)

end RedisXSlot
