import RedisXSlot.SourceProofs

/-! What SLOTSMGRTTAGSLOT says is left in the slot.

The command draws a key and migrates it, and with it all that share its tag. The number
left is set behind a tagged key, to the size of the table put into an `int`, and stays 0
behind an untagged one. So it is the truth for a tagged key as long as the size fits, and
for an untagged one only if that was the last (`left_is_truth_iff`).

A key of the group that expires while the group is dumped is a freed string when UNLINK is
called with it (`Source`), and here still the key. The number is read from the table, not
from that string. -/
namespace RedisXSlot
open Interaction

variable {hash : Bytes → Nat} {conf : SlotsMetaInfo} {mconf : MgrtConf} {db slot : Nat}

/-- The keys that go with `key`: those whose tag has its checksum, or only itself. -/
def InGroup (key k : Bytes) : Prop := if hasTag key then hasTag k = true ∧ slotsCrc k = slotsCrc key else k = key

/-- The keys a table will hold once the group of `key` has moved; a key that is not in the
database cannot be unlinked, and stays. -/
def remaining (s : Source) (db slot : Nat) (key : Bytes) : Set Bytes :=
  {k | k ∈ (s.mod.slots.table db slot).keys ∧ ¬ (InGroup key k ∧ (s.keyspace k).isSome)}

/-! ### Tables as sets -/

section
variable {s : Slots}

/-- A table holds the indexed keys of its slot. -/
theorem Slots.Wf.mem_table (h : s.Wf hash conf) {k : Bytes} :
    k ∈ (s.table db slot).keys ↔ k ∈ s.keys conf db ∧ slotsNum conf.hash_slots_size k = slot := by
  constructor
  · intro hk
    exact ⟨(h db).mem_keys hk, (h db).place slot k hk⟩
  · rintro ⟨hk, rfl⟩
    exact hk

theorem ncard_of_nodup {α : Type} {l : List α} (h : l.Nodup) : {a | a ∈ l}.ncard = l.length := by
  classical
  have hset : {a | a ∈ l} = (l.toFinset : Set α) := by
    ext a
    simp
  rw [hset, Set.ncard_coe_finset, List.toFinset_card_of_nodup h]

theorem Slots.Wf.size_eq_ncard (h : s.Wf hash conf) (db slot : Nat) :
    (s.table db slot).size = {k | k ∈ (s.table db slot).keys}.ncard := by
  have hwf : (s.table db slot).Wf hash := (h db).table slot
  rw [ncard_of_nodup hwf.nodup]
  exact hwf.size_eq_keys

theorem toCInt_eq_iff (n : Nat) : toCInt n = n ↔ n < 2 ^ 31 := by
  have h := bmod_self_iff n (2 ^ 32) (by norm_num)
  have h31 : (2 ^ 32 + 1) / 2 = 2 ^ 31 := by norm_num
  rw [h31] at h
  exact h

end

/-- Of a number that does not fit an `int` too little is left. -/
theorem toCInt_toNat_le {n : Nat} (h : 2 ^ 31 ≤ n) : (toCInt n).toNat + 2 ^ 31 ≤ n := by
  have hbmod : toCInt n = if (n : Int) % 2 ^ 32 < 2 ^ 31 then (n : Int) % 2 ^ 32 else (n : Int) % 2 ^ 32 - 2 ^ 32 :=
    Int.bmod_def ..
  split at hbmod <;> omega

/-! ### The command -/

section
variable {info : SlotsMetaInfo} {argv : List Bytes} {t : Trace} {r left : Int}

/-- A command that replies with two numbers has run on its slot. -/
theorem slotCommand_runs {run : MgrtConf → Nat → Int → Act (Int × Int)}
    (h : Runs (slotCommand info mconf run argv) t (some (.array [r, left]))) :
    ∃ (conf' : MgrtConf) (slot : Nat), conf'.db = mconf.db ∧ slot < info.hash_slots_size.toNat ∧
      Runs (run conf' slot 0) t (some (r, left)) ∧ r ≠ SLOTS_MGRT_ERR := by
  rw [slotCommand] at h
  split at h
  next => cases (Runs.ret_iff.mp h).2
  next =>
    simp only at h
    split at h
    next _ slot _ _ =>
      split at h
      next => cases (Runs.ret_iff.mp h).2
      next =>
        split at h
        next hslot =>
          obtain ⟨⟨r', left'⟩, t₁, t₂, rfl, hrun, h⟩ := Runs.of_bind h
          simp only at h
          split at h
          next => cases (Runs.ret_iff.mp h).2
          next hr =>
            obtain ⟨rfl, ho⟩ := Runs.ret_iff.mp h
            cases ho
            rw [List.append_nil]
            refine ⟨_, _, ?_, ?_, hrun, hr⟩
            · rfl
            · omega
        next => cases (Runs.fault_iff.mp h).2
    next => cases (Runs.ret_iff.mp h).2

end

/-! ### A run -/

variable (hash conf) in
/-- Entries have moved within the index, and nothing else has happened. -/
structure Source.Same (s s' : Source) : Prop where
  quiet : s'.mod.Quiet hash conf
  keyspace : s'.keyspace = s.keyspace
  now : s'.now = s.now
  keys : ∀ i, s'.mod.slots.keys conf i = s.mod.slots.keys conf i

section
variable {s s' : Source} {t : Trace} {r left : Int} {key : Bytes}

theorem Source.Same.mem_table (h : s.Same hash conf s') (hq : s.mod.Quiet hash conf) (k : Bytes) :
    k ∈ (s'.mod.slots.table db slot).keys ↔ k ∈ (s.mod.slots.table db slot).keys := by
  rw [h.quiet.wf.mem_table, hq.wf.mem_table, h.keys]

/-- Drawing a key leaves the keys where they are; it is one of the table, if there is one. -/
theorem Source.randomKey_spec (hq : s.mod.Quiet hash conf) {pick : Option Bytes}
    (h : s.call hash conf db ⟨.randomKey db slot, pick⟩ s') :
    (∀ k, pick = some k → k ∈ (s.mod.slots.table db slot).keys) ∧
      (pick = none → (s.mod.slots.table db slot).keys = []) ∧ s.Same hash conf s' := by
  have hshrink := Shrinks.call hq h
  obtain ⟨draws, d, out, hget, rfl, rfl⟩ := h
  have hwf := (hq.wf db).table slot
  obtain ⟨hm, hmem, hnone⟩ := Dict.getRandomKey_spec hwf draws
  refine ⟨fun k hk => ?_, fun hk => ?_, hshrink.quiet, rfl, rfl, fun i => ?_⟩
  · obtain ⟨e, rfl, rfl⟩ := Option.map_eq_some_iff.mp hk
    exact List.mem_map_of_mem (hmem e (congrArg Prod.snd hget))
  · obtain rfl := Option.map_eq_none_iff.mp hk
    exact congrArg (List.map Prod.fst) (hnone.mp (congrArg Prod.snd hget))
  · rw [show d = (Dict.getRandomKey hash (s.mod.slots.table db slot) draws).1 from (congrArg Prod.fst hget).symm]
    exact (Slots.setTable_moved hq.wf hm).keys i

/-- What a migration removes, seen from before entries have moved. -/
theorem Removes.of_same {m : Source} {keys : List Bytes} (hsame : s.Same hash conf m)
    (h : Removes hash conf db keys m s') : Removes hash conf db keys s s' :=
  ⟨h.quiet, h.now.trans hsame.now, fun k => by rw [h.keyspace, hsame.keyspace],
    fun k => by rw [h.index, hsame.keyspace, hsame.keys], fun i hi => (h.other i hi).trans (hsame.keys i)⟩

/-- The indexed keys of the group of `key`. -/
def groupOf (conf : SlotsMetaInfo) (s : Slots) (db : Nat) (key : Bytes) : Set Bytes :=
  {k | InGroup key k ∧ k ∈ s.keys conf db}

/-- **A run that draws nothing** was on an empty slot. -/
theorem slotsmgrtTagSlotKeys_none {slot : Nat} {left₀ : Int}
    (hrun : Runs (slotsmgrtTagSlotKeys conf mconf slot left₀) (⟨.randomKey mconf.db slot, none⟩ :: t) (some (r, left))) :
    t = [] ∧ r = 0 ∧ left = left₀ := by
  rw [slotsmgrtTagSlotKeys] at hrun
  obtain ⟨a, u, he, hrun⟩ := Runs.of_perform hrun
  cases he
  obtain ⟨rfl, ho⟩ := Runs.ret_iff.mp hrun
  cases ho
  exact ⟨rfl, rfl, rfl⟩

/-- A run that draws an untagged key migrates it. -/
theorem slotsmgrtTagSlotKeys_untagged {left₀ : Int} {o : Option (Int × Int)} (hq : s.mod.Quiet hash conf)
    (htag : hasTag key = false)
    (hrun : Runs (slotsmgrtTagSlotKeys conf mconf slot left₀) (⟨.randomKey mconf.db slot, some key⟩ :: t) o)
    (h : Path (Source.step hash conf mconf.db) s ((⟨.randomKey mconf.db slot, some key⟩ :: t).map .call) s') :
    key ∈ (s.mod.slots.table mconf.db slot).keys ∧ ∃ m, s.Same hash conf m ∧
      Path (Source.step hash conf mconf.db) m (t.map .call) s' ∧
      Runs (migrateKeys mconf [key] >>= fun ret => return (ret, left₀)) t o := by
  rw [slotsmgrtTagSlotKeys] at hrun
  obtain ⟨a, u, he, hrun⟩ := Runs.of_perform hrun
  cases he
  rw [List.map_cons] at h
  obtain ⟨m, hdraw, h⟩ := h
  have hdraw : s.call hash conf mconf.db ⟨.randomKey mconf.db slot, some key⟩ m := hdraw
  obtain ⟨hmem, -, hsame⟩ := Source.randomKey_spec hq hdraw
  simp only [slotsmgrtTagKeys] at hrun
  rw [if_pos (by simp [htag])] at hrun
  exact ⟨hmem key rfl, m, hsame, h, hrun⟩

/-- A run that draws a tagged key collects its group, and migrates as many of these keys as an
`int` can count. -/
theorem slotsmgrtTagSlotKeys_tagged {left₀ : Int} {o : Option (Int × Int)} (hq : s.mod.Quiet hash conf)
    (htag : hasTag key = true)
    (hrun : Runs (slotsmgrtTagSlotKeys conf mconf slot left₀) (⟨.randomKey mconf.db slot, some key⟩ :: t) o)
    (h : Path (Source.step hash conf mconf.db) s ((⟨.randomKey mconf.db slot, some key⟩ :: t).map .call) s') :
    key ∈ (s.mod.slots.table mconf.db slot).keys ∧ ∃ (m : Source) (group : List Bytes) (n : Nat) (u : Trace),
      t = ⟨.slotSize mconf.db slot, n⟩ :: ⟨.taggedKeys mconf.db (slotsCrc key), group⟩ :: u ∧ s.Same hash conf m ∧
      Path (Source.step hash conf mconf.db) m (u.map .call) s' ∧ group.Nodup ∧
      (∀ k, k ∈ group ↔ k ∈ groupOf conf s.mod.slots mconf.db key) ∧
      Runs (slotsmgrtListedKeys mconf slot group left₀) u o := by
  rw [slotsmgrtTagSlotKeys] at hrun
  obtain ⟨a, u, he, hrun⟩ := Runs.of_perform hrun
  cases he
  rw [List.map_cons] at h
  obtain ⟨m, hdraw, h⟩ := h
  have hdraw : s.call hash conf mconf.db ⟨.randomKey mconf.db slot, some key⟩ m := hdraw
  obtain ⟨hmem, -, hsame⟩ := Source.randomKey_spec hq hdraw
  have hkey := hmem key rfl
  obtain ⟨hindex, hslot⟩ := hq.wf.mem_table.mp hkey
  simp only [slotsmgrtTagKeys] at hrun
  rw [if_neg (by simp [htag]), hslot] at hrun
  obtain ⟨n, u, rfl, hsize⟩ := Runs.of_perform hrun
  rw [List.map_cons] at h
  obtain ⟨m₁, ⟨rfl, rfl⟩, h⟩ := h
  have hpos : (m₁.mod.slots.table mconf.db slot).size ≠ 0 := by
    have hwf : (m₁.mod.slots.table mconf.db slot).Wf hash := (hsame.quiet.wf mconf.db).table slot
    rw [hwf.size_eq_keys]
    exact (List.length_pos_of_mem ((hsame.mem_table hq key).mpr hkey)).ne'
  rw [if_neg hpos] at hsize
  obtain ⟨group, u, rfl, hlisted⟩ := Runs.of_perform hsize
  rw [List.map_cons] at h
  obtain ⟨m₂, ⟨rfl, rfl⟩, h⟩ := h
  refine ⟨hkey, m₂, _, _, u, rfl, hsame, h, (hsame.quiet.wf mconf.db).nodup_taggedKeys _, fun k => ?_, hlisted⟩
  rw [(hsame.quiet.wf mconf.db).mem_taggedKeys, groupOf, Set.mem_ofPred_eq, InGroup, if_pos htag, ← hsame.keys mconf.db,
    and_assoc]
  rfl

/-- What the migration of a group makes of the keys of a table. -/
theorem Removes.mem_table {group : List Bytes} (hq : s.mod.Quiet hash conf) (h : Removes hash conf db group s s')
    (hgroup : ∀ k, k ∈ group ↔ k ∈ groupOf conf s.mod.slots db key) (slot : Nat) (k : Bytes) :
    k ∈ (s'.mod.slots.table db slot).keys ↔ k ∈ remaining s db slot key := by
  rw [h.quiet.wf.mem_table, h.index, remaining, Set.mem_ofPred_eq, hq.wf.mem_table, hgroup, groupOf, Set.mem_ofPred_eq]
  tauto

theorem groupOf_untagged (hkey : key ∈ s.mod.slots.keys conf db) (htag : hasTag key = false) (k : Bytes) :
    k ∈ [key] ↔ k ∈ groupOf conf s.mod.slots db key := by
  rw [List.mem_singleton, groupOf, Set.mem_ofPred_eq, InGroup, htag]
  constructor
  · intro hk
    exact ⟨hk, hk ▸ hkey⟩
  · exact fun hk => hk.1

theorem ncard_groupOf {group : List Bytes} (hnodup : group.Nodup) (hgroup : ∀ k, k ∈ group ↔ k ∈ groupOf conf s.mod.slots db key) :
    (groupOf conf s.mod.slots db key).ncard = group.length := by
  rw [← ncard_of_nodup hnodup]
  exact congrArg Set.ncard (Set.ext fun k => (hgroup k).symm)

/-- A list that an `int` can count is migrated as a whole. -/
theorem slotsmgrtListedKeys_counted {group : List Bytes} (hne : group ≠ []) (hlen : group.length < 2 ^ 31) (left₀ : Int) :
    slotsmgrtListedKeys mconf slot group left₀ = (migrateKeys mconf group >>= fun ret =>
      ask (.slotSize mconf.db slot) >>= fun (s : Nat) => return (ret, toCInt s)) := by
  have hpos := List.length_pos_of_ne_nil hne
  simp only [slotsmgrtListedKeys, (toCInt_eq_iff group.length).mpr hlen]
  rw [if_neg (by omega), if_neg (by omega), Int.toNat_natCast, List.take_length]
  rfl

/-- **A run that draws a key** migrates its group, if an `int` can count it. It sets `left` only
behind a tagged key. -/
theorem slotsmgrtTagSlotKeys_some {left₀ : Int} (hq : s.mod.Quiet hash conf)
    (hcount : hasTag key = true → (groupOf conf s.mod.slots mconf.db key).ncard < 2 ^ 31)
    (hrun : Runs (slotsmgrtTagSlotKeys conf mconf slot left₀) (⟨.randomKey mconf.db slot, some key⟩ :: t)
      (some (r, left)))
    (hr : r ≠ SLOTS_MGRT_ERR)
    (h : Path (Source.step hash conf mconf.db) s ((⟨.randomKey mconf.db slot, some key⟩ :: t).map .call) s') :
    (∃ group : List Bytes, (∀ k, k ∈ group ↔ k ∈ groupOf conf s.mod.slots mconf.db key) ∧
      Removes hash conf mconf.db group s s') ∧
      left = if hasTag key then toCInt (s'.mod.slots.table mconf.db slot).size else left₀ := by
  cases htag : hasTag key with
  | false =>
    obtain ⟨hkey, m, hsame, h, hrun⟩ := slotsmgrtTagSlotKeys_untagged hq htag hrun h
    obtain ⟨ret, u₁, u₂, rfl, hmig, hrun⟩ := Runs.of_bind hrun
    obtain ⟨rfl, ho⟩ := Runs.ret_iff.mp hrun
    cases ho
    rw [List.append_nil] at h
    exact ⟨⟨[key], groupOf_untagged (hq.wf.mem_table.mp hkey).1 htag,
      (migrateKeys_removes hsame.quiet hmig hr h).of_same hsame⟩, rfl⟩
  | true =>
    obtain ⟨hkey, m, group, n, u, rfl, hsame, h, hnodup, hgroup, hrun⟩ := slotsmgrtTagSlotKeys_tagged hq htag hrun h
    have hin : key ∈ group := (hgroup key).mpr ⟨by simp [InGroup, htag], (hq.wf.mem_table.mp hkey).1⟩
    rw [slotsmgrtListedKeys_counted (List.ne_nil_of_mem hin) (ncard_groupOf hnodup hgroup ▸ hcount htag)] at hrun
    obtain ⟨ret, u₁, u₂, rfl, hmig, hleft⟩ := Runs.of_bind hrun
    obtain ⟨n', u, rfl, hend⟩ := Runs.of_perform hleft
    obtain ⟨rfl, ho⟩ := Runs.ret_iff.mp hend
    cases ho
    rw [List.map_append] at h
    obtain ⟨m', hpath, m'', ⟨rfl, rfl⟩, rfl⟩ := path_append.mp h
    exact ⟨⟨group, hgroup, (migrateKeys_removes hsame.quiet hmig hr hpath).of_same hsame⟩, (if_pos rfl).symm⟩

/-- Behind a group that an `int` cannot count `left` is never the truth. -/
theorem slotsmgrtTagSlotKeys_uncounted (hq : s.mod.Quiet hash conf) (htag : hasTag key = true)
    (hcount : 2 ^ 31 ≤ (groupOf conf s.mod.slots mconf.db key).ncard)
    (hrun : Runs (slotsmgrtTagSlotKeys conf mconf slot 0) (⟨.randomKey mconf.db slot, some key⟩ :: t) (some (r, left)))
    (hr : r ≠ SLOTS_MGRT_ERR)
    (h : Path (Source.step hash conf mconf.db) s ((⟨.randomKey mconf.db slot, some key⟩ :: t).map .call) s') :
    left ≠ (s'.mod.slots.table mconf.db slot).size := by
  obtain ⟨hkey, m, group, n, u, rfl, hsame, h, hnodup, hgroup, hrun⟩ := slotsmgrtTagSlotKeys_tagged hq htag hrun h
  rw [ncard_groupOf hnodup hgroup] at hcount
  simp only [slotsmgrtListedKeys] at hrun
  split at hrun
  next =>
    obtain ⟨rfl, ho⟩ := Runs.ret_iff.mp hrun
    cases ho
    cases h
    have hwf : (s'.mod.slots.table mconf.db slot).Wf hash := (hsame.quiet.wf mconf.db).table slot
    have hpos := List.length_pos_of_mem ((hsame.mem_table hq key).mpr hkey)
    rw [hwf.size_eq_keys]
    exact_mod_cast hpos.ne
  next hzero =>
    split at hrun
    next => cases (Runs.fault_iff.mp hrun).2
    next hneg =>
      obtain ⟨ret, u₁, u₂, rfl, hmig, hleft⟩ := Runs.of_bind hrun
      obtain ⟨n', u, rfl, hend⟩ := Runs.of_perform hleft
      obtain ⟨rfl, ho⟩ := Runs.ret_iff.mp hend
      cases ho
      rw [List.map_append] at h
      obtain ⟨m', hpath, m'', ⟨rfl, rfl⟩, rfl⟩ := path_append.mp h
      have hremoves := (migrateKeys_removes hsame.quiet hmig hr hpath).of_same hsame
      have hwf : (s'.mod.slots.table mconf.db slot).Wf hash := (hremoves.quiet.wf mconf.db).table slot
      -- What `max` does not count stays in the slot.
      have hsub : group.drop (toCInt group.length).toNat ⊆ (s'.mod.slots.table mconf.db slot).keys := by
        intro k hk
        have hk' := (hgroup k).mp (List.mem_of_mem_drop hk)
        have hslot : slotsNum conf.hash_slots_size k = slot := by
          have hcrc : slotsCrc k = slotsCrc key := by
            have hin : InGroup key k := hk'.1
            rw [InGroup, if_pos htag] at hin
            exact hin.2
          rw [slotsNum, hcrc]
          exact (hq.wf.mem_table.mp hkey).2
        refine hremoves.quiet.wf.mem_table.mpr ⟨(hremoves.index k).mpr ⟨hk'.2, fun hc => ?_⟩, hslot⟩
        exact List.disjoint_take_drop hnodup (Nat.le_refl _) hc.1 hk
      have hsize : 2 ^ 31 ≤ (s'.mod.slots.table mconf.db slot).size := by
        have hlen := (List.subperm_of_subset (hnodup.sublist (List.drop_sublist _ _)) hsub).length_le
        rw [List.length_drop, ← hwf.size_eq_keys] at hlen
        have hmax := toCInt_toNat_le hcount
        omega
      intro heq
      exact absurd ((toCInt_eq_iff _).mp heq) (Nat.not_lt.mpr hsize)

end

/-- **When the number left is the truth**: behind a tagged key, if it fits an `int`, and so does
the number of keys in the group; behind an untagged one, only if nothing is left; and if the
slot was empty. -/
theorem left_is_truth_iff {s s' : Source} (hq : s.mod.Quiet hash conf) {argv : List Bytes} {slot : Nat}
    {pick : Option Bytes} {t : Trace} {r left : Int}
    (hrun : Runs (slotsMGRTTagSlotRedisCommand conf mconf argv) (⟨.randomKey mconf.db slot, pick⟩ :: t)
      (some (.array [r, left])))
    (h : Path (Source.step hash conf mconf.db) s ((⟨.randomKey mconf.db slot, pick⟩ :: t).map .call) s') :
    left = (s'.mod.slots.table mconf.db slot).size ↔
      ∀ key, pick = some key →
        if hasTag key then
          (groupOf conf s.mod.slots mconf.db key).ncard < 2 ^ 31 ∧ (remaining s mconf.db slot key).ncard < 2 ^ 31
        else remaining s mconf.db slot key = ∅ := by
  obtain ⟨conf', slot', hdb, -, hcmd, hr⟩ := slotCommand_runs hrun
  obtain rfl : slot' = slot := by
    rw [slotsmgrtTagSlotKeys] at hcmd
    obtain ⟨a, u, he, -⟩ := Runs.of_perform hcmd
    have hcall : Call.randomKey mconf.db slot = Call.randomKey conf'.db slot' :=
      congrArg Event.call (List.cons.inj he).1
    exact (Call.randomKey.inj hcall).2.symm
  rw [← hdb] at hcmd h ⊢
  cases pick with
  | none =>
    obtain ⟨rfl, -, rfl⟩ := slotsmgrtTagSlotKeys_none hcmd
    obtain ⟨m, hdraw, rfl⟩ := h
    have hdraw : s.call hash conf conf'.db ⟨.randomKey conf'.db slot', none⟩ s' := hdraw
    obtain ⟨-, hempty, hsame⟩ := Source.randomKey_spec hq hdraw
    have hwf : (s'.mod.slots.table conf'.db slot').Wf hash := (hsame.quiet.wf conf'.db).table slot'
    have hnil : (s'.mod.slots.table conf'.db slot').keys = [] := by
      refine List.eq_nil_iff_forall_not_mem.mpr fun k hk => ?_
      rw [hsame.mem_table hq, hempty rfl] at hk
      cases hk
    rw [hwf.size_eq_keys, hnil]
    simp
  | some key =>
    simp only [Option.some.injEq, forall_eq']
    by_cases hcount : hasTag key = true → (groupOf conf s.mod.slots conf'.db key).ncard < 2 ^ 31
    · obtain ⟨⟨group, hgroup, hremoves⟩, hleft⟩ := slotsmgrtTagSlotKeys_some hq hcount hcmd hr h
      have hset : {k | k ∈ (s'.mod.slots.table conf'.db slot').keys} = remaining s conf'.db slot' key :=
        Set.ext fun k => hremoves.mem_table hq hgroup slot' k
      have hsize := hremoves.quiet.wf.size_eq_ncard conf'.db slot'
      rw [hset] at hsize
      have hfin : (remaining s conf'.db slot' key).Finite := hset ▸ List.finite_toSet _
      rw [hleft, hsize]
      split
      next htag => exact (toCInt_eq_iff _).trans (and_iff_right (hcount htag)).symm
      next => rw [eq_comm, Nat.cast_eq_zero, Set.ncard_eq_zero hfin]
    · push Not at hcount
      obtain ⟨htag, hcount⟩ := hcount
      rw [if_pos htag]
      exact iff_of_false (slotsmgrtTagSlotKeys_uncounted hq htag hcount hcmd hr h) fun hc => absurd hc.1 (Nat.not_lt.mpr hcount)

/-! ### Two untagged keys in one slot -/

/-- A source with two keys of slot 579, as two SETs have left it. -/
def sharedSlot : Source where
  keyspace key := if key = [97] ∨ key = [98, 54] then some ⟨[1], none⟩ else none
  now := 0
  mod := ([⟨.string, "set", 0, [97]⟩, ⟨.string, "set", 0, [98, 54]⟩] : List KeyspaceEvent).foldl
    (notify (fun _ => 0) conf16 0) .init

/-- One of the two is drawn and moves. -/
def drawnSolo : Trace := ⟨.randomKey 0 579, some [97]⟩ :: solo (-1) [48]

/-- The command line, to slot 579. -/
def toSlot579 : List Bytes := [[], [104], [49], [51, 48], [53, 55, 57]]

theorem runs_drawnSolo : Runs (slotsMGRTTagSlotRedisCommand conf16 oneConnection toSlot579) drawnSolo
    (some (.array [1, 0])) := by
  have hmig : Runs (migrateKeys oneConnection [[97]]) (solo (-1) [48]) (some 1) :=
    .call _ (.call _ (.call _ (.call _ (.call _ (.call _ (.call _ (.call _ (.ret _))))))))
  have htag : Runs (slotsmgrtTagKeys conf16 oneConnection [97] 0) (solo (-1) [48]) (some (1, 0)) := by
    rw [slotsmgrtTagKeys, if_pos (by decide)]
    exact Runs.bind hmig (.ret _)
  have hrun : Runs (slotsmgrtTagSlotKeys conf16 oneConnection 579 0) drawnSolo (some (1, 0)) := .call _ htag
  have htimeout : string2ll (toSlot579.getD 3 []) = some 30 := by decide
  have hslot : string2ll (toSlot579.getD 4 []) = some 579 := by decide
  rw [slotsMGRTTagSlotRedisCommand, slotCommand, if_neg (by decide), htimeout, hslot]
  exact Runs.bind hrun (.ret _)

theorem draw_sharedSlot : (Dict.getRandomKey (fun _ => 0) (sharedSlot.mod.slots.table 0 579) [0, 1]).2 =
    some (some ([97], slotsCrc [97])) := by
  decide +kernel

/-- The source after the draw. -/
def sharedSlotDrawn : Source :=
  let slots := sharedSlot.mod.slots
  let d := (Dict.getRandomKey (fun _ => 0) (slots.table 0 579) [0, 1]).1
  { sharedSlot with mod := { sharedSlot.mod with slots := slots.setTable 0 579 d } }

theorem path_drawnSolo : Path (Source.step (fun _ => 0) conf16 0) sharedSlot (drawnSolo.map .call)
    (sharedSlotDrawn.unlink (fun _ => 0) conf16 0 [97]) := by
  have htouch : sharedSlotDrawn.touch (fun _ => 0) conf16 0 [97] = sharedSlotDrawn :=
    @Source.touch_of_live _ _ _ _ _ ⟨[1], none⟩ rfl
  refine ⟨sharedSlotDrawn, ⟨[0, 1], _, some ([97], slotsCrc [97]), Prod.ext rfl draw_sharedSlot, rfl, rfl⟩, ?_⟩
  exact ⟨sharedSlotDrawn, ⟨rfl, htouch.symm⟩, sharedSlotDrawn, ⟨⟨-1, rfl, rfl⟩, htouch.symm⟩, _, rfl, _, rfl, _, rfl,
    _, rfl, _, rfl, _, ⟨rfl, rfl⟩, rfl⟩

/-- The key moves, the command says that none is left, and one is. -/
theorem not_left_is_truth :
    Runs (slotsMGRTTagSlotRedisCommand conf16 oneConnection toSlot579) drawnSolo (some (.array [1, 0])) ∧
      Path (Source.step (fun _ => 0) conf16 0) sharedSlot (drawnSolo.map .call)
        (sharedSlotDrawn.unlink (fun _ => 0) conf16 0 [97]) ∧
      ((sharedSlotDrawn.unlink (fun _ => 0) conf16 0 [97]).mod.slots.table 0 579).size = 1 :=
  ⟨runs_drawnSolo, path_drawnSolo, by decide +kernel⟩

theorem quiet_sharedSlot : sharedSlot.mod.Quiet (fun _ => 0) conf16 := by
  have hset (m : ModuleState) (hq : m.Quiet (fun _ => 0) conf16) (key : Bytes) :
      (notify (fun _ => 0) conf16 0 m ⟨.string, "set", 0, key⟩).Quiet (fun _ => 0) conf16 := by
    rw [show NotifyType.string = KeyType.string.notify from rfl, notify_type]
    exact ⟨(keys_slotsAdd hq.wf 0 key 0).1, hq.flag⟩
  exact hset _ (hset _ quiet_init [97]) [98, 54]

theorem left_is_truth_iff_shared :
    (0 : Int) = ((sharedSlotDrawn.unlink (fun _ => 0) conf16 0 [97]).mod.slots.table 0 579).size ↔
      ∀ key, some [97] = some key →
        if hasTag key then
          (groupOf conf16 sharedSlot.mod.slots 0 key).ncard < 2 ^ 31 ∧ (remaining sharedSlot 0 579 key).ncard < 2 ^ 31
        else remaining sharedSlot 0 579 key = ∅ :=
  @left_is_truth_iff (fun _ => 0) conf16 oneConnection sharedSlot _ quiet_sharedSlot toSlot579 579 _ _ 1 0
    runs_drawnSolo path_drawnSolo

end RedisXSlot
