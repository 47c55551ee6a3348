import RedisXSlot.Scan
import RedisXSlot.Group

/-! SLOTSINFO: which slots hold how many keys.

The range of the command is of `long long`s. The loop that goes through it counts in an
`int`, set to the start of the range, up to the sum of start and count; the number of keys
of a slot goes through an `int` as well. So the reply is right as long as all of that fits
(`info_exact_iff`). -/
namespace RedisXSlot

/-! ### The command -/

/-- The reply of SLOTSINFO: pairs of a slot and its number of keys. -/
inductive InfoReply where
  | wrongArity
  | error (msg : String)
  | slots (l : List (Int × Int))
  deriving DecidableEq

/-- Start and count; `none` is a syntax error. -/
def slotsInfoArgs (argv : List Bytes) : Option (Int × Int) := do
  let start ← if argv.length ≥ 2 then string2ll (argv.getD 1 []) else some 0
  let count ← if argv.length ≥ 3 then string2ll (argv.getD 2 []) else some 0
  return (start, count)

/-- The loop of the command from `i` on, the slots being those below `size`; `none` is an access
below the first table. It goes round no more often than there are numbers from `i` to `size`. -/
def infoLoop (s : Slots) (db : Nat) (stop size : Int) : Nat → Int → Option (List (Int × Int))
  | 0, _ => some []
  | rounds + 1, i =>
    if i < stop ∧ i < size then
      if i < 0 then none
      else
        let n := toCInt (s.table db i.toNat).size
        if n = 0 then infoLoop s db stop size rounds (i + 1)
        else (infoLoop s db stop size rounds (i + 1)).map ((i, n) :: ·)
    else some []

/-- `SlotsInfo_RedisCommand`, `slotsinfo [start] [count]`, in database `db`. Undefined behaviour is
`none`: a sum that is no `long long`, or an access below the first table. -/
def slotsInfoRedisCommand (conf : SlotsMetaInfo) (s : Slots) (db : Nat) (argv : List Bytes) : Option InfoReply :=
  if argv.length ≥ 4 then some .wrongArity
  else
    match slotsInfoArgs argv with
    | none => some (.error REDISXSLOT_ERRORMSG_SYNTAX)
    | some (start, count) =>
      let stop := start + count
      if -2 ^ 63 ≤ stop ∧ stop < 2 ^ 63 then
        let i := longToInt start
        let size := longToInt conf.hash_slots_size.toNat
        (infoLoop s db stop size (size - i).toNat i).map .slots
      else none

/-! ### Narrowing -/

/-- What an `int` makes of a number. -/
theorem longToInt_eq (n : Int) : longToInt n =
    if n % 4294967296 < 2147483648 then n % 4294967296 else n % 4294967296 - 4294967296 := Int.bmod_def ..

theorem toCInt_eq_longToInt (n : Nat) : toCInt n = longToInt n := rfl

theorem longToInt_eq_iff {n : Int} (hn : 0 ≤ n) : longToInt n = n ↔ n < 2 ^ 31 := by
  rw [longToInt_eq]
  split <;> omega

/-- An `int` takes a number for 0 if it is a multiple of `2 ^ 32`. -/
theorem toCInt_eq_zero_iff (n : Nat) : toCInt n = 0 ↔ 2 ^ 32 ∣ n := by
  rw [toCInt_eq_longToInt, longToInt_eq]
  split <;> omega

/-! ### The loop -/

section
variable {s : Slots} {db : Nat} {stop size : Int}

/-- **The loop from a slot on** lists what an `int` counts in the slots up to the end. -/
theorem infoLoop_spec (s : Slots) (db : Nat) (stop size : Int) {rounds : Nat} {i : Int} (hi : 0 ≤ i)
    (hrounds : (size - i).toNat ≤ rounds) :
    ∃ l, infoLoop s db stop size rounds i = some l ∧ l.Pairwise (fun p q => p.1 < q.1) ∧
      ∀ p : Int × Int, p ∈ l ↔ i ≤ p.1 ∧ p.1 < stop ∧ p.1 < size ∧ p.2 = toCInt (s.table db p.1.toNat).size ∧ p.2 ≠ 0 := by
  induction rounds generalizing i with
  | zero =>
    refine ⟨[], rfl, .nil, fun p => iff_of_false List.not_mem_nil fun h => ?_⟩
    omega
  | succ rounds ih =>
    rw [infoLoop]
    by_cases hin : i < stop ∧ i < size
    · rw [if_pos hin, if_neg (Int.not_lt.mpr hi)]
      obtain ⟨l, hl, hsorted, hmem⟩ := ih (i := i + 1) (by omega) (by omega)
      simp only [hl, Option.map_some]
      -- What is behind `i` comes from the rest of the loop.
      have hsplit (p : Int × Int) : (i ≤ p.1 ∧ p.1 < stop ∧ p.1 < size ∧
          p.2 = toCInt (s.table db p.1.toNat).size ∧ p.2 ≠ 0) ↔
          (p = (i, toCInt (s.table db i.toNat).size) ∧ toCInt (s.table db i.toNat).size ≠ 0) ∨ p ∈ l := by
        obtain ⟨slot, n⟩ := p
        rw [hmem, Prod.mk.injEq]
        constructor
        · rintro ⟨hlo, hstop, hsize, hn, hne⟩
          rcases hlo.eq_or_lt with rfl | hlt
          · exact .inl ⟨⟨rfl, hn⟩, fun hzero => hne (hn.trans hzero)⟩
          · exact .inr ⟨hlt, hstop, hsize, hn, hne⟩
        · rintro (⟨⟨rfl, hn⟩, hne⟩ | ⟨hlo, h⟩)
          · exact ⟨le_refl _, hin.1, hin.2, hn, fun hzero => hne (hn.symm.trans hzero)⟩
          · exact ⟨by omega, h⟩
      generalize toCInt (s.table db i.toNat).size = n at hsplit ⊢
      by_cases hzero : n = 0
      · rw [if_pos hzero]
        refine ⟨l, rfl, hsorted, fun p => ?_⟩
        rw [hsplit, or_iff_right fun h => h.2 hzero]
      · rw [if_neg hzero]
        refine ⟨_, rfl, List.pairwise_cons.mpr ⟨fun p hp => ?_, hsorted⟩, fun p => ?_⟩
        · have hlo := ((hmem p).mp hp).1
          show i < p.1
          omega
        · rw [hsplit, List.mem_cons, and_iff_left hzero]
    · rw [if_neg hin]
      exact ⟨[], rfl, .nil, fun p => iff_of_false List.not_mem_nil fun h => by omega⟩

/-- From below the first slot on the loop runs into an access outside the tables. -/
theorem infoLoop_neg {i : Int} (hi : i < 0) (hstop : i < stop) (hsize : 0 ≤ size) :
    infoLoop s db stop size (size - i).toNat i = none := by
  obtain ⟨rounds, hrounds⟩ := Nat.exists_eq_succ_of_ne_zero (n := (size - i).toNat) (by omega)
  rw [hrounds, infoLoop, if_pos ⟨hstop, by omega⟩, if_pos hi]

end

/-! ### The reply -/

/-- The reply lists the slots from `start` to below `start + count` that have keys, in order and each
with the number of its keys. -/
def ExactInfo (conf : SlotsMetaInfo) (s : Slots) (db : Nat) (start count : Int) (reply : Option InfoReply) : Prop :=
  ∃ l, reply = some (.slots l) ∧ l.Pairwise (fun p q => p.1 < q.1) ∧
    ∀ p : Int × Int, p ∈ l ↔ start ≤ p.1 ∧ p.1 < start + count ∧ p.1 < conf.hash_slots_size.toNat ∧
      p.2 = (s.table db p.1.toNat).keys.length ∧ p.2 ≠ 0

section
variable {hash : Bytes → Nat} {conf : SlotsMetaInfo} {s : Slots} {db : Nat} {argv : List Bytes} {start count : Int}

/-- The command with a range that is one. -/
theorem slotsInfoRedisCommand_eq (hlen : argv.length < 4) (hargs : slotsInfoArgs argv = some (start, count))
    (hstart : 0 ≤ start) (hcount : 0 ≤ count) (hconf : conf.Accepted) :
    slotsInfoRedisCommand conf s db argv = if start + count < 2 ^ 63 then
      (infoLoop s db (start + count) conf.hash_slots_size.toNat (conf.hash_slots_size.toNat - longToInt start).toNat
        (longToInt start)).map .slots else none := by
  have hsize : longToInt conf.hash_slots_size.toNat = conf.hash_slots_size.toNat := by
    have hmax : conf.hash_slots_size.toNat ≤ 65536 := hconf
    exact (longToInt_eq_iff (by omega)).mpr (by omega)
  rw [slotsInfoRedisCommand, if_neg (by omega), hargs]
  simp only [hsize]
  refine if_congr ?_ rfl rfl
  rw [and_iff_right (by omega)]

theorem Slots.Wf.size_eq (h : s.Wf hash conf) (slot : Nat) : (s.table db slot).size = (s.table db slot).keys.length := by
  have hwf : (s.table db slot).Wf hash := (h db).table slot
  exact hwf.size_eq_keys

/-- The numbers that go through an `int` come out as they were, or nothing is left to say. -/
def InfoFits (conf : SlotsMetaInfo) (s : Slots) (db : Nat) (start count : Int) : Prop :=
  start + count < 2 ^ 63 ∧
    if start < 2 ^ 31 then
      ∀ slot : Nat, start ≤ slot → (slot : Int) < start + count → slot < conf.hash_slots_size.toNat →
        (s.table db slot).keys.length < 2 ^ 31
    else
      -- The loop starts somewhere else, where it is to find nothing.
      0 ≤ longToInt start ∧ ∀ slot : Nat, longToInt start ≤ slot → slot < conf.hash_slots_size.toNat →
        2 ^ 32 ∣ (s.table db slot).keys.length

theorem infoFits_of_exactInfo (hwf : s.Wf hash conf) (hlen : argv.length < 4)
    (hargs : slotsInfoArgs argv = some (start, count)) (hstart : 0 ≤ start) (hcount : 0 ≤ count) (hconf : conf.Accepted)
    (h : ExactInfo conf s db start count (slotsInfoRedisCommand conf s db argv)) : InfoFits conf s db start count := by
  have hmax : conf.hash_slots_size.toNat ≤ 65536 := hconf
  obtain ⟨l, hreply, -, hexact⟩ := h
  rw [slotsInfoRedisCommand_eq hlen hargs hstart hcount hconf] at hreply
  split at hreply
  next hsum =>
    refine ⟨hsum, ?_⟩
    split
    next hsmall =>
      intro slot hlo hhi hslot
      rw [(longToInt_eq_iff hstart).mpr hsmall] at hreply
      obtain ⟨l', hloop, -, hmem⟩ := infoLoop_spec s db (start + count) conf.hash_slots_size.toNat hstart (le_refl _)
      rw [hloop] at hreply
      cases hreply
      by_cases hempty : (s.table db slot).keys.length = 0
      · omega
      · have hin := (hexact (slot, (s.table db slot).keys.length)).mpr
          ⟨hlo, hhi, Int.ofNat_lt.mpr hslot, rfl, Int.natCast_ne_zero.mpr hempty⟩
        obtain ⟨-, -, -, hcount', -⟩ := (hmem _).mp hin
        have hnarrow : toCInt (s.table db slot).keys.length = (s.table db slot).keys.length := by
          rw [← hwf.size_eq slot]
          rw [← hwf.size_eq slot] at hcount'
          exact hcount'.symm
        exact (toCInt_eq_iff _).mp hnarrow
    next hlarge =>
      have hi : 0 ≤ longToInt start := by
        by_contra hneg
        rw [infoLoop_neg (by omega) (by omega) (by omega)] at hreply
        cases hreply
      refine ⟨hi, fun slot hlo hslot => ?_⟩
      obtain ⟨l', hloop, -, hmem⟩ := infoLoop_spec s db (start + count) conf.hash_slots_size.toNat hi (le_refl _)
      rw [hloop] at hreply
      cases hreply
      obtain ⟨n, hn⟩ : ∃ n, n = toCInt (s.table db slot).size := ⟨_, rfl⟩
      rw [← toCInt_eq_zero_iff, ← hwf.size_eq slot, ← hn]
      by_contra hne
      have hstop : (slot : Int) < start + count := by omega
      have hin := (hmem (slot, n)).mpr ⟨hlo, hstop, Int.ofNat_lt.mpr hslot, hn, hne⟩
      have hle : start ≤ slot := ((hexact _).mp hin).1
      omega
  next => cases hreply

theorem exactInfo_of_infoFits (hwf : s.Wf hash conf) (hlen : argv.length < 4)
    (hargs : slotsInfoArgs argv = some (start, count)) (hstart : 0 ≤ start) (hcount : 0 ≤ count) (hconf : conf.Accepted)
    (h : InfoFits conf s db start count) : ExactInfo conf s db start count (slotsInfoRedisCommand conf s db argv) := by
  have hmax : conf.hash_slots_size.toNat ≤ 65536 := hconf
  obtain ⟨hsum, hfits⟩ := h
  rw [slotsInfoRedisCommand_eq hlen hargs hstart hcount hconf, if_pos hsum]
  split at hfits
  next hsmall =>
    rw [(longToInt_eq_iff hstart).mpr hsmall]
    obtain ⟨l, hloop, hsorted, hmem⟩ := infoLoop_spec s db (start + count) conf.hash_slots_size.toNat hstart (le_refl _)
    refine ⟨l, by rw [hloop]; rfl, hsorted, fun p => ?_⟩
    rw [hmem]
    refine and_congr_right fun hlo => and_congr_right fun hhi => and_congr_right fun hslot => ?_
    have hn : toCInt (s.table db p.1.toNat).size = (s.table db p.1.toNat).keys.length := by
      rw [hwf.size_eq]
      exact (toCInt_eq_iff _).mpr (hfits p.1.toNat (by omega) (by omega) (by omega))
    rw [hn]
  next hlarge =>
    obtain ⟨hi, hzero⟩ := hfits
    obtain ⟨l, hloop, hsorted, hmem⟩ := infoLoop_spec s db (start + count) conf.hash_slots_size.toNat hi (le_refl _)
    refine ⟨l, by rw [hloop]; rfl, hsorted, fun p => iff_of_false (fun hp => ?_) fun hp => by omega⟩
    obtain ⟨hlo, -, hslot, hn, hne⟩ := (hmem p).mp hp
    refine hne (hn.trans ?_)
    rw [hwf.size_eq, toCInt_eq_zero_iff]
    exact hzero p.1.toNat (by omega) (by omega)

end

/-- **When SLOTSINFO is exact**: if the sum of its arguments is a `long long`, and either the start
and the numbers of keys are `int`s, or the start is none and the slots that the loop then goes
through have no keys that an `int` shows. -/
theorem info_exact_iff (hash : Bytes → Nat) {conf : SlotsMetaInfo} (hconf : conf.Accepted) (ops : List SlotsOp) (db : Nat)
    {argv : List Bytes} {start count : Int} (hlen : argv.length < 4) (hargs : slotsInfoArgs argv = some (start, count))
    (hstart : 0 ≤ start) (hcount : 0 ≤ count) :
    ExactInfo conf (slotsInit.run hash conf ops) db start count
        (slotsInfoRedisCommand conf (slotsInit.run hash conf ops) db argv) ↔
      InfoFits conf (slotsInit.run hash conf ops) db start count := by
  have hwf : (slotsInit.run hash conf ops).Wf hash conf := Slots.run_wf (fun _ => DbSlotInfo.wf_init) ops
  exact ⟨infoFits_of_exactInfo hwf hlen hargs hstart hcount hconf, exactInfo_of_infoFits hwf hlen hargs hstart hcount hconf⟩

theorem accepted_conf16 : conf16.Accepted := by
  unfold SlotsMetaInfo.Accepted
  decide

/-- `SLOTSINFO 570 20` on an index whose slots 578 and 579 have keys in that range. -/
theorem info_exact_iff_mixed :
    slotsInfoRedisCommand conf16 mixedIndex 0 [[], [53, 55, 48], [50, 48]] = some (.slots [(578, 1), (579, 3)]) ∧
      ExactInfo conf16 mixedIndex 0 570 20 (slotsInfoRedisCommand conf16 mixedIndex 0 [[], [53, 55, 48], [50, 48]]) := by
  refine ⟨by decide +kernel, ?_⟩
  have hiff := @info_exact_iff lastByte conf16 accepted_conf16 mixedOps 0 [[], [53, 55, 48], [50, 48]] 570 20 (by decide)
    (by decide) (by decide) (by decide)
  refine hiff.mpr ⟨by decide, ?_⟩
  rw [if_pos (by decide)]
  intro slot hlo hhi _
  have hfew : ∀ d < 20, (mixedIndex.table 0 (570 + d)).keys.length < 2 ^ 31 := by decide +kernel
  have hone := hfew (slot - 570) (by omega)
  rwa [Nat.add_sub_cancel' (by omega)] at hone

/-- `SLOTSINFO 2147483648 1` reads below the first table; its reply should be empty. -/
theorem not_info_exact : slotsInfoArgs [[], [50, 49, 52, 55, 52, 56, 51, 54, 52, 56], [49]] = some (2147483648, 1) ∧
    ¬ ExactInfo conf16 (slotsInit.run (fun _ => 0) conf16 []) 0 2147483648 1
      (slotsInfoRedisCommand conf16 (slotsInit.run (fun _ => 0) conf16 []) 0
        [[], [50, 49, 52, 55, 52, 56, 51, 54, 52, 56], [49]]) := by
  have hargs : slotsInfoArgs [[], [50, 49, 52, 55, 52, 56, 51, 54, 52, 56], [49]] = some (2147483648, 1) := by decide
  refine ⟨hargs, fun h => ?_⟩
  have hwf : (slotsInit.run (fun _ => 0) conf16 []).Wf (fun _ => 0) conf16 := Slots.run_wf (fun _ => DbSlotInfo.wf_init) []
  have hfits := (infoFits_of_exactInfo hwf (by decide) hargs (by decide) (by decide) accepted_conf16 h).2
  rw [if_neg (by decide)] at hfits
  exact absurd hfits.1 (by decide)

end RedisXSlot
