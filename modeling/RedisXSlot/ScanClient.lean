import RedisXSlot.Coverage
import RedisXSlot.ScanProofs
import RedisXSlot.UtilProofs

/-! A client goes through a slot.

It starts SLOTSSCAN at cursor 0 and follows the cursors it gets until 0 comes back. Between
two calls keys may come and go, and the cron may shrink and rehash the tables. What ranks
below the cursor has been returned at some time, if it has been there all the time
(`scan_misses_nothing`). -/
namespace RedisXSlot
open ReverseCursor

/-- What happens to a slot between two calls. -/
inductive TableOp where
  | add (db : Nat) (key : Bytes) (draws : Nat)
  | del (db : Nat) (key : Bytes)
  | resize (db slot : Nat)
  | rehash (rounds db slot : Nat)

section
variable (hash : Bytes → Nat) (conf : SlotsMetaInfo)

def Slots.tableStep (s : Slots) : TableOp → Slots
  | .add db key draws => slotsAdd hash conf s db key draws
  | .del db key => slotsDel hash conf s db key
  | .resize db slot => tryResizeDbSlotHashTables s db slot
  | .rehash rounds db slot => (incrementallyDbSlotRehash hash rounds s db slot).1

/-- The client's calls from `cursor` on, each with the arguments behind the cursor and what happens
after it: the states they met and the keys they got, if the last one got cursor 0. -/
def iterate (db : Nat) (slotnum : Bytes) (s : Slots) (cursor : Bytes) :
    List (List Bytes × List TableOp) → Option (List (Slots × List Bytes))
  | [] => none
  | (opts, ops) :: calls =>
    match slotsScanRedisCommand conf s db ([] :: slotnum :: cursor :: opts) with
    | some (.page next keys) =>
      if next = [48] then some [(s, keys)]
      else (iterate db slotnum (ops.foldl (Slots.tableStep hash conf) s) next calls).map ((s, keys) :: ·)
    | _ => none

end

/-- The arguments behind the cursor: none, or a count of at least 1. -/
inductive ScanOpts : List Bytes → Prop where
  | none : ScanOpts []
  | count {word text : Bytes} {n : Int} : isCount word = true → string2ll text = some n → 1 ≤ n → ScanOpts [word, text]

section
variable {hash : Bytes → Nat} {conf : SlotsMetaInfo} {s : Slots} {db slot : Nat} {slotnum cursor next : Bytes}
  {opts : List Bytes} {keys : List Bytes}

theorem Slots.Wf.tableRun (h : s.Wf hash conf) (ops : List TableOp) :
    (ops.foldl (Slots.tableStep hash conf) s).Wf hash conf := by
  induction ops generalizing s with
  | nil => exact h
  | cons op ops ih =>
    apply ih
    cases op with
    | add db key draws => exact (keys_slotsAdd h db key draws).1
    | del db key => exact (keys_slotsDel h db key).1
    | resize db slot => exact (tryResizeDbSlotHashTables_moved db slot h).wf h
    | rehash rounds db slot => exact (incrementallyDbSlotRehash_moved rounds db slot h).wf h

/-- A slot number that is accepted is the index of a slot. -/
theorem longToInt_slot (hconf : conf.Accepted) (hslot : slot < conf.hash_slots_size.toNat) :
    longToInt slot = slot := by
  have h := bmod_self_iff slot (2 ^ 32) (by norm_num)
  have hhalf : (2 ^ 32 + 1) / 2 = 2147483648 := by norm_num
  have hmax : MAX_HASH_SLOTS_SIZE = 65536 := rfl
  have hle : conf.hash_slots_size.toNat ≤ 65536 := hmax ▸ hconf
  rw [hhalf] at h
  exact h.mpr (by omega)

/-- **The command**, on a slot that exists and with numbers for arguments. -/
theorem slotsScanRedisCommand_eq (hconf : conf.Accepted) (hslot : slot < conf.hash_slots_size.toNat)
    (hnum : string2ll slotnum = some (slot : Int)) {v : ULong} (hv : string2ll cursor = some (v.toNat : Int))
    {count : Nat} (hlen : opts = [] ∨ opts.length = 2) (hcount : scanCount ([] :: slotnum :: cursor :: opts) = some count) :
    slotsScanRedisCommand conf s db ([] :: slotnum :: cursor :: opts) =
      some (.page (ll2string (List.replicate REDIS_LONGSTR_SIZE 0) (slotsmgrtScan (s.table db slot) count v).1.toInt)
        (slotsmgrtScan (s.table db slot) count v).2) := by
  have harity : ¬ (([] :: slotnum :: cursor :: opts).length ≠ 3 ∧ ([] :: slotnum :: cursor :: opts).length ≠ 5) := by
    rcases hlen with rfl | hlen
    · simp
    · simp [hlen]
  have hval : BitVec.ofInt 64 (v.toNat : Int) = v := by
    rw [BitVec.ofInt_natCast, BitVec.ofNat_toNat, BitVec.setWidth_eq]
  have hslotnum : string2ll (([] :: slotnum :: cursor :: opts).getD 1 []) = some (slot : Int) := hnum
  have hcursor : string2ll (([] :: slotnum :: cursor :: opts).getD 2 []) = some (v.toNat : Int) := hv
  rw [slotsScanRedisCommand, if_neg harity, hcount, hslotnum, hcursor]
  simp only [longToInt_slot hconf hslot, Int.toNat_natCast, hval]
  rw [if_pos ⟨Int.natCast_nonneg slot, Int.ofNat_lt.mpr hslot⟩]

/-- A page is only got with arguments of the right number and a count that is one. -/
theorem exists_scanCount (h : slotsScanRedisCommand conf s db ([] :: slotnum :: cursor :: opts) = some (.page next keys)) :
    (opts = [] ∨ opts.length = 2) ∧ ∃ count, scanCount ([] :: slotnum :: cursor :: opts) = some count := by
  rw [slotsScanRedisCommand] at h
  split at h
  next => cases h
  next harity =>
    refine ⟨?_, ?_⟩
    · simp only [List.length_cons] at harity
      rcases opts with - | ⟨a, opts⟩
      · exact .inl rfl
      · exact .inr (by simp only [List.length_cons] at harity ⊢; omega)
    · split at h
      next count _ _ hcount => exact ⟨count, hcount⟩
      next => cases h

theorem ScanOpts.exists_scanCount (h : ScanOpts opts) :
    (opts = [] ∨ opts.length = 2) ∧ ∃ count, scanCount ([] :: slotnum :: cursor :: opts) = some count := by
  cases h with
  | none => exact ⟨.inl rfl, 10, rfl⟩
  | @count word text n hword htext hn =>
    refine ⟨.inr rfl, n.toNat, ?_⟩
    have hword' : isCount (([] :: slotnum :: cursor :: [word, text]).getD 3 []) = true := hword
    have htext' : string2ll (([] :: slotnum :: cursor :: [word, text]).getD 4 []) = some n := htext
    rw [scanCount, if_neg (by simp), hword', htext']
    simp [Int.not_lt.mpr hn]

/-- The text of a cursor is read back as the cursor, and is 0 for cursor 0 only. -/
theorem cursorText_spec {k : Nat} (hk : k < 64) {v : ULong} (hv : 2 ^ (64 - k) ∣ rank v) :
    string2ll (ll2string (List.replicate REDIS_LONGSTR_SIZE 0) v.toInt) = some (v.toNat : Int) ∧
      (ll2string (List.replicate REDIS_LONGSTR_SIZE 0) v.toInt = [48] ↔ v = 0) := by
  have hlt : v.toNat < 2 ^ 63 :=
    (toNat_lt_of_dvd_rank hk.le hv).trans_le (Nat.pow_le_pow_right (by decide) (Nat.le_of_lt_succ hk))
  have hmax : v.toNat ≤ LLONG_MAX := Nat.le_sub_one_of_lt hlt
  have hint : v.toInt = (v.toNat : Int) := by
    rw [BitVec.toInt_eq_toNat_cond, if_pos]
    have : 2 ^ 64 = 2 * 2 ^ 63 := rfl
    omega
  have hread := string2ll_ll2string (List.replicate REDIS_LONGSTR_SIZE 0) (List.length_replicate ..) hmax
  rw [hint]
  refine ⟨hread, fun h => ?_, fun h => ?_⟩
  · rw [h] at hread
    have hzero : v.toNat = 0 := Int.ofNat_inj.mp (Option.some.inj hread).symm
    exact BitVec.eq_of_toNat_eq hzero
  · subst h
    decide

/-- **A page**: some steps of the scan, and the text of the next cursor. -/
theorem page_spec (hconf : conf.Accepted) (hslot : slot < conf.hash_slots_size.toNat)
    (hnum : string2ll slotnum = some (slot : Int)) {k : Nat} (hk : k < 64) (hscan : ScansBy hash (s.table db slot) k)
    {v : ULong} (hv : string2ll cursor = some (v.toNat : Int))
    (h : slotsScanRedisCommand conf s db ([] :: slotnum :: cursor :: opts) = some (.page next keys)) :
    ∃ es v', keys = es.map Prod.fst ∧ string2ll next = some (v'.toNat : Int) ∧ (next = [48] ↔ v' = 0) ∧
      Scans hash (s.table db slot).entries k v (es, v') := by
  obtain ⟨hlen, count, hcount⟩ := exists_scanCount h
  rw [slotsScanRedisCommand_eq hconf hslot hnum hv hlen hcount] at h
  obtain ⟨es, v', hcall, hs⟩ := hscan count v
  rw [hcall] at h
  obtain ⟨rfl, rfl⟩ := ScanReply.page.inj (Option.some.inj h)
  obtain ⟨hread, hzero⟩ := cursorText_spec hk hs.aligned
  exact ⟨es, v', rfl, hread, hzero, hs⟩

theorem mem_keys_of_covers {es es' : List (Bytes × UInt32)} {k : Nat} {v v' : ULong} {key : Bytes}
    (hs : Scans hash es k v (es', v')) (hkey : key ∈ es.map Prod.fst) (hlo : rank v ≤ hashRank (hash key))
    (hhi : hashRank (hash key) < limit v') : key ∈ es'.map Prod.fst := by
  obtain ⟨e, he, rfl⟩ := List.mem_map.mp hkey
  exact List.mem_map_of_mem (hs.covers e he hlo hhi)

/-- **Nothing behind the cursor is missed.** -/
theorem iterate_covers (hconf : conf.Accepted) (hslot : slot < conf.hash_slots_size.toNat)
    (hnum : string2ll slotnum = some (slot : Int)) {calls : List (List Bytes × List TableOp)} (hwf : s.Wf hash conf)
    {v : ULong} (hv : string2ll cursor = some (v.toNat : Int)) {visits : List (Slots × List Bytes)}
    (h : iterate hash conf db slotnum s cursor calls = some visits) (hfit : ∀ p ∈ visits, (p.1.table db slot).Fits)
    {key : Bytes} (hkey : ∀ p ∈ visits, key ∈ (p.1.table db slot).keys) (hrank : rank v ≤ hashRank (hash key)) :
    ∃ p ∈ visits, key ∈ p.2 := by
  induction calls generalizing s cursor v visits with
  | nil => cases h
  | cons call calls ih =>
    obtain ⟨opts, ops⟩ := call
    have htable : (s.table db slot).Wf hash := (hwf db).table slot
    rw [iterate] at h
    split at h
    next next keys hpage =>
      split at h
      next hend =>
        obtain rfl := Option.some.inj h
        obtain ⟨k, hk, hscan⟩ := slotsmgrtScan_spec htable (hfit (s, keys) (List.mem_singleton.mpr rfl))
        obtain ⟨es, v', rfl, -, hzero, hs⟩ := page_spec hconf hslot hnum hk hscan hv hpage
        have hlt : hashRank (hash key) < limit v' := by
          rw [limit, if_pos (hzero.mp hend)]
          exact hashRank_lt _
        exact ⟨_, List.mem_singleton.mpr rfl, mem_keys_of_covers hs (hkey _ (List.mem_singleton.mpr rfl)) hrank hlt⟩
      next hgo =>
        obtain ⟨rest, hrest, rfl⟩ := Option.map_eq_some_iff.mp h
        obtain ⟨k, hk, hscan⟩ := slotsmgrtScan_spec htable (hfit (s, keys) (List.mem_cons_self ..))
        obtain ⟨es, v', rfl, hread, hzero, hs⟩ := page_spec hconf hslot hnum hk hscan hv hpage
        have hlim : limit v' = rank v' := if_neg (mt hzero.mpr hgo)
        by_cases hdone : hashRank (hash key) < rank v'
        · exact ⟨_, List.mem_cons_self .., mem_keys_of_covers hs (hkey _ (List.mem_cons_self ..)) hrank (hlim ▸ hdone)⟩
        · obtain ⟨p, hp, hmem⟩ := ih (hwf.tableRun ops) hread hrest (fun p hp => hfit p (List.mem_cons_of_mem _ hp))
            (fun p hp => hkey p (List.mem_cons_of_mem _ hp)) (Nat.le_of_not_lt hdone)
          exact ⟨p, List.mem_cons_of_mem _ hp, hmem⟩
    next => cases h

/-- **On a slot that nobody modifies** the iteration ends, and has returned what ranks from the
cursor on. -/
theorem iterate_unmodified (hconf : conf.Accepted) (hslot : slot < conf.hash_slots_size.toNat)
    (hnum : string2ll slotnum = some (slot : Int)) {args : Nat → List Bytes} (hargs : ∀ n, ScanOpts (args n))
    {k : Nat} (hk : k < 64) (hscan : ScansBy hash (s.table db slot) k) (fuel : Nat) {v : ULong}
    (hfuel : 2 ^ 64 - rank v ≤ fuel) (hv : string2ll cursor = some (v.toNat : Int)) (haligned : 2 ^ (64 - k) ∣ rank v)
    (i : Nat) :
    ∃ n visits, iterate hash conf db slotnum s cursor ((List.range' i n).map fun j => (args j, [])) = some visits ∧
      (visits.flatMap Prod.snd).Perm ((between hash (s.table db slot).entries (rank v) (2 ^ 64)).map Prod.fst) := by
  induction fuel generalizing v cursor i with
  | zero =>
    have := rank_lt v
    omega
  | succ fuel ih =>
    have hopts : (args i = [] ∨ (args i).length = 2) ∧
        ∃ count, scanCount ([] :: slotnum :: cursor :: args i) = some count := (hargs i).exists_scanCount
    obtain ⟨hlen, count, hcount⟩ := hopts
    have hcmd := @slotsScanRedisCommand_eq conf s db slot slotnum cursor (args i) hconf hslot hnum v hv count hlen hcount
    obtain ⟨es, v', hcall, hs⟩ := hscan count v
    rw [hcall] at hcmd
    obtain ⟨hread, hzero⟩ := cursorText_spec hk hs.aligned
    have hemit := hs.exact haligned
    by_cases hend : v' = 0
    · refine ⟨1, [(s, es.map Prod.fst)], ?_, ?_⟩
      · rw [List.range'_one, List.map_singleton, iterate, hcmd]
        simp only [hzero.mpr hend, if_true]
      · rw [limit, if_pos hend] at hemit
        simpa using hemit.map Prod.fst
    · have hlim : limit v' = rank v' := if_neg hend
      have hadv : rank v < limit v' := hs.advances
      rw [hlim] at hadv
      obtain ⟨n, visits, hrest, hperm⟩ := ih (v := v') (by omega) hread hs.aligned (i + 1)
      refine ⟨n + 1, (s, es.map Prod.fst) :: visits, ?_, ?_⟩
      · rw [List.range'_succ, List.map_cons, iterate, hcmd]
        simp only [mt hzero.mp hend, if_false, List.foldl_nil, hrest, Option.map_some]
      · rw [hlim] at hemit
        rw [List.flatMap_cons]
        refine ((hemit.map Prod.fst).append hperm).trans ?_
        rw [← List.map_append]
        exact (between_cut _ hadv.le (rank_lt v').le).map Prod.fst

/-- **SLOTSSCAN misses nothing.** An iteration from cursor 0 to cursor 0 returns every key that is
in the slot whenever a page is got, whatever is done to the slot between the pages. On a slot that
nobody modifies it ends, and returns every key once. -/
theorem scan_misses_nothing (hconf : conf.Accepted) (hslot : slot < conf.hash_slots_size.toNat)
    (hnum : string2ll slotnum = some (slot : Int)) (hwf : s.Wf hash conf) :
    (∀ calls visits, iterate hash conf db slotnum s [48] calls = some visits →
      (∀ p ∈ visits, (p.1.table db slot).Fits) → ∀ key, (∀ p ∈ visits, key ∈ (p.1.table db slot).keys) →
      ∃ p ∈ visits, key ∈ p.2) ∧
    ((s.table db slot).Fits → ∀ args : Nat → List Bytes, (∀ n, ScanOpts (args n)) →
      ∃ n visits, iterate hash conf db slotnum s [48] ((List.range n).map fun j => (args j, [])) = some visits ∧
        (visits.flatMap Prod.snd).Nodup ∧ ∀ key, key ∈ visits.flatMap Prod.snd ↔ key ∈ (s.table db slot).keys) := by
  have hzero : string2ll [48] = some ((0 : ULong).toNat : Int) := by decide
  constructor
  · intro calls visits h hfit key hkey
    exact iterate_covers hconf hslot hnum hwf hzero h hfit hkey (rank_zero (w := 64) ▸ Nat.zero_le _)
  · intro hfit args hargs
    have htable : (s.table db slot).Wf hash := (hwf db).table slot
    obtain ⟨k, hk, hscan⟩ := slotsmgrtScan_spec htable hfit
    obtain ⟨n, visits, hdone, hperm⟩ := iterate_unmodified hconf hslot hnum hargs hk hscan (2 ^ 64) (Nat.sub_le ..)
      hzero (rank_zero (w := 64) ▸ Nat.dvd_zero _) 0
    have hall : between hash (s.table db slot).entries (rank (0 : ULong)) (2 ^ 64) = (s.table db slot).entries := by
      apply List.filter_eq_self.mpr
      intro e _
      rw [decide_eq_true_eq, rank_zero]
      exact ⟨Nat.zero_le _, hashRank_lt _⟩
    rw [hall] at hperm
    refine ⟨n, visits, ?_, hperm.nodup_iff.mpr htable.nodup, fun key => hperm.mem_iff⟩
    rwa [List.range_eq_range']

end

/-- The keys `{a}0`, `{a}1` and so on, which are all in slot 579. -/
def ofTagA (i : Nat) : Bytes := [123, 97, 125] ++ decimal i

/-- Four of them fill the first table. -/
def fourIndexed : Slots :=
  ((List.range 4).map fun i => TableOp.add 0 (ofTagA i) 0).foldl (Slots.tableStep lastByte conf16) slotsInit

/-- `COUNT 1` in all calls but the last. Behind the first one two keys come in, and the slot gets
a table of eight buckets; behind the second one it is rehashed to the end and one of the two goes
again. -/
def resizedBetween : List (List Bytes × List TableOp) :=
  let one : List Bytes := [[67, 79, 85, 78, 84], [49]]
  [(one, [.add 0 (ofTagA 4) 0, .add 0 (ofTagA 5) 0]), (one, [.rehash 1 0 579, .del 0 (ofTagA 4)]), (one, []), (one, []),
    ([], [])]

/-- The four keys are got over five calls, which meet a table of four buckets, a dictionary in
rehashing, and a table of eight. -/
theorem scan_misses_nothing_resized :
    ∃ visits, iterate lastByte conf16 0 [53, 55, 57] fourIndexed [48] resizedBetween = some visits ∧
      visits.map (fun p => ((p.1.table 0 579).ht0.size, (p.1.table 0 579).ht1.size)) =
        [(4, 0), (4, 8), (8, 0), (8, 0), (8, 0)] ∧
      ∀ i < 4, ∃ p ∈ visits, ofTagA i ∈ p.2 := by
  have hconf : conf16.Accepted := by
    unfold SlotsMetaInfo.Accepted
    decide
  have hwf : fourIndexed.Wf lastByte conf16 := Slots.Wf.tableRun (fun _ => DbSlotInfo.wf_init) _
  have hrun : (iterate lastByte conf16 0 [53, 55, 57] fourIndexed [48] resizedBetween).any (fun visits =>
      visits.map (fun p => ((p.1.table 0 579).ht0.size, (p.1.table 0 579).ht1.size)) =
          [(4, 0), (4, 8), (8, 0), (8, 0), (8, 0)] &&
        visits.all fun p => (List.range 4).all fun i => ofTagA i ∈ (p.1.table 0 579).keys) = true := by
    decide +kernel
  obtain ⟨visits, hvisits, hmet⟩ := (Option.any_eq_true _ _).mp hrun
  obtain ⟨hsizes, hkeys⟩ := Bool.and_eq_true_iff.mp hmet
  have hsizes := of_decide_eq_true hsizes
  have hthere := (@scan_misses_nothing lastByte conf16 fourIndexed 0 579 [53, 55, 57] hconf (by decide) (by decide) hwf).1
    resizedBetween visits hvisits
  refine ⟨visits, hvisits, hsizes, fun i hi => hthere (fun p hp => ?_) (ofTagA i) fun p hp => ?_⟩
  · have hin := List.mem_map_of_mem (f := fun p => ((p.1.table 0 579).ht0.size, (p.1.table 0 579).ht1.size)) hp
    rw [hsizes] at hin
    simp only [List.mem_cons, Prod.mk.injEq, List.not_mem_nil, or_false] at hin
    constructor <;> omega
  · have hall := List.all_eq_true.mp (List.all_eq_true.mp hkeys p hp) i (List.mem_range.mpr hi)
    exact of_decide_eq_true hall

end RedisXSlot
