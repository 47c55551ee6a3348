import RedisXSlot.DictProofs
import RedisXSlot.Lib.ReverseCursor
import RedisXSlot.Scan

/-! Scanning misses nothing.

`rev` reverses bits, so the cursor goes up in the order of reversed bits, and a step at `v`
emits at least the entries whose hashes rank between `v` and the next cursor, whatever the
sizes of the tables are at that moment. -/
namespace RedisXSlot
open ReverseCursor

/-! ### Reversing bits -/

/-- One round of `rev`. -/
def swapHalves (s : Nat) (mask v : ULong) : ULong := ((v >>> s) &&& mask) ||| ((v <<< s) &&& ~~~mask)

/-- A round exchanges each bit with the one `s` away. -/
theorem getLsbD_swapHalves {s : Nat} {mask : ULong}
    (h : ∀ i < 64, if mask.getLsbD i then i ^^^ s = i + s else s ≤ i ∧ i ^^^ s = i - s) (v : ULong) {i : Nat}
    (hi : i < 64) : (swapHalves s mask v).getLsbD i = v.getLsbD (i ^^^ s) := by
  have hs := h i hi
  rw [swapHalves, BitVec.getLsbD_or, BitVec.getLsbD_and, BitVec.getLsbD_and, BitVec.getLsbD_not,
    BitVec.getLsbD_ushiftRight, BitVec.getLsbD_shiftLeft]
  by_cases hm : mask.getLsbD i
  · rw [if_pos hm] at hs
    rw [hm, hs]
    simp [Nat.add_comm]
  · rw [if_neg hm] at hs
    rw [Bool.not_eq_true] at hm
    rw [hm, hs.2]
    simp [hi, Nat.not_lt.mpr hs.1]

theorem rev_eq_swaps (v : ULong) : rev v =
    swapHalves 1 0x5555555555555555 (swapHalves 2 0x3333333333333333 (swapHalves 4 0x0f0f0f0f0f0f0f0f
      (swapHalves 8 0x00ff00ff00ff00ff (swapHalves 16 0x0000ffff0000ffff (swapHalves 32 0x00000000ffffffff v))))) := by
  rfl

/-- **`rev` reverses bits.** -/
theorem rev_eq_reverse (v : ULong) : rev v = v.reverse := by
  apply BitVec.eq_of_getLsbD_eq
  intro i hi
  have hx : ∀ i < 64, i ^^^ 1 < 64 ∧ i ^^^ 1 ^^^ 2 < 64 ∧ i ^^^ 1 ^^^ 2 ^^^ 4 < 64 ∧ i ^^^ 1 ^^^ 2 ^^^ 4 ^^^ 8 < 64 ∧
      i ^^^ 1 ^^^ 2 ^^^ 4 ^^^ 8 ^^^ 16 < 64 ∧ i ^^^ 1 ^^^ 2 ^^^ 4 ^^^ 8 ^^^ 16 ^^^ 32 = 63 - i := by decide
  obtain ⟨h1, h2, h4, h8, h16, h32⟩ := hx i hi
  rw [rev_eq_swaps, getLsbD_swapHalves (by decide) _ hi, getLsbD_swapHalves (by decide) _ h1,
    getLsbD_swapHalves (by decide) _ h2, getLsbD_swapHalves (by decide) _ h4, getLsbD_swapHalves (by decide) _ h8,
    getLsbD_swapHalves (by decide) _ h16, h32, BitVec.getLsbD_reverse, BitVec.getMsbD_eq_getLsbD]
  simp [hi]

/-- **A step of the cursor goes to the next block.** -/
theorem nextCursor_mask (k : Nat) (v : ULong) : nextCursor (mask 64 k) v = next k v := by
  rw [nextCursor, rev_eq_reverse, rev_eq_reverse]
  rfl

/-! ### A table -/

section
variable {K V : Type} {hash : K → Nat}

/-- The rank of a hash, of which only the low bits count. -/
def hashRank (h : Nat) : Nat := rank (BitVec.ofNat 64 h)

theorem hashRank_lt (h : Nat) : hashRank h < 2 ^ 64 := rank_lt _

/-- The entries whose hashes rank from `lo` to below `hi`. -/
def between (hash : K → Nat) (es : List (K × V)) (lo hi : Nat) : List (K × V) :=
  es.filter fun e => lo ≤ hashRank (hash e.1) ∧ hashRank (hash e.1) < hi

theorem mem_between {es : List (K × V)} {lo hi : Nat} {e : K × V} :
    e ∈ between hash es lo hi ↔ e ∈ es ∧ lo ≤ hashRank (hash e.1) ∧ hashRank (hash e.1) < hi := by
  simp [between]

theorem between_append (xs ys : List (K × V)) (lo hi : Nat) :
    between hash (xs ++ ys) lo hi = between hash xs lo hi ++ between hash ys lo hi := List.filter_append ..

/-- A range is cut in two. -/
theorem between_cut (es : List (K × V)) {lo mid hi : Nat} (h₁ : lo ≤ mid) (h₂ : mid ≤ hi) :
    (between hash es lo mid ++ between hash es mid hi).Perm (between hash es lo hi) := by
  have h := List.filter_append_perm (fun e => hashRank (hash e.1) < mid) (between hash es lo hi)
  have hlow : between hash es lo mid = (between hash es lo hi).filter fun e => hashRank (hash e.1) < mid := by
    rw [between, between, List.filter_filter]
    apply List.filter_congr
    intro e _
    rw [← Bool.decide_and, decide_eq_decide]
    omega
  have hhigh : between hash es mid hi = (between hash es lo hi).filter fun e => !decide (hashRank (hash e.1) < mid) := by
    rw [between, between, List.filter_filter]
    apply List.filter_congr
    intro e _
    rw [← decide_not, ← Bool.decide_and, decide_eq_decide]
    omega
  rw [hlow, hhigh]
  exact h

variable {ht : DictHt K V}

theorem DictHt.bucket_sublist (ht : DictHt K V) (i : Nat) : (ht.bucket i).Sublist ht.entries := by
  rw [DictHt.bucket, List.getD_eq_getElem?_getD]
  cases hi : ht.table[i]? with
  | none => exact List.nil_sublist _
  | some c => exact List.sublist_flatten_of_mem (List.mem_of_getElem? hi)

theorem DictHt.Wf.mem_bucket_iff (h : ht.Wf hash) {i : Nat} {e : K × V} :
    e ∈ ht.bucket i ↔ e ∈ ht.entries ∧ hash e.1 &&& ht.sizemask = i := by
  constructor
  · intro he
    exact ⟨DictHt.mem_entries_of_bucket he, h.place i e he⟩
  · rintro ⟨he, rfl⟩
    exact h.mem_bucket he

/-- The table is of `2 ^ k` buckets, a number an `unsigned long` has room for. -/
structure DictHt.OfPow (hash : K → Nat) (ht : DictHt K V) (k : Nat) : Prop where
  wf : ht.Wf hash
  size : ht.size = 2 ^ k
  le : k < 64
  nodup : (ht.entries.map Prod.fst).Nodup

theorem DictHt.OfPow.mask_eq {k : Nat} (h : ht.OfPow hash k) : ht.mask = ReverseCursor.mask 64 k := by
  rw [DictHt.mask, DictHt.sizemask, h.size, ReverseCursor.mask]

/-- **What is emitted at a cursor** is what ranks in its block. -/
theorem DictHt.OfPow.emit_perm {k : Nat} (h : ht.OfPow hash k) (v : ULong) :
    (ht.emit v).Perm (between hash ht.entries (start k v) (stop k v)) := by
  have hpos : 0 < 2 ^ (64 - k) := Nat.two_pow_pos _
  have hndup : ht.entries.Nodup := List.Nodup.of_map _ h.nodup
  have hlt : 2 ^ k - 1 < 2 ^ 64 := (Nat.sub_le ..).trans_lt (Nat.pow_lt_pow_right (by decide) h.le)
  have hidx : (v &&& ht.mask).toNat = v.toNat % 2 ^ k := by
    rw [h.mask_eq, BitVec.toNat_and, ReverseCursor.mask, BitVec.toNat_ofNat, Nat.mod_eq_of_lt hlt,
      Nat.and_two_pow_sub_one_eq_mod]
  have hemit : (ht.emit v).Nodup := hndup.sublist (ht.bucket_sublist _)
  have hbetween (lo hi : Nat) : (between hash ht.entries lo hi).Nodup := hndup.filter _
  refine (List.perm_ext_iff_of_nodup hemit (hbetween _ _)).mpr fun e => ?_
  rw [DictHt.emit, h.wf.mem_bucket_iff, mem_between, hidx, DictHt.sizemask, h.size, Nat.and_two_pow_sub_one_eq_mod]
  refine and_congr_right fun _ => ?_
  have hblock := rank_div_eq_iff (Nat.le_of_lt h.le) (BitVec.ofNat 64 (hash e.1)) v
  rw [BitVec.toNat_ofNat, Nat.mod_mod_of_dvd _ (Nat.pow_dvd_pow 2 (Nat.le_of_lt h.le)), Nat.div_eq_iff hpos] at hblock
  rw [← hblock, hashRank, stop_eq, start]
  omega

/-- **The larger table** is gone through to the end of the smaller one's block. -/
theorem scanExpansions_spec {l k : Nat} (h : ht.OfPow hash l) (hkl : k ≤ l) {fuel : Nat} {v : ULong}
    (hfuel : stop k v ≤ start l v + fuel * 2 ^ (64 - l)) :
    (scanExpansions ht (ReverseCursor.mask 64 k) fuel v).1.Perm (between hash ht.entries (start l v) (stop k v)) ∧
      limit (scanExpansions ht (ReverseCursor.mask 64 k) fuel v).2 = stop k v ∧
      2 ^ (64 - k) ∣ rank (scanExpansions ht (ReverseCursor.mask 64 k) fuel v).2 := by
  have hl : l ≤ 64 := Nat.le_of_lt h.le
  have hdvd : 2 ^ (64 - l) ∣ 2 ^ (64 - k) := Nat.pow_dvd_pow 2 (by omega)
  induction fuel generalizing v with
  | zero =>
    have := lt_stop k v
    have := start_le l v
    omega
  | succ fuel ih =>
    have hlim := limit_next hl v
    have hblock := dvd_rank_next hl v
    have hle : stop l v ≤ stop k v := stop_le (hdvd.trans (dvd_stop k v)) (lt_stop k v)
    have hlt := lt_stop l v
    rw [scanExpansions, h.mask_eq, nextCursor_mask]
    by_cases hc : next l v &&& (ReverseCursor.mask 64 k ^^^ ReverseCursor.mask 64 l) = 0
    · rw [if_neg (not_not.mpr hc)]
      have hstart := (and_xor_mask_eq_zero_iff hkl hl hblock).mp hc
      have hstop : stop l v = stop k v := le_antisymm hle (stop_le (hlim ▸ dvd_limit hstart) hlt)
      exact ⟨hstop ▸ h.emit_perm v, hlim.trans hstop, hstart⟩
    · rw [if_pos hc]
      have hstart := mt (and_xor_mask_eq_zero_iff hkl hl hblock).mpr hc
      have hne : next l v ≠ 0 := by
        rintro h0
        rw [h0, rank_zero] at hstart
        exact hstart (Nat.dvd_zero _)
      have hrank : rank (next l v) = stop l v := by rwa [limit, if_neg hne] at hlim
      have hlt' : stop l v < stop k v := hle.lt_of_ne fun he => hstart (hrank ▸ he ▸ dvd_stop k v)
      have hstop : stop k (next l v) = stop k v := stop_eq_stop (hlt.trans_eq hrank.symm) (hrank.trans_lt hlt')
      have hfrom : start l (next l v) = stop l v := (start_eq_of_dvd hblock).trans hrank
      have hrest := @ih (next l v) (by rw [hstop, hfrom, stop_eq l v]; rw [Nat.succ_mul] at hfuel; omega)
      rw [hstop, hfrom] at hrest
      refine ⟨?_, hrest.2⟩
      have hfrom' : start l v ≤ stop l v := (stop_eq l v).symm ▸ Nat.le_add_right ..
      exact ((h.emit_perm v).append hrest.1).trans (between_cut ht.entries hfrom' hle)

/-- A table that is there is of some such size, if its size is an `unsigned long`. -/
theorem DictHt.Wf.exists_ofPow (h : ht.Wf hash) (hne : ht.table ≠ []) (hfit : ht.size < 2 ^ 64)
    (hnodup : (ht.entries.map Prod.fst).Nodup) : ∃ k, ht.OfPow hash k := by
  obtain ⟨k, hk⟩ := h.pow.resolve_left hne
  exact ⟨k, h, hk, (Nat.pow_lt_pow_iff_right (by decide)).mp (hk ▸ hfit), hnodup⟩

end

/-! ### A dictionary -/

section
variable {K V : Type} {hash : K → Nat} {d : Dict K V}

/-- The sizes of the tables are `unsigned long`s. -/
def Dict.Fits (d : Dict K V) : Prop := d.ht0.size < 2 ^ 64 ∧ d.ht1.size < 2 ^ 64

/-- What a step of a scan that goes by blocks of `2 ^ (64 - k)` ranks does at `v`. -/
structure Scans (hash : K → Nat) (es : List (K × V)) (k : Nat) (v : ULong) (r : List (K × V) × ULong) : Prop where
  covers : ∀ e ∈ es, rank v ≤ hashRank (hash e.1) → hashRank (hash e.1) < limit r.2 → e ∈ r.1
  advances : rank v < limit r.2
  aligned : 2 ^ (64 - k) ∣ rank r.2
  exact : 2 ^ (64 - k) ∣ rank v → r.1.Perm (between hash es (rank v) (limit r.2))

/-- It is enough to emit the block, and to go to its end. -/
theorem Scans.of_block {es : List (K × V)} {k : Nat} {v : ULong} {r : List (K × V) × ULong}
    (hr : r.1.Perm (between hash es (start k v) (stop k v))) (hlim : limit r.2 = stop k v)
    (haligned : 2 ^ (64 - k) ∣ rank r.2) : Scans hash es k v r where
  covers e he hlo hhi := hr.mem_iff.mpr (mem_between.mpr ⟨he, (start_le k v).trans hlo, hlim ▸ hhi⟩)
  advances := hlim ▸ lt_stop k v
  aligned := haligned
  exact hv := by rw [hlim, ← start_eq_of_dvd hv]; exact hr

theorem between_perm {xs ys : List (K × V)} (h : xs.Perm ys) (lo hi : Nat) :
    (between hash xs lo hi).Perm (between hash ys lo hi) := h.filter _

/-- A bucket of the smaller table and its share of the larger one. -/
theorem scans_two {t0 t1 : DictHt K V} {k l : Nat} (h0 : t0.OfPow hash k) (h1 : t1.OfPow hash l)
    (hle : t0.size ≤ t1.size) (hes : d.entries.Perm (t0.entries ++ t1.entries)) (v : ULong) :
    Scans hash d.entries k v
      (t0.emit v ++ (scanExpansions t1 t0.mask t1.size v).1, (scanExpansions t1 t0.mask t1.size v).2) := by
  have hkl : k ≤ l := (Nat.pow_le_pow_iff_right (by decide)).mp (h0.size ▸ h1.size ▸ hle)
  have hsize : t1.size * 2 ^ (64 - l) = 2 ^ 64 := by
    rw [h1.size, ← Nat.pow_add, Nat.add_sub_cancel' (Nat.le_of_lt h1.le)]
  have hfuel : stop k v ≤ start l v + t1.size * 2 ^ (64 - l) := by
    rw [hsize]
    exact (stop_le_two_pow k v).trans (Nat.le_add_left ..)
  obtain ⟨hrest, hlim, haligned⟩ := scanExpansions_spec h1 hkl hfuel
  rw [← h0.mask_eq] at hrest hlim haligned
  have hemit := h0.emit_perm v
  refine ⟨fun e he hlo hhi => ?_, hlim ▸ lt_stop k v, haligned, fun hv => ?_⟩
  · rw [hlim] at hhi
    rcases List.mem_append.mp (hes.mem_iff.mp he) with he | he
    · exact List.mem_append_left _ (hemit.mem_iff.mpr (mem_between.mpr ⟨he, (start_le k v).trans hlo, hhi⟩))
    · exact List.mem_append_right _ (hrest.mem_iff.mpr (mem_between.mpr ⟨he, (start_le l v).trans hlo, hhi⟩))
  · have hl : 2 ^ (64 - l) ∣ rank v := (Nat.pow_dvd_pow 2 (by omega)).trans hv
    rw [start_eq_of_dvd hv] at hemit
    rw [start_eq_of_dvd hl] at hrest
    rw [hlim]
    refine (hemit.append hrest).trans ?_
    rw [← between_append]
    exact between_perm hes.symm _ _

/-- **A step of the scan**, whatever the dictionary is like at that moment. -/
theorem Dict.scan_spec (h : d.Wf hash) (hfit : d.Fits) : ∃ k < 64, ∀ v, Scans hash d.entries k v (d.scan v) := by
  have hnodup := h.nodup
  rw [Dict.keys_eq] at hnodup
  have hnd0 := (List.nodup_append.mp hnodup).1
  have hnd1 := (List.nodup_append.mp hnodup).2.1
  by_cases hsize : d.size = 0
  · have hnil : d.entries = [] := List.eq_nil_of_length_eq_zero (h.size_eq ▸ hsize)
    refine ⟨0, by decide, fun v => ?_⟩
    rw [Dict.scan, if_pos hsize, hnil]
    refine ⟨by simp, by simpa [limit] using rank_lt v, ?_, fun _ => .refl _⟩
    rw [show rank (0 : ULong) = 0 from rank_zero]
    exact Nat.dvd_zero _
  · by_cases hre : d.isRehashing = true
    · obtain ⟨hne0, hne1⟩ := h.rehashing (Option.isSome_iff_ne_none.mp hre)
      obtain ⟨k, hk⟩ := h.ht0.exists_ofPow hne0 hfit.1 hnd0
      obtain ⟨l, hl⟩ := h.ht1.exists_ofPow hne1 hfit.2 hnd1
      by_cases hgt : d.ht0.size > d.ht1.size
      · refine ⟨l, hl.le, fun v => ?_⟩
        simp only [Dict.scan, if_neg hsize, hre, hgt, if_true, Bool.not_true, Bool.false_eq_true, if_false]
        exact scans_two hl hk (Nat.le_of_lt hgt) List.perm_append_comm v
      · refine ⟨k, hk.le, fun v => ?_⟩
        simp only [Dict.scan, if_neg hsize, hre, hgt, Bool.not_true, Bool.false_eq_true, if_false]
        exact scans_two hk hl (Nat.le_of_not_gt hgt) (.refl _) v
    · have hidle := h.idle (Dict.not_isRehashing_iff.mp hre)
      have hes : d.entries = d.ht0.entries := by
        rw [Dict.entries, hidle]
        exact List.append_nil _
      have hne : d.ht0.table ≠ [] := by
        intro hnil
        rw [h.size_eq, hes, DictHt.entries, hnil] at hsize
        exact hsize rfl
      obtain ⟨k, hk⟩ := h.ht0.exists_ofPow hne hfit.1 hnd0
      refine ⟨k, hk.le, fun v => ?_⟩
      rw [Dict.scan, if_neg hsize, if_pos (by simpa using hre), hk.mask_eq, nextCursor_mask, hes]
      exact .of_block (hk.emit_perm v) (limit_next (Nat.le_of_lt hk.le) v) (dvd_rank_next (Nat.le_of_lt hk.le) v)

/-- Two steps one after the other. -/
theorem Scans.trans {es : List (K × V)} {k : Nat} {v v₁ v₂ : ULong} {es₁ es₂ : List (K × V)}
    (h₁ : Scans hash es k v (es₁, v₁)) (hne : v₁ ≠ 0) (h₂ : Scans hash es k v₁ (es₂, v₂)) :
    Scans hash es k v (es₁ ++ es₂, v₂) := by
  have hlim : limit v₁ = rank v₁ := if_neg hne
  have hadv₁ : rank v < limit v₁ := h₁.advances
  have hadv₂ : rank v₁ < limit v₂ := h₂.advances
  rw [hlim] at hadv₁
  refine ⟨fun e he hlo hhi => ?_, Nat.lt_trans hadv₁ hadv₂, h₂.aligned, fun hv => ?_⟩
  · by_cases he₁ : hashRank (hash e.1) < rank v₁
    · exact List.mem_append_left _ (h₁.covers e he hlo (hlim.symm ▸ he₁))
    · exact List.mem_append_right _ (h₂.covers e he (Nat.le_of_not_lt he₁) hhi)
  · have hfirst := h₁.exact hv
    rw [hlim] at hfirst
    exact (hfirst.append (h₂.exact h₁.aligned)).trans (between_cut es hadv₁.le hadv₂.le)

end

/-! ### A call -/

/-- The loop of `SlotsMGRT_Scan` takes some steps, one at least. -/
theorem scanLoop_spec {hash : Bytes → Nat} {d : Dict Bytes UInt32} {k : Nat}
    (h : ∀ v, Scans hash d.entries k v (d.scan v)) (count loops : Nat) (v : ULong) (l : List Bytes) :
    ∃ es v', scanLoop d count loops v l = (v', l ++ es.map Prod.fst) ∧ Scans hash d.entries k v (es, v') := by
  induction loops generalizing v l with
  | zero => exact ⟨_, _, rfl, h v⟩
  | succ loops ih =>
    simp only [scanLoop]
    split
    next hmore =>
      obtain ⟨es, v', hl, hscan⟩ := ih (d.scan v).2 (l ++ (d.scan v).1.map Prod.fst)
      refine ⟨(d.scan v).1 ++ es, v', ?_, (h v).trans hmore.1 hscan⟩
      rw [hl, List.append_assoc, List.map_append]
    next => exact ⟨_, _, rfl, h v⟩

/-- The calls on a dictionary go by blocks of `2 ^ (64 - k)` ranks. -/
def ScansBy (hash : Bytes → Nat) (d : Dict Bytes UInt32) (k : Nat) : Prop :=
  ∀ count v, ∃ es v', slotsmgrtScan d count v = (v', es.map Prod.fst) ∧ Scans hash d.entries k v (es, v')

/-- **A call of `SlotsMGRT_Scan`**, whatever its count. -/
theorem slotsmgrtScan_spec {hash : Bytes → Nat} {d : Dict Bytes UInt32} (h : d.Wf hash) (hfit : d.Fits) :
    ∃ k < 64, ScansBy hash d k := by
  obtain ⟨k, hk, hscan⟩ := d.scan_spec h hfit
  exact ⟨k, hk, fun count v => scanLoop_spec hscan count (moreLoops count) v []⟩

end RedisXSlot
