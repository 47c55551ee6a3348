import RedisXSlot.SlotIndexProofs
import RedisXSlot.Tag

/-! The keys that share a tag.

The loop of `SlotsMGRT_TagKeys` starts at the first node whose score is the checksum and
stops at the first other one. The list is sorted, so it meets every such node: of a
well-formed index these are the tagged keys with the checksum, each once. -/
namespace RedisXSlot

namespace Skiplist
variable {z : Skiplist} {height : Nat → Nat} {pre suf : List Nat}

/-- A walk follows the chain as long as the score is right. -/
theorem walk_eq {crc : Int} {next : Option Nat} {ids : List Nat} (hnext : next = ids.head?)
    (hlinks : ∀ x xs, ids = x :: xs → Chain.Links (z.forward 0) x xs) {fuel : Nat} (hf : ids.length ≤ fuel) :
    z.walk crc fuel next = (ids.takeWhile fun x => z.score x = crc).map z.member := by
  induction ids generalizing next fuel with
  | nil =>
    subst hnext
    cases fuel <;> rfl
  | cons x xs ih =>
    subst hnext
    obtain ⟨fuel, rfl⟩ : ∃ m, fuel = m + 1 := ⟨fuel - 1, by simp only [List.length_cons] at hf; omega⟩
    have hx := hlinks x xs rfl
    rw [List.head?_cons, walk]
    by_cases hs : z.score x = crc
    · have htail : ∀ y ys, xs = y :: ys → Chain.Links (z.forward 0) y ys := by
        rintro y ys rfl
        exact hx.2
      rw [if_pos hs, ih hx.next_eq htail (by simpa using hf)]
      simp [hs]
    · simp [hs]

/-- In a list whose scores do not fall, those equal to `crc` come together. -/
theorem filter_eq_takeWhile {crc : Int} {ids : List Nat} (hs : ids.Pairwise fun x y => z.score x ≤ z.score y)
    (hge : ∀ x ∈ ids, crc ≤ z.score x) :
    ids.filter (fun x => z.score x = crc) = ids.takeWhile fun x => z.score x = crc := by
  induction ids with
  | nil => rfl
  | cons x xs ih =>
    obtain ⟨hle, hs⟩ := List.pairwise_cons.mp hs
    by_cases hx : z.score x = crc
    · simp only [hx, decide_true, List.filter_cons_of_pos, List.takeWhile_cons_of_pos]
      rw [ih hs fun y hy => hge y (List.mem_cons_of_mem x hy)]
    · have hgt : crc < z.score x := lt_of_le_of_ne (hge x (List.mem_cons_self ..)) (Ne.symm hx)
      have hnone : xs.filter (fun y => z.score y = crc) = [] := by
        refine List.filter_eq_nil_iff.mpr fun y hy => ?_
        have := hle y hy
        simp
        omega
      simp [hx, hnone]

/-- **The loop collects the members with the checksum.** -/
theorem taggedKeys_eq {items : List Item} (h : z.Represents items) (crc : UInt32) :
    z.taggedKeys crc = (items.filter fun item => item.1 = (crc.toNat : Int)).map Prod.snd := by
  obtain ⟨height, ids, hwf, rfl, hs⟩ := h
  obtain ⟨pre, suf, rfl, hpre, hsuf⟩ := @exists_split z ids hs (fun x => z.score x < crc.toNat) (by
    intro x y hxy hy
    have hle := hxy.fst_le
    simp only [item, decide_eq_true_eq] at hle hy ⊢
    omega)
  simp only [decide_eq_true_eq, decide_eq_false_iff_not, not_lt] at hpre hsuf
  have hfirst : z.firstInRange ⟨crc.toNat, crc.toNat, false, false⟩ =
      suf.head?.filter fun x => ZRangeSpec.lteMax ⟨crc.toNat, crc.toNat, false, false⟩ (z.score x) :=
    firstInRange_spec hwf hs (fun x hx => by simpa [ZRangeSpec.gteMin] using hpre x hx)
      (fun x hx => by simpa [ZRangeSpec.gteMin] using hsuf x hx)
  have hlinks := hwf.links 0
  rw [List.filter_append, (filter_level_zero hwf).1, (filter_level_zero hwf).2] at hlinks
  have hwalk : z.taggedKeys crc = (suf.takeWhile fun x => z.score x = crc.toNat).map z.member := by
    have hlen : suf.length ≤ z.length := by rw [hwf.length, List.length_append]; omega
    rw [taggedKeys, hfirst]
    cases suf with
    | nil => cases z.length <;> rfl
    | cons x xs =>
      by_cases hx : z.score x = crc.toNat
      · refine walk_eq (by simp [Option.filter, ZRangeSpec.lteMax, hx]) (fun y ys he => ?_) hlen
        cases he
        exact (Chain.Links.tail hlinks).2
      · have hgt : ¬ z.score x ≤ crc.toNat := by
          have := hsuf x (List.mem_cons_self ..)
          omega
        have hnone : (some x).filter (fun x => ZRangeSpec.lteMax ⟨crc.toNat, crc.toNat, false, false⟩ (z.score x)) = none := by
          simp [Option.filter, ZRangeSpec.lteMax, hgt]
        rw [List.head?_cons, hnone, List.takeWhile_cons_of_neg (by simpa using hx)]
        cases z.length <;> rfl
  have hscores : suf.Pairwise fun x y => z.score x ≤ z.score y := by
    rw [List.map_append] at hs
    exact score_le (List.pairwise_append.mp hs).2.1
  have hprenone : pre.filter (fun x => z.score x = crc.toNat) = [] :=
    List.filter_eq_nil_iff.mpr fun x hx => by simpa using (hpre x hx).ne
  have hall : (pre ++ suf).filter (fun x => z.score x = crc.toNat) = suf.filter fun x => z.score x = crc.toNat := by
    rw [List.filter_append, hprenone, List.nil_append]
  rw [hwalk, ← filter_eq_takeWhile hscores hsuf, ← hall, List.filter_map, List.map_map]
  rfl

end Skiplist

/-- **What `SlotsMGRT_TagKeys` collects**: the indexed keys whose tag has the checksum. -/
theorem DbSlotInfo.Wf.mem_taggedKeys {hash : Bytes → Nat} {conf : SlotsMetaInfo} {info : DbSlotInfo}
    (h : info.Wf hash conf) (crc : UInt32) (key : Bytes) :
    key ∈ info.tagged_key_list.taggedKeys crc ↔ hasTag key = true ∧ slotsCrc key = crc ∧ key ∈ info.keys conf := by
  obtain ⟨items, hz, hitems⟩ := h.tagged
  rw [Skiplist.taggedKeys_eq hz, List.mem_map]
  constructor
  · rintro ⟨item, hitem, rfl⟩
    obtain ⟨hmem, hcrc⟩ := List.mem_filter.mp hitem
    obtain ⟨ht, hi, hk⟩ := (hitems item).mp hmem
    rw [hi, decide_eq_true_eq] at hcrc
    exact ⟨ht, UInt32.toNat_inj.mp (Int.ofNat_inj.mp hcrc), hk⟩
  · rintro ⟨ht, rfl, hk⟩
    refine ⟨tagItem key, List.mem_filter.mpr ⟨(hitems _).mpr ⟨ht, rfl, hk⟩, ?_⟩, rfl⟩
    simp [tagItem]

theorem DbSlotInfo.Wf.nodup_taggedKeys {hash : Bytes → Nat} {conf : SlotsMetaInfo} {info : DbSlotInfo}
    (h : info.Wf hash conf) (crc : UInt32) : (info.tagged_key_list.taggedKeys crc).Nodup := by
  obtain ⟨items, hz, hitems⟩ := h.tagged
  rw [Skiplist.taggedKeys_eq hz]
  refine (hz.nodup.filter _).map_on fun a ha b hb hab => ?_
  rw [((hitems a).mp (List.mem_of_mem_filter ha)).2.1, ((hitems b).mp (List.mem_of_mem_filter hb)).2.1, hab]

end RedisXSlot
