import RedisXSlot.SharedDict
import RedisXSlot.DictProofs

/-! A dictionary is a finite map, whether iterators hold it or not.

Every operation may rehash a step first, expand the table, or both; neither changes the
entries. What is left of an operation is what it does to the map. -/
namespace RedisXSlot
variable {K V : Type} {hash : K → Nat}

/-! ### Steps that only move entries -/

namespace SharedDict
variable {d : SharedDict K V}

theorem rehashStep_moved (h : d.toDict.Wf hash) :
    Dict.Moved hash d.toDict (d.rehashStep hash).toDict ∧ (d.rehashStep hash).iterators = d.iterators := by
  unfold rehashStep
  split
  · exact ⟨Dict.rehash_moved h 1, rfl⟩
  · exact ⟨.refl h, rfl⟩

/-- While an iterator holds the dictionary it is not rehashed. -/
theorem rehashStep_held (hash : K → Nat) (hheld : d.iterators ≠ 0) : d.rehashStep hash = d :=
  if_neg fun h => hheld h.2

/-- A new entry goes into the table that takes new entries. -/
def pushed (hash : K → Nat) (d : SharedDict K V) (key : K) (val : V) : SharedDict K V :=
  if d.isRehashing then { d with ht1 := d.ht1.push (hash key &&& d.ht1.sizemask) (key, val) }
  else { d with ht0 := d.ht0.push (hash key &&& d.ht0.sizemask) (key, val) }

theorem pushed_iterators (hash : K → Nat) (d : SharedDict K V) (key : K) (val : V) :
    (d.pushed hash key val).iterators = d.iterators := by
  unfold pushed
  split <;> rfl

theorem pushed_spec (h : d.toDict.Wf hash) (hne : d.ht0.table ≠ []) {key : K} (hk : key ∉ d.keys) (val : V) :
    (d.pushed hash key val).toDict.Wf hash ∧ (d.pushed hash key val).entries.Perm ((key, val) :: d.entries) := by
  have hwf : ∀ d' : Dict K V, d'.entries.Perm ((key, val) :: d.entries) → d'.keys.Nodup := fun d' hp =>
    (hp.map Prod.fst).nodup_iff.mpr (List.nodup_cons.mpr ⟨hk, h.nodup⟩)
  unfold pushed
  by_cases hr : d.isRehashing = true
  · rw [if_pos hr]
    have hne1 := (h.rehashing fun hn => Dict.not_isRehashing_iff.mpr hn hr).2
    have hperm : (Dict.entries { d.toDict with ht1 := d.ht1.push (hash key &&& d.ht1.sizemask) (key, val) }).Perm
        ((key, val) :: d.entries) :=
      ((DictHt.push_perm h.ht1 hne1 (key, val)).append_left _).trans List.perm_middle
    exact ⟨⟨h.ht0, h.ht1.push hne1 (key, val), hwf _ hperm, fun hn => absurd hr (Dict.not_isRehashing_iff.mpr hn),
      fun _ => ⟨hne, DictHt.push_table_ne_nil _ hne1 _ _⟩⟩, hperm⟩
  · rw [if_neg hr]
    have hperm : (Dict.entries { d.toDict with ht0 := d.ht0.push (hash key &&& d.ht0.sizemask) (key, val) }).Perm
        ((key, val) :: d.entries) :=
      (DictHt.push_perm h.ht0 hne (key, val)).append_right d.ht1.entries
    exact ⟨⟨h.ht0.push hne (key, val), h.ht1, hwf _ hperm, h.idle,
      fun hn => absurd (Dict.not_isRehashing_iff.mp hr) hn⟩, hperm⟩

end SharedDict

/-- The entries of a table around a bucket. -/
theorem DictHt.exists_around {ht : DictHt K V} {i : Nat} (hi : i < ht.table.length) (used : Nat) : ∃ l r, ht.entries = l ++ (ht.bucket i ++ r) ∧
    ∀ c, DictHt.entries ⟨ht.table.set i c, used⟩ = l ++ (c ++ r) := by
  refine ⟨(ht.table.take i).flatten, (ht.table.drop (i + 1)).flatten, ?_, ?_⟩
  · have hsplit : ht.table = ht.table.take i ++ ht.bucket i :: ht.table.drop (i + 1) := by
      rw [DictHt.bucket, List.getD_eq_getElem _ _ hi, List.getElem_cons_drop, List.take_append_drop]
    unfold DictHt.entries
    conv_lhs => rw [hsplit]
    rw [List.flatten_append, List.flatten_cons]
  · intro c
    unfold DictHt.entries
    rw [List.set_eq_take_append_cons_drop, if_pos hi, List.flatten_append, List.flatten_cons]

variable [DecidableEq K]

/-! ### Finding entries -/

namespace DictHt
variable {ht : DictHt K V} {key : K}

theorem find_eq_none_iff (h : ht.Wf hash) : ht.find hash key = none ↔ key ∉ ht.entries.map Prod.fst := by
  rw [find, List.find?_eq_none]
  constructor
  · intro hnone hk
    obtain ⟨e, he, rfl⟩ := List.mem_map.mp hk
    exact hnone e (h.mem_bucket he) (decide_eq_true rfl)
  · intro hk e he heq
    exact hk (of_decide_eq_true heq ▸ List.mem_map_of_mem (mem_entries_of_bucket he))

theorem mem_of_find {e : K × V} (hf : ht.find hash key = some e) : e ∈ ht.entries ∧ e.1 = key := by
  unfold find at hf
  exact ⟨mem_entries_of_bucket (List.mem_of_find?_eq_some hf), by simpa using List.find?_some hf⟩

theorem has_eq (ht : DictHt K V) (key : K) : ht.has hash key = (ht.find hash key).isSome := by
  rw [has, find, Bool.eq_iff_iff, List.any_eq_true, List.find?_isSome]

theorem map_fst_setFirst (key : K) (val : V) (chain : List (K × V)) :
    (setFirst key val chain).map Prod.fst = chain.map Prod.fst := by
  induction chain with
  | nil => rfl
  | cons e chain ih =>
    unfold setFirst
    split
    · rfl
    · rw [List.map_cons, List.map_cons, ih]

end DictHt

/-! ### The map -/

namespace SharedDict
variable {d : SharedDict K V} {m : Finmap fun _ : K => V}

/-- The entries of the dictionary are those of the map. -/
structure Represents (hash : K → Nat) (d : SharedDict K V) (m : Finmap fun _ : K => V) : Prop where
  wf : d.toDict.Wf hash
  mem : ∀ e : K × V, e ∈ d.entries ↔ m.lookup e.1 = some e.2

theorem Represents.of_moved {d' : SharedDict K V} (h : d.Represents hash m) (hm : Dict.Moved hash d.toDict d'.toDict) :
    d'.Represents hash m :=
  ⟨hm.wf, fun e => hm.perm.mem_iff.trans (h.mem e)⟩

theorem Represents.mem_keys (h : d.Represents hash m) (key : K) : key ∈ d.keys ↔ key ∈ m := by
  rw [Finmap.mem_iff]
  constructor
  · intro hk
    obtain ⟨e, he, rfl⟩ := List.mem_map.mp hk
    exact ⟨e.2, (h.mem e).mp he⟩
  · intro hk
    obtain ⟨val, hval⟩ := hk
    exact List.mem_map.mpr ⟨(key, val), (h.mem (key, val)).mpr hval, rfl⟩

theorem Represents.size_eq (h : d.Represents hash m) : d.size = m.keys.card := by
  rw [h.wf.size_eq_keys, ← List.toFinset_card_of_nodup h.wf.nodup]
  congr 1
  ext key
  rw [List.mem_toFinset, h.mem_keys, Finmap.mem_keys]

theorem represents_create : SharedDict.Represents hash (⟨.create, 0⟩ : SharedDict K V) ∅ := by
  refine ⟨Dict.wf_create hash, fun e => ?_⟩
  rw [Finmap.lookup_empty]
  constructor
  · intro he
    cases he
  · intro he
    cases he

/-- The index of a new key is in the table that takes new entries. -/
theorem keyIndex_spec (h : d.toDict.Wf hash) (key : K) :
    ∃ d' : SharedDict K V, d.expandIfNeeded = some d'.toDict ∧ Dict.Moved hash d.toDict d'.toDict ∧
      d'.iterators = d.iterators ∧ d'.ht0.table ≠ [] ∧
      (key ∈ d.keys → ∃ e ∈ d.entries, e.1 = key ∧ d.keyIndex hash key = (d', none, some e)) ∧
      (key ∉ d.keys → d.keyIndex hash key =
        (d', some (hash key &&& (if d'.isRehashing then d'.ht1 else d'.ht0).sizemask), none)) := by
  obtain ⟨d', he, hm, hne⟩ := Dict.expandIfNeeded_moved h
  refine ⟨{ d with toDict := d' }, he, hm, rfl, hne, ?_⟩
  have hkeys : key ∈ d.keys ↔ key ∈ d'.keys := hm.keys_perm.mem_iff.symm
  have hmem0 : d'.ht0.find hash key = none ↔ key ∉ d'.ht0.entries.map Prod.fst :=
    DictHt.find_eq_none_iff hm.wf.ht0
  have hmem1 : d'.ht1.find hash key = none ↔ key ∉ d'.ht1.entries.map Prod.fst :=
    DictHt.find_eq_none_iff hm.wf.ht1
  unfold keyIndex
  simp only [he]
  rw [hkeys, Dict.keys_eq, List.mem_append]
  cases h0 : d'.ht0.find hash key with
  | some e =>
    obtain ⟨hin, hk⟩ := DictHt.mem_of_find h0
    have hk0 : key ∈ d'.ht0.entries.map Prod.fst := hk ▸ List.mem_map_of_mem hin
    exact ⟨fun _ => ⟨e, hm.perm.mem_iff.mp (List.mem_append_left _ hin), hk, rfl⟩, fun hout => absurd (Or.inl hk0) hout⟩
  | none =>
    have hout0 := hmem0.mp h0
    by_cases hr : d'.isRehashing = true
    · simp only [hr, Bool.not_true, Bool.false_eq_true, if_false, if_true]
      cases h1 : d'.ht1.find hash key with
      | some e =>
        obtain ⟨hin, hk⟩ := DictHt.mem_of_find h1
        have hk1 : key ∈ d'.ht1.entries.map Prod.fst := hk ▸ List.mem_map_of_mem hin
        exact ⟨fun _ => ⟨e, hm.perm.mem_iff.mp (List.mem_append_right _ hin), hk, rfl⟩,
          fun hout => absurd (Or.inr hk1) hout⟩
      | none => exact ⟨fun hin => absurd hin (not_or.mpr ⟨hout0, hmem1.mp h1⟩), fun _ => rfl⟩
    · have hout1 := Dict.not_mem_keys_of_ht1 hm.wf hr key
      rw [Bool.not_eq_true] at hr
      refine ⟨fun hin => absurd hin (not_or.mpr ⟨hout0, hout1⟩), fun _ => ?_⟩
      simp only [hr, Bool.not_false, if_true, Bool.false_eq_true, if_false]

/-- **Adding** puts in an entry for a key that is new, and finds the one that is there. -/
theorem addRaw_spec (h : d.toDict.Wf hash) (key : K) (val : V) :
    ∃ d' : SharedDict K V, (d.rehashStep hash).expandIfNeeded = some d'.toDict ∧ Dict.Moved hash d.toDict d'.toDict ∧
      d'.iterators = d.iterators ∧ d'.ht0.table ≠ [] ∧
      (key ∈ d.keys → ∃ e ∈ d.entries, e.1 = key ∧ d.addRaw hash key val = (d', false, some e)) ∧
      (key ∉ d.keys → d.addRaw hash key val = (d'.pushed hash key val, true, none)) := by
  obtain ⟨hstep, hheld⟩ := rehashStep_moved h
  obtain ⟨d', he, hm, hit, hne, hin, hout⟩ := keyIndex_spec hstep.wf key
  refine ⟨d', he, hstep.trans hm, hit.trans hheld, hne, ?_, ?_⟩
  · intro hk
    obtain ⟨e, he, heq, hindex⟩ := hin (hstep.keys_perm.mem_iff.mpr hk)
    refine ⟨e, hstep.perm.mem_iff.mp he, heq, ?_⟩
    unfold addRaw
    rw [hindex]
  · intro hk
    unfold addRaw pushed
    rw [hout (mt hstep.keys_perm.mem_iff.mp hk)]
    by_cases hr : d'.isRehashing = true
    · simp only [hr, if_true]
    · rw [Bool.not_eq_true] at hr
      simp only [hr, Bool.false_eq_true, if_false]

theorem Represents.pushed (h : d.Represents hash m) (hne : d.ht0.table ≠ []) {key : K} (hk : key ∉ m) (val : V) :
    (d.pushed hash key val).Represents hash (m.insert key val) := by
  obtain ⟨hwf, hperm⟩ := pushed_spec h.wf hne (mt (h.mem_keys key).mp hk) val
  refine ⟨hwf, fun e => ?_⟩
  rw [hperm.mem_iff, List.mem_cons]
  by_cases he : e.1 = key
  · rw [he, Finmap.lookup_insert]
    constructor
    · intro hin
      cases hin with
      | inl heq => rw [heq]
      | inr hin => exact absurd ((h.mem_keys key).mp (he ▸ List.mem_map_of_mem hin)) hk
    · intro hval
      exact Or.inl (Prod.ext he (Option.some.inj hval).symm)
  · rw [Finmap.lookup_insert_of_ne _ he, ← h.mem]
    exact or_iff_right fun heq => he (heq ▸ rfl)

/-- **Adding** a key changes the map if the key is new. -/
theorem add_represents (h : d.Represents hash m) (key : K) (val : V) :
    (d.add hash key val).1.Represents hash (if key ∈ m then m else m.insert key val) ∧
      (d.add hash key val).2 = decide (key ∉ m) ∧ (d.add hash key val).1.iterators = d.iterators := by
  obtain ⟨d', -, hm, hit, hne, hin, hout⟩ := addRaw_spec h.wf key val
  have hrep := h.of_moved hm
  unfold add
  by_cases hk : key ∈ m
  · obtain ⟨e, -, -, hadd⟩ := hin ((h.mem_keys key).mpr hk)
    rw [hadd, if_pos hk]
    exact ⟨hrep, (decide_eq_false (not_not.mpr hk)).symm, hit⟩
  · rw [hout (mt (h.mem_keys key).mp hk), if_neg hk]
    exact ⟨hrep.pushed hne hk val, (decide_eq_true hk).symm, (pushed_iterators hash d' key val).trans hit⟩

end SharedDict

/-! ### Changing a value in place -/

namespace DictHt
variable {ht : DictHt K V} {key : K}

theorem mem_setFirst {chain : List (K × V)} (hd : (chain.map Prod.fst).Nodup) (hin : key ∈ chain.map Prod.fst) (val : V)
    (e : K × V) : e ∈ setFirst key val chain ↔ e = (key, val) ∨ e.1 ≠ key ∧ e ∈ chain := by
  induction chain with
  | nil => cases hin
  | cons f chain ih =>
    rw [List.map_cons, List.nodup_cons] at hd
    unfold setFirst
    split
    next hf =>
      rw [List.mem_cons, List.mem_cons, hf]
      constructor
      · intro he
        cases he with
        | inl he => exact Or.inl he
        | inr he => exact Or.inr ⟨fun hek => hd.1 (hf ▸ hek ▸ List.mem_map_of_mem he), Or.inr he⟩
      · intro he
        cases he with
        | inl he => exact Or.inl he
        | inr he => exact Or.inr (he.2.resolve_left fun hef => he.1 (hef ▸ hf))
    next hf =>
      have hin' : key ∈ chain.map Prod.fst := (List.mem_cons.mp hin).resolve_left fun heq => hf heq.symm
      rw [List.mem_cons, ih hd.2 hin', List.mem_cons]
      constructor
      · intro he
        rcases he with he | he | he
        · exact Or.inr ⟨he ▸ hf, Or.inl he⟩
        · exact Or.inl he
        · exact Or.inr ⟨he.1, Or.inr he.2⟩
      · intro he
        rcases he with he | ⟨hne, he | he⟩
        · exact Or.inr (Or.inl he)
        · exact Or.inl he
        · exact Or.inr (Or.inr ⟨hne, he⟩)

/-- **Setting a value** keeps the keys, in their order, and changes the one entry. -/
theorem setVal_spec (h : ht.Wf hash) (hd : (ht.entries.map Prod.fst).Nodup) (hin : key ∈ ht.entries.map Prod.fst)
    (val : V) :
    (ht.setVal hash key val).Wf hash ∧ (ht.setVal hash key val).entries.map Prod.fst = ht.entries.map Prod.fst ∧
      ∀ e, e ∈ (ht.setVal hash key val).entries ↔ e = (key, val) ∨ e.1 ≠ key ∧ e ∈ ht.entries := by
  obtain ⟨f, hf, hfk⟩ := List.mem_map.mp hin
  have hmem := h.mem_bucket hf
  rw [hfk] at hmem
  have hi : hash key &&& ht.sizemask < ht.table.length := by
    apply h.index_lt
    intro hnil
    simp [bucket, hnil] at hmem
  obtain ⟨l, r, hall, hset⟩ := exists_around hi ht.used
  have hset : (ht.setVal hash key val).entries =
      l ++ (setFirst key val (ht.bucket (hash key &&& ht.sizemask)) ++ r) := hset _
  have hchain : key ∈ (ht.bucket (hash key &&& ht.sizemask)).map Prod.fst := List.mem_map.mpr ⟨f, hmem, hfk⟩
  have hlen : (setFirst key val (ht.bucket (hash key &&& ht.sizemask))).length =
      (ht.bucket (hash key &&& ht.sizemask)).length := by
    rw [← List.length_map Prod.fst, map_fst_setFirst, List.length_map]
  rw [hall, List.map_append, List.map_append] at hd
  obtain ⟨-, hd', hl⟩ := List.nodup_append.mp hd
  obtain ⟨hdc, -, hr⟩ := List.nodup_append.mp hd'
  refine ⟨h.set hi ?_ (by rw [hlen]), ?_, ?_⟩
  · intro e he
    have hk : e.1 ∈ (ht.bucket (hash key &&& ht.sizemask)).map Prod.fst := by
      rw [← map_fst_setFirst key val]
      exact List.mem_map_of_mem he
    obtain ⟨e', he', heq⟩ := List.mem_map.mp hk
    rw [← heq]
    exact h.place _ e' he'
  · rw [hset, hall]
    simp only [List.map_append, map_fst_setFirst]
  · intro e
    have hle : e ∈ l → e.1 ≠ key := fun he => hl e.1 (List.mem_map_of_mem he) key (List.mem_append_left _ hchain)
    have hre : e ∈ r → e.1 ≠ key := fun he => (hr key hchain e.1 (List.mem_map_of_mem he)).symm
    rw [hset, hall]
    simp only [List.mem_append, mem_setFirst hdc hchain]
    tauto

end DictHt

namespace SharedDict
variable {d : SharedDict K V} {m : Finmap fun _ : K => V}

/-- Setting the value of an entry sets the value in the map. -/
theorem Represents.of_setVal {d' : SharedDict K V} (h : d.Represents hash m) {key : K} {val : V} (hwf : d'.toDict.Wf hash)
    (hmem : ∀ e, e ∈ d'.entries ↔ e = (key, val) ∨ e.1 ≠ key ∧ e ∈ d.entries) :
    d'.Represents hash (m.insert key val) := by
  refine ⟨hwf, fun e => ?_⟩
  rw [hmem]
  by_cases he : e.1 = key
  · rw [he, Finmap.lookup_insert]
    constructor
    · intro hin
      cases hin with
      | inl heq => rw [heq]
      | inr hin => exact absurd rfl hin.1
    · intro hval
      exact Or.inl (Prod.ext he (Option.some.inj hval).symm)
  · rw [Finmap.lookup_insert_of_ne _ he, ← h.mem]
    constructor
    · intro hin
      cases hin with
      | inl heq => exact absurd (congrArg Prod.fst heq) he
      | inr hin => exact hin.2
    · intro hin
      exact Or.inr ⟨he, hin⟩

theorem setVal_table_ne_nil {ht : DictHt K V} (hne : ht.table ≠ []) (key : K) (val : V) : (ht.setVal hash key val).table ≠ [] := by
  intro hnil
  have hlen := congrArg List.length hnil
  unfold DictHt.setVal at hlen
  rw [List.length_set] at hlen
  exact hne (List.eq_nil_of_length_eq_zero hlen)

theorem Represents.setVal_ht0 (h : d.Represents hash m) {key : K} (hin : key ∈ d.ht0.entries.map Prod.fst) (val : V) :
    SharedDict.Represents hash { d with ht0 := d.ht0.setVal hash key val } (m.insert key val) := by
  have hd := h.wf.nodup
  rw [Dict.keys_eq] at hd
  obtain ⟨hd0, -, hdis⟩ := List.nodup_append.mp hd
  obtain ⟨hwf, hkeys, hmem⟩ := DictHt.setVal_spec h.wf.ht0 hd0 hin val
  apply h.of_setVal
  · refine ⟨hwf, h.wf.ht1, ?_, h.wf.idle, fun hr => ⟨setVal_table_ne_nil (h.wf.rehashing hr).1 key val, (h.wf.rehashing hr).2⟩⟩
    rw [Dict.keys_eq, hkeys]
    exact hd
  · intro e
    have hout : e ∈ d.ht1.entries → e.1 ≠ key := fun he => (hdis key hin e.1 (List.mem_map_of_mem he)).symm
    simp only [Dict.entries, List.mem_append, hmem]
    tauto

theorem Represents.setVal_ht1 (h : d.Represents hash m) {key : K} (hin : key ∈ d.ht1.entries.map Prod.fst) (val : V) :
    SharedDict.Represents hash { d with ht1 := d.ht1.setVal hash key val } (m.insert key val) := by
  have hd := h.wf.nodup
  rw [Dict.keys_eq] at hd
  obtain ⟨-, hd1, hdis⟩ := List.nodup_append.mp hd
  obtain ⟨hwf, hkeys, hmem⟩ := DictHt.setVal_spec h.wf.ht1 hd1 hin val
  apply h.of_setVal
  · refine ⟨h.wf.ht0, hwf, ?_, ?_, fun hr => ⟨(h.wf.rehashing hr).1, setVal_table_ne_nil (h.wf.rehashing hr).2 key val⟩⟩
    · rw [Dict.keys_eq, hkeys]
      exact hd
    · intro hr
      have hreset := h.wf.idle hr
      rw [hreset] at hin
      cases hin
  · intro e
    have hout : e ∈ d.ht0.entries → e.1 ≠ key := fun he => hdis e.1 (List.mem_map_of_mem he) key hin
    simp only [Dict.entries, List.mem_append, hmem]
    tauto

/-- **Replacing** sets the value of the key in the map. -/
theorem replace_represents (h : d.Represents hash m) (key : K) (val : V) :
    (d.replace hash key val).1.Represents hash (m.insert key val) ∧
      (d.replace hash key val).2 = decide (key ∉ m) ∧ (d.replace hash key val).1.iterators = d.iterators := by
  obtain ⟨d', -, hm, hit, hne, hin, hout⟩ := addRaw_spec h.wf key val
  have hrep := h.of_moved hm
  unfold replace
  by_cases hk : key ∈ m
  · obtain ⟨e, -, -, hadd⟩ := hin ((h.mem_keys key).mpr hk)
    have hkeys := (hrep.mem_keys key).mpr hk
    rw [Dict.keys_eq, List.mem_append] at hkeys
    rw [hadd]
    cases h0 : d'.ht0.find hash key with
    | some f =>
      obtain ⟨hf, hfk⟩ := DictHt.mem_of_find h0
      simp only [h0]
      exact ⟨hrep.setVal_ht0 (List.mem_map.mpr ⟨f, hf, hfk⟩) val, (decide_eq_false (not_not.mpr hk)).symm, hit⟩
    | none =>
      have hk1 := hkeys.resolve_left ((DictHt.find_eq_none_iff hrep.wf.ht0).mp h0)
      simp only [h0]
      exact ⟨hrep.setVal_ht1 hk1 val, (decide_eq_false (not_not.mpr hk)).symm, hit⟩
  · rw [hout (mt (h.mem_keys key).mp hk)]
    exact ⟨hrep.pushed hne hk val, (decide_eq_true hk).symm, (pushed_iterators hash d' key val).trans hit⟩

/-! ### Finding and deleting -/

theorem Represents.lookup_of_find (h : d.Represents hash m) {ht : DictHt K V} {key : K} {e : K × V}
    (hsub : ht.entries ⊆ d.entries) (hf : ht.find hash key = some e) : (m.lookup key).map (Prod.mk key) = some e := by
  obtain ⟨hin, hk⟩ := DictHt.mem_of_find hf
  have hval := (h.mem e).mp (hsub hin)
  rw [hk] at hval
  rw [hval, ← hk]
  rfl

theorem Represents.lookup_none (h : d.Represents hash m) {key : K} (hk : key ∉ d.keys) :
    (m.lookup key).map (Prod.mk key) = none := by
  rw [Finmap.lookup_eq_none.mpr (mt (h.mem_keys key).mpr hk)]
  rfl

/-- **Finding** a key answers from the map. -/
theorem find_represents (h : d.Represents hash m) (key : K) :
    (d.find hash key).1.Represents hash m ∧ (d.find hash key).2 = (m.lookup key).map (Prod.mk key) ∧
      (d.find hash key).1.iterators = d.iterators := by
  unfold find
  split
  next hempty =>
    have hk : key ∉ d.keys := by
      intro hk
      have hlen := h.wf.size_eq_keys
      have hpos := List.length_pos_of_mem hk
      unfold Dict.size at hlen
      omega
    exact ⟨h, (h.lookup_none hk).symm, rfl⟩
  next =>
    obtain ⟨hstep, hit⟩ := rehashStep_moved h.wf
    have hrep := h.of_moved hstep
    cases h0 : (d.rehashStep hash).ht0.find hash key with
    | some e =>
      simp only [h0]
      exact ⟨hrep, (hrep.lookup_of_find (List.subset_append_left ..) h0).symm, hit⟩
    | none =>
      simp only [h0]
      have hout0 := (DictHt.find_eq_none_iff hrep.wf.ht0).mp h0
      by_cases hr : (d.rehashStep hash).isRehashing = true
      · simp only [hr, Bool.not_true, Bool.false_eq_true, if_false]
        refine ⟨hrep, ?_, hit⟩
        cases h1 : (d.rehashStep hash).ht1.find hash key with
        | some e => exact (hrep.lookup_of_find (List.subset_append_right ..) h1).symm
        | none =>
          have hout1 := (DictHt.find_eq_none_iff hrep.wf.ht1).mp h1
          symm
          apply hrep.lookup_none
          rw [Dict.keys_eq, List.mem_append]
          exact not_or.mpr ⟨hout0, hout1⟩
      · have hout1 := Dict.not_mem_keys_of_ht1 hrep.wf hr key
        rw [Bool.not_eq_true] at hr
        simp only [hr, Bool.not_false, if_true]
        refine ⟨hrep, ?_, hit⟩
        symm
        apply hrep.lookup_none
        rw [Dict.keys_eq, List.mem_append]
        exact not_or.mpr ⟨hout0, hout1⟩

theorem Represents.erase_of_not_mem (h : d.Represents hash m) {key : K} (hk : key ∉ d.keys) :
    d.Represents hash (m.erase key) := by
  have hsame : m.erase key = m := by
    apply Finmap.ext_lookup
    intro k
    by_cases hkk : k = key
    · rw [hkk, Finmap.lookup_erase, Finmap.lookup_eq_none.mpr (mt (h.mem_keys key).mpr hk)]
    · rw [Finmap.lookup_erase_ne hkk]
  rw [hsame]
  exact h

theorem Represents.of_unlink {d' : SharedDict K V} (h : d.Represents hash m) {key : K} {e : K × V} (he : e.1 = key)
    (hwf : d'.toDict.Wf hash) (hperm : (e :: d'.entries).Perm d.entries) : d'.Represents hash (m.erase key) := by
  refine ⟨hwf, fun f => ?_⟩
  have hnodup := (hperm.map Prod.fst).nodup_iff.mpr h.wf.nodup
  rw [List.map_cons, List.nodup_cons, he] at hnodup
  have hmem : f ∈ d.entries ↔ f = e ∨ f ∈ d'.entries := hperm.mem_iff.symm.trans List.mem_cons
  by_cases hf : f.1 = key
  · rw [hf, Finmap.lookup_erase]
    constructor
    · intro hin
      exact absurd (hf ▸ List.mem_map_of_mem hin) hnodup.1
    · intro hval
      cases hval
  · rw [Finmap.lookup_erase_ne hf, ← h.mem, hmem]
    have hne : f ≠ e := by
      intro hfe
      apply hf
      rw [hfe]
      exact he
    exact (or_iff_right hne).symm

theorem Represents.unlink_ht0 (h : d.Represents hash m) {key : K} {e : K × V} (hf : d.ht0.find hash key = some e) :
    SharedDict.Represents hash { d with ht0 := d.ht0.unlink hash key } (m.erase key) := by
  have hhas : d.ht0.has hash key = true := by
    rw [DictHt.has_eq, hf]
    rfl
  obtain ⟨f, hfk, hperm⟩ := DictHt.unlink_perm h.wf.ht0 hhas
  have hall : (f :: Dict.entries { d.toDict with ht0 := d.ht0.unlink hash key }).Perm d.entries :=
    hperm.append_right d.ht1.entries
  have hnodup := (hall.map Prod.fst).nodup_iff.mpr h.wf.nodup
  exact h.of_unlink hfk ⟨h.wf.ht0.unlink hhas, h.wf.ht1, (List.nodup_cons.mp hnodup).2, h.wf.idle, fun hr =>
    ⟨DictHt.unlink_table_ne_nil (h.wf.rehashing hr).1 key, (h.wf.rehashing hr).2⟩⟩ hall

theorem Represents.unlink_ht1 (h : d.Represents hash m) (hr : d.isRehashing = true) {key : K} {e : K × V}
    (hf : d.ht1.find hash key = some e) :
    SharedDict.Represents hash { d with ht1 := d.ht1.unlink hash key } (m.erase key) := by
  have hhas : d.ht1.has hash key = true := by
    rw [DictHt.has_eq, hf]
    rfl
  obtain ⟨f, hfk, hperm⟩ := DictHt.unlink_perm h.wf.ht1 hhas
  have hall : (f :: Dict.entries { d.toDict with ht1 := d.ht1.unlink hash key }).Perm d.entries :=
    List.perm_middle.symm.trans (hperm.append_left d.ht0.entries)
  have hnodup := (hall.map Prod.fst).nodup_iff.mpr h.wf.nodup
  exact h.of_unlink hfk ⟨h.wf.ht0, h.wf.ht1.unlink hhas, (List.nodup_cons.mp hnodup).2,
    fun hn => absurd hr (Dict.not_isRehashing_iff.mpr hn), fun hr' =>
      ⟨(h.wf.rehashing hr').1, DictHt.unlink_table_ne_nil (h.wf.rehashing hr').2 key⟩⟩ hall

/-- **Deleting** takes the key out of the map and hands out its entry. -/
theorem unlink_represents (h : d.Represents hash m) (key : K) :
    (d.unlink hash key).1.Represents hash (m.erase key) ∧
      (d.unlink hash key).2 = (m.lookup key).map (Prod.mk key) ∧ (d.unlink hash key).1.iterators = d.iterators := by
  unfold unlink
  split
  next hempty =>
    have hk : key ∉ d.keys := by
      intro hk
      have hlen := h.wf.size_eq_keys
      have hpos := List.length_pos_of_mem hk
      unfold Dict.size at hlen
      omega
    exact ⟨h.erase_of_not_mem hk, (h.lookup_none hk).symm, rfl⟩
  next =>
    obtain ⟨hstep, hit⟩ := rehashStep_moved h.wf
    have hrep := h.of_moved hstep
    cases h0 : (d.rehashStep hash).ht0.find hash key with
    | some e =>
      simp only [h0]
      exact ⟨hrep.unlink_ht0 h0, (hrep.lookup_of_find (List.subset_append_left ..) h0).symm, hit⟩
    | none =>
      simp only [h0]
      have hout0 := (DictHt.find_eq_none_iff hrep.wf.ht0).mp h0
      by_cases hr : (d.rehashStep hash).isRehashing = true
      · simp only [hr, Bool.not_true, Bool.false_eq_true, if_false]
        cases h1 : (d.rehashStep hash).ht1.find hash key with
        | some e => exact ⟨hrep.unlink_ht1 hr h1, (hrep.lookup_of_find (List.subset_append_right ..) h1).symm, hit⟩
        | none =>
          have hout1 := (DictHt.find_eq_none_iff hrep.wf.ht1).mp h1
          have hk : key ∉ (d.rehashStep hash).keys := by
            rw [Dict.keys_eq, List.mem_append]
            exact not_or.mpr ⟨hout0, hout1⟩
          exact ⟨hrep.erase_of_not_mem hk, (hrep.lookup_none hk).symm, hit⟩
      · have hk : key ∉ (d.rehashStep hash).keys := by
          rw [Dict.keys_eq, List.mem_append]
          exact not_or.mpr ⟨hout0, Dict.not_mem_keys_of_ht1 hrep.wf hr key⟩
        rw [Bool.not_eq_true] at hr
        simp only [hr, Bool.not_false, if_true]
        exact ⟨hrep.erase_of_not_mem hk, (hrep.lookup_none hk).symm, hit⟩

/-! ### Runs -/

/-- What the operations are for: a finite map. The work on the tables is nothing to it. -/
def mapStep (m : Finmap fun _ : K => V) : Op K V → (Finmap fun _ : K => V) × Result K V
  | .add key val => (if key ∈ m then m else m.insert key val, .flag (key ∉ m))
  | .replace key val => (m.insert key val, .flag (key ∉ m))
  | .find key => (m, .entry ((m.lookup key).map (Prod.mk key)))
  | .unlink key => (m.erase key, .entry ((m.lookup key).map (Prod.mk key)))
  | .size => (m, .count m.keys.card)
  | .empty => (∅, .done)
  | _ => (m, .done)

def mapRun (m : Finmap fun _ : K => V) : List (Op K V) → (Finmap fun _ : K => V) × List (Result K V)
  | [] => (m, [])
  | op :: ops =>
    let (m, r) := mapStep m op
    let (m, rs) := mapRun m ops
    (m, r :: rs)

theorem perform_represents (h : d.Represents hash m) (op : Op K V) :
    (d.perform hash op).1.Represents hash (mapStep m op).1 ∧ (d.perform hash op).2 = (mapStep m op).2 := by
  cases op with
  | add key val =>
    obtain ⟨hrep, hflag, -⟩ := add_represents h key val
    exact ⟨hrep, congrArg Result.flag hflag⟩
  | replace key val =>
    obtain ⟨hrep, hflag, -⟩ := replace_represents h key val
    exact ⟨hrep, congrArg Result.flag hflag⟩
  | find key =>
    obtain ⟨hrep, hentry, -⟩ := find_represents h key
    exact ⟨hrep, congrArg Result.entry hentry⟩
  | unlink key =>
    obtain ⟨hrep, hentry, -⟩ := unlink_represents h key
    exact ⟨hrep, congrArg Result.entry hentry⟩
  | size => exact ⟨h, congrArg Result.count h.size_eq⟩
  | resize =>
    refine ⟨?_, rfl⟩
    show (d.resize).1.Represents hash m
    unfold resize
    split
    next d' hd' => exact h.of_moved (Dict.resize_moved h.wf hd')
    next => exact h
  | expand size _ =>
    refine ⟨?_, rfl⟩
    show (d.expand size).1.Represents hash m
    unfold expand
    split
    next d' hd' => exact h.of_moved (Dict.expand_moved h.wf hd').1
    next => exact h
  | rehash n _ => exact ⟨h.of_moved (Dict.rehash_moved h.wf n), rfl⟩
  | rehashMilliseconds rounds => exact ⟨h.of_moved (Dict.rehashMilliseconds_moved h.wf rounds), rfl⟩
  | iterators n => exact ⟨⟨h.wf, h.mem⟩, rfl⟩
  | empty => exact ⟨represents_create, rfl⟩

theorem run_represents (h : d.Represents hash m) (ops : List (Op K V)) :
    (d.run hash ops).1.Represents hash (mapRun m ops).1 ∧ (d.run hash ops).2 = (mapRun m ops).2 := by
  induction ops generalizing d m with
  | nil => exact ⟨h, rfl⟩
  | cons op ops ih =>
    obtain ⟨hrep, hresult⟩ := perform_represents h op
    obtain ⟨hrun, hresults⟩ := ih hrep
    exact ⟨hrun, congrArg₂ List.cons hresult hresults⟩

/-- **A dictionary is a finite map.** From the empty dictionary on, whatever operations come
in whatever order, with every rehashing, resizing and pausing by iterators in between, each
operation returns what it returns on the map, and the entries are those of the map. -/
theorem dict_is_map (hash : K → Nat) (ops : List (Op K V)) :
    (SharedDict.run hash ⟨.create, 0⟩ ops).2 = (mapRun ∅ ops).2 ∧
      (SharedDict.run hash ⟨.create, 0⟩ ops).1.Represents hash (mapRun ∅ ops).1 :=
  (run_represents represents_create ops).symm

end SharedDict
end RedisXSlot
