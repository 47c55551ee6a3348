import RedisXSlot.Left

/-! The group a tag migration takes.

`slots_tag` finds the first opening brace and the first closing one behind it.
`SlotsMGRT_TagKeys` lists the keys whose tag has the checksum of the given key's, counts
them in an `int`, and hands that many to `migrateKeys`. So it takes exactly the group of
the key as long as an `int` can count it (`tag_group_iff`). -/
namespace RedisXSlot
open Interaction

/-! ### Tags -/

/-- `tag` is what stands between the first `{` of `key` and the first `}` behind it. -/
def HasTagAt (key tag : Bytes) : Prop :=
  ∃ pre post, key = pre ++ 123 :: (tag ++ 125 :: post) ∧ 123 ∉ pre ∧ 125 ∉ tag

theorem takeWhile_append_cons {c : UInt8} {pre post : Bytes} (h : c ∉ pre) :
    (pre ++ c :: post).takeWhile (· != c) = pre ∧ (pre ++ c :: post).dropWhile (· != c) = c :: post := by
  have hpre : ∀ b ∈ pre, (b != c) = true := fun b hb => bne_iff_ne.mpr fun he => h (he ▸ hb)
  constructor
  · rw [List.takeWhile_append_of_pos hpre, List.takeWhile_cons_of_neg (by simp), List.append_nil]
  · rw [List.dropWhile_append_of_pos hpre, List.dropWhile_cons_of_neg (by simp)]

/-- Behind the first opening brace everything depends on a closing one. -/
theorem slotsTag_split {pre rest : Bytes} (h : 123 ∉ pre) :
    slotsTag (pre ++ 123 :: rest) = if 125 ∈ rest then some (rest.takeWhile (· != 125)) else none := by
  have hrest : slotsTag (pre ++ 123 :: rest) =
      if (rest.takeWhile (· != 125)).length = rest.length then none else some (rest.takeWhile (· != 125)) := by
    rw [slotsTag, (takeWhile_append_cons h).2]
    exact if_neg (List.cons_ne_nil 123 rest)
  rw [hrest]
  by_cases hmem : 125 ∈ rest
  · rw [if_pos hmem]
    obtain ⟨tag, post, rfl, htag⟩ := List.eq_append_cons_of_mem hmem
    rw [(takeWhile_append_cons htag).1, if_neg (by simp)]
  · have hall : rest.takeWhile (· != 125) = rest :=
      List.takeWhile_eq_self_iff.mpr fun b hb => bne_iff_ne.mpr fun he => hmem (he ▸ hb)
    rw [hall, if_pos rfl, if_neg hmem]

theorem slotsTag_eq_none_of_not_mem {key : Bytes} (h : 123 ∉ key) : slotsTag key = none := by
  have hnil : key.dropWhile (· != 123) = [] :=
    List.dropWhile_eq_nil_iff.mpr fun b hb => bne_iff_ne.mpr fun he => h (he ▸ hb)
  rw [slotsTag, hnil]
  rfl

/-- **What `slots_tag` finds.** -/
theorem slotsTag_eq_some_iff {key tag : Bytes} : slotsTag key = some tag ↔ HasTagAt key tag := by
  constructor
  · intro h
    by_cases hopen : 123 ∈ key
    · obtain ⟨pre, rest, rfl, hpre⟩ := List.eq_append_cons_of_mem hopen
      rw [slotsTag_split hpre] at h
      split at h
      next hclose =>
        obtain ⟨tag', post, rfl, htag⟩ := List.eq_append_cons_of_mem hclose
        rw [(takeWhile_append_cons htag).1] at h
        cases h
        exact ⟨pre, post, rfl, hpre, htag⟩
      next => cases h
    · rw [slotsTag_eq_none_of_not_mem hopen] at h
      cases h
  · intro ⟨pre, post, hkey, hpre, htag⟩
    rw [hkey, slotsTag_split hpre, if_pos (by simp), (takeWhile_append_cons htag).1]

/-- A key has a tag if a `}` stands somewhere behind its first `{`. -/
theorem hasTag_iff {key : Bytes} (h : NulFree key) :
    hasTag key = true ↔ ∃ pre rest, key = pre ++ 123 :: rest ∧ 123 ∉ pre ∧ 125 ∈ rest := by
  rw [hasTag, cString_of_nulFree h, Option.isSome_iff_exists]
  constructor
  · intro ⟨tag, htag⟩
    obtain ⟨pre, post, hkey, hpre, -⟩ := slotsTag_eq_some_iff.mp htag
    exact ⟨pre, _, hkey, hpre, by simp⟩
  · intro ⟨pre, rest, hkey, hpre, hclose⟩
    exact ⟨_, by rw [hkey, slotsTag_split hpre, if_pos hclose]⟩

/-! ### What is handed to `migrateKeys` -/

/-- A program whose questions about tables and tagged keys are answered by the index, up to its first
call of another kind. -/
def onIndex {α : Type} (s : Slots) : Act α → Act α
  | .call (.slotSize i slot) k => onIndex s (k (s.table i slot).size)
  | .call (.taggedKeys i crc) k => onIndex s (k ((s.db_slot_infos i).tagged_key_list.taggedKeys crc))
  | p => p

/-- The program goes on with `migrateKeys` of these keys and the size of the slot. Without a key it
returns instead. -/
def HandsOver (mconf : MgrtConf) (slot : Nat) (left : Int) (keys : List Bytes) (p : Act (Int × Int)) : Prop :=
  if keys = [] then p = .ret (0, left)
  else p = migrateKeys mconf keys >>= fun ret => ask (.slotSize mconf.db slot) >>= fun (s : Nat) => .ret (ret, toCInt s)

section
variable {mconf : MgrtConf} {slot : Nat} {left : Int} {keys : List Bytes}

/-- The answers of a server that holds none of the keys. -/
abbrev absent : (c : Call) → Answer c := agreeable fun _ => .nil

/-- The questions after keys that are all absent. -/
def absentDumps (keys : List Bytes) : Trace := keys.map fun key => ⟨.dump key, Reply.nil⟩

theorem runs_dumpLoop_absent (keys : List Bytes) (j : Int) (objs : List (Option DumpObj)) :
    Runs (dumpLoop keys j objs) (absentDumps keys) (some (j, objs ++ List.replicate keys.length none)) := by
  induction keys generalizing objs with
  | nil =>
    rw [List.length_nil, List.replicate_zero, List.append_nil]
    exact .ret _
  | cons key keys ih =>
    have h := ih (objs ++ [none])
    rw [List.append_assoc, List.singleton_append, ← List.replicate_succ] at h
    have hone : Runs (dumpObj key) [⟨.dump key, Reply.nil⟩] (some .nothing) := .call _ (.ret _)
    show Runs (dumpLoop (key :: keys) j objs) ([⟨.dump key, Reply.nil⟩] ++ absentDumps keys) _
    unfold dumpLoop
    apply Runs.bind hone
    exact h

theorem runs_migrateKeys_absent (mconf : MgrtConf) (keys : List Bytes) :
    Runs (migrateKeys mconf keys) (absentDumps keys) (some 0) := by
  rw [migrateKeys]
  split
  next hlen =>
    obtain rfl := List.eq_nil_of_length_eq_zero (Nat.le_zero.mp hlen)
    exact .ret 0
  next hlen =>
    have hdump : Runs (getRdbDumpObjs keys) (absentDumps keys) (some (0, List.replicate keys.length none)) := by
      rw [getRdbDumpObjs, if_neg hlen]
      exact runs_dumpLoop_absent keys 0 []
    rw [← List.append_nil (absentDumps keys)]
    exact Runs.bind hdump (.ret 0)

theorem HandsOver.of_ne_nil (hne : keys ≠ []) : HandsOver mconf slot left keys
    (migrateKeys mconf keys >>= fun ret => ask (.slotSize mconf.db slot) >>= fun (s : Nat) => .ret (ret, toCInt s)) := by
  rw [HandsOver, if_neg hne]

/-- What a program that hands over `keys` does if all of them are absent. -/
theorem HandsOver.runs {p : Act (Int × Int)} (h : HandsOver mconf slot left keys p) :
    ∃ t o, Runs p (absentDumps keys ++ t) (some o) ∧ (∀ e ∈ absentDumps keys ++ t, e.answer = absent e.call) ∧
      ∀ e ∈ t, ∀ key, e.call ≠ .dump key := by
  have habsent : ∀ e ∈ absentDumps keys, e.answer = absent e.call := by
    intro e he
    obtain ⟨key, -, rfl⟩ := List.mem_map.mp he
    rfl
  rw [HandsOver] at h
  split at h
  next hnil =>
    subst hnil h
    exact ⟨[], _, .ret _, habsent, by simp⟩
  next =>
    subst h
    refine ⟨[⟨.slotSize mconf.db slot, (0 : Nat)⟩], (0, toCInt 0), Runs.bind (runs_migrateKeys_absent mconf keys) ?_, ?_, ?_⟩
    · exact .call _ (.ret _)
    · intro e he
      rcases List.mem_append.mp he with he | he
      · exact habsent e he
      · cases List.mem_singleton.mp he
        rfl
    · intro e he key
      cases List.mem_singleton.mp he
      exact Call.noConfusion

def Event.dumpedKey (e : Event) : Option Bytes :=
  match e.call with
  | .dump key => some key
  | _ => none

/-- A program hands over one list at most. -/
theorem HandsOver.unique {keys' : List Bytes} {p : Act (Int × Int)} (h : HandsOver mconf slot left keys p)
    (h' : HandsOver mconf slot left keys' p) : keys = keys' := by
  obtain ⟨t, o, hrun, hans, hnone⟩ := h.runs
  obtain ⟨t', o', hrun', hans', hnone'⟩ := h'.runs
  have heq := (runs_unique hrun hans hrun' hans').1
  have hkeys (keys : List Bytes) (t : Trace) (hnone : ∀ e ∈ t, ∀ key, e.call ≠ .dump key) :
      (absentDumps keys ++ t).filterMap Event.dumpedKey = keys := by
    have hrest : t.filterMap Event.dumpedKey = [] := List.filterMap_eq_nil_iff.mpr fun e he => by
      have hne := hnone e he
      rw [Event.dumpedKey]
      cases hc : e.call with
      | dump key => exact absurd hc (hne key)
      | _ => rfl
    rw [List.filterMap_append, hrest, List.append_nil, absentDumps, List.filterMap_map]
    exact List.filterMap_some
  rw [← hkeys keys t hnone, heq, hkeys keys' t' hnone']

end

/-! ### The group -/

section
variable {hash : Bytes → Nat} {conf : SlotsMetaInfo} {mconf : MgrtConf} {slot : Nat} {left : Int}
  {s : Slots} {key : Bytes}

/-- The indexed keys that have a tag with the checksum of the tag of `key`, each once. -/
structure TagGroup (conf : SlotsMetaInfo) (s : Slots) (db : Nat) (key : Bytes) (keys : List Bytes) : Prop where
  nodup : keys.Nodup
  mem : ∀ k, k ∈ keys ↔ k ∈ s.keys conf db ∧ hasTag k = true ∧ slotsCrc k = slotsCrc key
  sameTag : ∀ k tag, k ∈ s.keys conf db → HasTagAt (cString k) tag → HasTagAt (cString key) tag → k ∈ keys
  sameSlot : ∀ k ∈ keys, k ∈ (s.table db (slotsNum conf.hash_slots_size key)).keys

theorem slotsCrc_of_hasTagAt {tag : Bytes} (h : HasTagAt (cString key) tag) :
    hasTag key = true ∧ slotsCrc key = crc32Checksum tag := by
  have htag : slotsTag (cString key) = some tag := slotsTag_eq_some_iff.mpr h
  rw [hasTag, slotsCrc, htag]
  exact ⟨rfl, rfl⟩

theorem tagGroup_of_mem {keys : List Bytes} {db : Nat} (hnodup : keys.Nodup)
    (hmem : ∀ k, k ∈ keys ↔ k ∈ s.keys conf db ∧ hasTag k = true ∧ slotsCrc k = slotsCrc key) :
    TagGroup conf s db key keys where
  nodup := hnodup
  mem := hmem
  sameTag k tag hk htag htag' := by
    obtain ⟨hk', hcrc⟩ := slotsCrc_of_hasTagAt htag
    obtain ⟨-, hcrc'⟩ := slotsCrc_of_hasTagAt htag'
    exact (hmem k).mpr ⟨hk, hk', hcrc.trans hcrc'.symm⟩
  sameSlot k hk := by
    obtain ⟨hkey, -, hcrc⟩ := (hmem k).mp hk
    have hslot : slotsNum conf.hash_slots_size k = slotsNum conf.hash_slots_size key := by
      rw [slotsNum, slotsNum, hcrc]
    rw [← hslot]
    exact hkey

theorem TagGroup.length_eq {keys : List Bytes} {db : Nat} (htag : hasTag key = true) (h : TagGroup conf s db key keys) :
    keys.length = (groupOf conf s db key).ncard := by
  rw [← ncard_of_nodup h.nodup]
  refine congrArg Set.ncard (Set.ext fun k => ?_)
  rw [groupOf, Set.mem_ofPred_eq, Set.mem_ofPred_eq, InGroup, if_pos htag, h.mem]
  tauto

section
variable {α : Type}

theorem onIndex_taggedKeys (i : Nat) (crc : UInt32) (f : List Bytes → Act α) :
    onIndex s (ask (.taggedKeys i crc) >>= f) =
      onIndex s (f ((s.db_slot_infos i).tagged_key_list.taggedKeys crc)) := rfl

theorem onIndex_fault : onIndex s (.fault : Act α) = .fault := rfl

theorem onIndex_migrateKeys {keys : List Bytes} (hne : keys ≠ []) (f : Int → Act α) :
    onIndex s (migrateKeys mconf keys >>= f) = migrateKeys mconf keys >>= f := by
  obtain ⟨key, keys, rfl⟩ := List.exists_cons_of_ne_nil hne
  rfl

end

theorem slotsmgrtListedKeys_nil : slotsmgrtListedKeys mconf slot [] left = .ret (0, left) := rfl

/-- `SlotsMGRT_TagKeys` with the answers of the index: it lists the group. -/
theorem onIndex_tagKeys (h : s.Wf hash conf) (htag : hasTag key = true) :
    ∃ keys, TagGroup conf s mconf.db key keys ∧ onIndex s (slotsmgrtTagKeys conf mconf key left) =
      onIndex s (slotsmgrtListedKeys mconf (slotsNum conf.hash_slots_size key) keys left) := by
  have hgroup : TagGroup conf s mconf.db key
      ((s.db_slot_infos mconf.db).tagged_key_list.taggedKeys (slotsCrc key)) :=
    tagGroup_of_mem ((h mconf.db).nodup_taggedKeys _) fun k => by
      rw [(h mconf.db).mem_taggedKeys]
      exact ⟨fun ⟨htag, hcrc, hk⟩ => ⟨hk, htag, hcrc⟩, fun ⟨hk, htag, hcrc⟩ => ⟨htag, hcrc, hk⟩⟩
  refine ⟨_, hgroup, ?_⟩
  have hlist : onIndex s (slotsmgrtTagKeys conf mconf key left) =
      onIndex s (if (s.table mconf.db (slotsNum conf.hash_slots_size key)).size = 0 then .ret (0, left)
        else ask (.taggedKeys mconf.db (slotsCrc key)) >>= fun (keys : List Bytes) =>
          slotsmgrtListedKeys mconf (slotsNum conf.hash_slots_size key) keys left) := by
    rw [slotsmgrtTagKeys, if_neg (by simp [htag])]
    rfl
  rw [hlist]
  split
  next hempty =>
    have hnil : (s.db_slot_infos mconf.db).tagged_key_list.taggedKeys (slotsCrc key) = [] := by
      have hwf : (s.table mconf.db (slotsNum conf.hash_slots_size key)).Wf hash := (h mconf.db).table _
      refine List.eq_nil_iff_forall_not_mem.mpr fun k hk => ?_
      have hpos := List.length_pos_of_mem (hgroup.sameSlot k hk)
      rw [← hwf.size_eq_keys] at hpos
      exact hpos.ne' hempty
    rw [hnil, slotsmgrtListedKeys_nil]
  next => rw [onIndex_taggedKeys]

/-- A list that an `int` can count is handed over as it is. -/
theorem handsOver_listed {keys : List Bytes} (hlen : keys.length < 2 ^ 31) :
    HandsOver mconf slot left keys (onIndex s (slotsmgrtListedKeys mconf slot keys left)) := by
  by_cases hne : keys = []
  · subst hne
    rw [HandsOver, if_pos rfl]
    rfl
  · rw [slotsmgrtListedKeys_counted hne hlen, onIndex_migrateKeys hne]
    exact HandsOver.of_ne_nil hne

/-- Of a list that an `int` cannot count less is handed over, or nothing goes on at all. -/
theorem not_handsOver_listed {keys keys' : List Bytes} (hlen : 2 ^ 31 ≤ keys.length)
    (h : HandsOver mconf slot left keys' (onIndex s (slotsmgrtListedKeys mconf slot keys left))) :
    keys'.length < keys.length := by
  have hmax := toCInt_toNat_le hlen
  simp only [slotsmgrtListedKeys] at h
  split at h
  next =>
    have hnil : HandsOver mconf slot left [] (.ret (0, left)) := by
      rw [HandsOver, if_pos rfl]
    rw [h.unique hnil, List.length_nil]
    omega
  next hzero =>
    split at h
    next =>
      obtain ⟨t, o, hrun, -⟩ := h.runs
      rw [onIndex_fault] at hrun
      cases (Runs.fault_iff.mp hrun).2
    next hneg =>
      have hpos : 0 < (toCInt keys.length).toNat := by omega
      generalize (toCInt keys.length).toNat = max at h hmax hpos
      have hne : keys.take max ≠ [] := by
        refine List.ne_nil_of_length_pos ?_
        rw [List.length_take]
        omega
      rw [onIndex_migrateKeys hne] at h
      rw [h.unique (HandsOver.of_ne_nil hne), List.length_take]
      omega

/-- A group that an `int` cannot count is not handed over. -/
theorem not_handsOver_crowded (h : s.Wf hash conf) (htag : hasTag key = true)
    (hcount : 2 ^ 31 ≤ (groupOf conf s mconf.db key).ncard) :
    ¬ ∃ keys, TagGroup conf s mconf.db key keys ∧ HandsOver mconf (slotsNum conf.hash_slots_size key) left keys
      (onIndex s (slotsmgrtTagKeys conf mconf key left)) := by
  intro ⟨keys, hgroup, hhands⟩
  obtain ⟨keys', hgroup', heq⟩ := onIndex_tagKeys h htag
  rw [heq] at hhands
  rw [← hgroup'.length_eq htag] at hcount
  have hless := not_handsOver_listed hcount hhands
  rw [hgroup.length_eq htag, hgroup'.length_eq htag] at hless
  exact hless.false

end

/-- A tag migration takes exactly the group of the tag: the tag of `key` is what stands between its
first `{` and the first `}` behind that, and the keys handed to `migrateKeys` are its group. -/
structure TakesGroup (conf : SlotsMetaInfo) (mconf : MgrtConf) (s : Slots) (key : Bytes) (left : Int) : Prop where
  hasTag : hasTag key = true ↔ ∃ pre rest, key = pre ++ 123 :: rest ∧ 123 ∉ pre ∧ 125 ∈ rest
  tag : ∀ tag, slotsTag (cString key) = some tag ↔ HasTagAt key tag
  group : RedisXSlot.hasTag key = true → ∃ keys, TagGroup conf s mconf.db key keys ∧
    HandsOver mconf (slotsNum conf.hash_slots_size key) left keys (onIndex s (slotsmgrtTagKeys conf mconf key left))

/-- **When a tag migration takes exactly the group**: if the key has no tag, or an `int` can count
the keys of the group. -/
theorem tag_group_iff (hash : Bytes → Nat) (conf : SlotsMetaInfo) (mconf : MgrtConf) (ops : List SlotsOp) {key : Bytes}
    (hnul : NulFree key) (left : Int) :
    TakesGroup conf mconf (slotsInit.run hash conf ops) key left ↔
      (hasTag key = true → (groupOf conf (slotsInit.run hash conf ops) mconf.db key).ncard < 2 ^ 31) := by
  have hwf : (slotsInit.run hash conf ops).Wf hash conf := Slots.run_wf (fun _ => DbSlotInfo.wf_init) ops
  constructor
  · intro h htag
    by_contra hcount
    exact not_handsOver_crowded hwf htag (Nat.not_lt.mp hcount) (h.group htag)
  · intro hcount
    refine ⟨hasTag_iff hnul, fun tag => ?_, fun htag => ?_⟩
    · rw [cString_of_nulFree hnul]
      exact slotsTag_eq_some_iff
    · obtain ⟨keys, hgroup, heq⟩ := @onIndex_tagKeys hash conf mconf left _ key hwf htag
      refine ⟨keys, hgroup, ?_⟩
      rw [heq]
      exact handsOver_listed (hgroup.length_eq htag ▸ hcount htag)

/-- Two keys of the tag `a` stay, and one comes and goes. The untagged key `a` has the checksum of
the tag, `k15` is in a slot near by, `{b}` has another tag, and a last key is in another database. -/
def mixedOps : List SlotsOp :=
  [.add 0 [123, 97, 125, 98] 0, .add 0 [97] 0, .add 0 [123, 97, 125, 99] 1, .add 0 [107, 49, 53] 0,
    .add 0 [120, 123, 97, 125] 0, .add 0 [123, 98, 125] 0, .add 1 [123, 97, 125] 0, .del 0 [123, 97, 125, 99]]

def mixedIndex : Slots := slotsInit.run lastByte conf16 mixedOps

theorem groupOf_mixed : groupOf conf16 mixedIndex 0 [123, 97, 125] = {[123, 97, 125, 98], [120, 123, 97, 125]} := by
  have hwf : mixedIndex.Wf lastByte conf16 := Slots.run_wf (fun _ => DbSlotInfo.wf_init) _
  have htagged : (mixedIndex.db_slot_infos 0).tagged_key_list.taggedKeys (slotsCrc [123, 97, 125]) =
      [[120, 123, 97, 125], [123, 97, 125, 98]] := by
    decide +kernel
  ext k
  have hmem := (hwf 0).mem_taggedKeys (slotsCrc [123, 97, 125]) k
  rw [htagged] at hmem
  rw [groupOf, Set.mem_ofPred_eq, InGroup, if_pos (by decide), and_assoc]
  refine hmem.symm.trans ?_
  simp [or_comm]

/-- The group is the two keys, and it is what is taken. -/
theorem tag_group_iff_mixed : groupOf conf16 mixedIndex 0 [123, 97, 125] = {[123, 97, 125, 98], [120, 123, 97, 125]} ∧
    TakesGroup conf16 oneConnection mixedIndex [123, 97, 125] 0 := by
  refine ⟨groupOf_mixed, (tag_group_iff lastByte conf16 oneConnection mixedOps (by decide) 0).mpr fun _ => ?_⟩
  have hcount : (groupOf conf16 mixedIndex 0 [123, 97, 125]).ncard = 2 := by
    rw [groupOf_mixed]
    exact Set.ncard_pair (by decide)
  exact hcount.trans_lt (by decide)

/-! ### A crowd -/

/-- `n` keys that begin alike come in. -/
def crowd (pre : Bytes) (n : Nat) : List SlotsOp := (List.range n).map fun i => .add 0 (pre ++ decimal i) 0

section
variable {hash : Bytes → Nat} {conf : SlotsMetaInfo}

theorem decimal_injective : Function.Injective decimal := by
  intro i j h
  rw [← digitsValue_decimal i, h, digitsValue_decimal]

theorem crowd_succ (pre : Bytes) (n : Nat) : slotsInit.run hash conf (crowd pre (n + 1)) =
    slotsAdd hash conf (slotsInit.run hash conf (crowd pre n)) 0 (pre ++ decimal n) 0 := by
  rw [crowd, List.range_succ, List.map_append, Slots.run, List.foldl_append]
  rfl

theorem keys_crowd (hash : Bytes → Nat) (conf : SlotsMetaInfo) (pre : Bytes) (n : Nat) :
    (slotsInit.run hash conf (crowd pre n)).keys conf 0 = (fun i => pre ++ decimal i) '' Set.Iio n := by
  induction n with
  | zero =>
    ext k
    rw [show Set.Iio 0 = (∅ : Set Nat) from Set.Iio_bot, Set.image_empty]
    exact iff_of_false List.not_mem_nil id
  | succ n ih =>
    have hwf : (slotsInit.run hash conf (crowd pre n)).Wf hash conf := Slots.run_wf (fun _ => DbSlotInfo.wf_init) _
    ext k
    rw [crowd_succ, (keys_slotsAdd hwf 0 (pre ++ decimal n) 0).2, ih]
    simp only [true_and, Set.mem_image, Set.mem_Iio, Nat.lt_succ_iff_lt_or_eq]
    constructor
    · rintro (rfl | ⟨i, hi, rfl⟩)
      · exact ⟨n, .inr rfl, rfl⟩
      · exact ⟨i, .inl hi, rfl⟩
    · rintro ⟨i, hi | rfl, rfl⟩
      · exact .inr ⟨i, hi, rfl⟩
      · exact .inl rfl

theorem ncard_crowd (pre : Bytes) (n : Nat) : ((slotsInit.run hash conf (crowd pre n)).keys conf 0).ncard = n := by
  rw [keys_crowd, Set.ncard_image_of_injective _ fun i j h => decimal_injective (List.append_cancel_left h)]
  rw [Set.ncard_eq_toFinset_card', Set.toFinset_Iio, Nat.card_Iio]

end

theorem nulFree_decimal (i : Nat) : NulFree (decimal i) := by
  intro h
  have hle := (decimal_digits i 0 h).1
  revert hle
  decide

/-- The group of a tag is crowded by keys that begin with it. -/
theorem not_takesGroup_crowd {n : Nat} (hn : 2 ^ 31 ≤ n) :
    ¬ TakesGroup conf16 oneConnection (slotsInit.run (fun _ => 0) conf16 (crowd [123, 97, 125] n)) [123, 97, 125] 0 := by
  have htag : hasTag [123, 97, 125] = true := by decide
  have hall : groupOf conf16 (slotsInit.run (fun _ => 0) conf16 (crowd [123, 97, 125] n)) 0 [123, 97, 125] =
      (slotsInit.run (fun _ => 0) conf16 (crowd [123, 97, 125] n)).keys conf16 0 := by
    refine Set.ext fun k => ⟨fun h => h.2, fun hk => ⟨?_, hk⟩⟩
    rw [keys_crowd] at hk
    obtain ⟨i, -, rfl⟩ := hk
    have hnul : NulFree ([123, 97, 125] ++ decimal i) := by
      intro h
      rcases List.mem_append.mp h with h | h
      · exact absurd h (by decide)
      · exact nulFree_decimal i h
    obtain ⟨hk, hcrc⟩ := @slotsCrc_of_hasTagAt ([123, 97, 125] ++ decimal i) [97] (by
      rw [cString_of_nulFree hnul]
      exact ⟨[], decimal i, rfl, by decide, by decide⟩)
    have hcrc' : slotsCrc [123, 97, 125] = crc32Checksum [97] := by decide +kernel
    rw [InGroup, if_pos htag]
    exact ⟨hk, hcrc.trans hcrc'.symm⟩
  intro h
  refine not_handsOver_crowded (Slots.run_wf (fun _ => DbSlotInfo.wf_init) _) htag ?_ (h.group htag)
  show 2 ^ 31 ≤ (groupOf conf16 (slotsInit.run (fun _ => 0) conf16 (crowd [123, 97, 125] n)) 0 [123, 97, 125]).ncard
  rw [hall, ncard_crowd]
  exact hn

/-- Of a tag with as many keys as an `int` cannot count, not all are handed over. -/
theorem not_tag_group : NulFree [123, 97, 125] ∧
    ¬ TakesGroup conf16 oneConnection (slotsInit.run (fun _ => 0) conf16 (crowd [123, 97, 125] (2 ^ 31)))
      [123, 97, 125] 0 :=
  ⟨by decide, not_takesGroup_crowd (le_refl _)⟩

end RedisXSlot
