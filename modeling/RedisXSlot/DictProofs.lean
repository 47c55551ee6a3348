import RedisXSlot.Dict

/-! A dictionary is a set of entries.

`Dict.Wf` is what every operation keeps: each entry is in the bucket of its hash, the
counters are right, no key is there twice, and the second table is in use only while
rehashing. Seen from outside a dictionary is its list of `entries` up to order: adding
puts one in front, deleting takes one out, and expanding, resizing and rehashing only
move them. -/
namespace RedisXSlot
variable {K V : Type}

/-! ### Buckets -/

/-- Replacing a bucket replaces its entries among all. -/
theorem flatten_set_perm {α : Type} {xs : List (List α)} {i : Nat} (h : i < xs.length) (c : List α) :
    (xs.getD i [] ++ (xs.set i c).flatten).Perm (c ++ xs.flatten) := by
  induction xs generalizing i with
  | nil => cases h
  | cons x xs ih =>
    cases i with
    | zero =>
      simp only [List.getD_cons_zero, List.set_cons_zero, List.flatten_cons]
      rw [← List.append_assoc, ← List.append_assoc]
      exact List.perm_append_comm.append_right _
    | succ i =>
      simp only [List.getD_cons_succ, List.set_cons_succ, List.flatten_cons]
      have := ih (Nat.lt_of_succ_lt_succ h)
      calc xs.getD i [] ++ (x ++ (xs.set i c).flatten)
          _ = xs.getD i [] ++ x ++ (xs.set i c).flatten := (List.append_assoc ..).symm
          _ |>.Perm (x ++ xs.getD i [] ++ (xs.set i c).flatten) := List.perm_append_comm.append_right _
          _ |>.Perm (x ++ (c ++ xs.flatten)) := by
              rw [List.append_assoc]
              exact this.append_left x
          _ = x ++ c ++ xs.flatten := (List.append_assoc ..).symm
          _ |>.Perm (c ++ x ++ xs.flatten) := List.perm_append_comm.append_right _
          _ = c ++ (x ++ xs.flatten) := List.append_assoc ..

namespace DictHt

/-- The entries of a table, bucket by bucket. -/
def entries (ht : DictHt K V) : List (K × V) := ht.table.flatten

theorem mem_entries_of_bucket {ht : DictHt K V} {i : Nat} {e : K × V} (h : e ∈ ht.bucket i) : e ∈ ht.entries := by
  rw [bucket, List.getD_eq_getElem?_getD] at h
  cases hi : ht.table[i]? with
  | none => simp [hi] at h
  | some c =>
    rw [hi, Option.getD_some] at h
    exact List.mem_flatten.mpr ⟨c, List.mem_of_getElem? hi, h⟩

variable (hash : K → Nat)

/-- Each entry in its bucket, the number of buckets a power of two, the count right. -/
structure Wf (ht : DictHt K V) : Prop where
  pow : ht.table = [] ∨ ∃ k, ht.size = 2 ^ k
  place : ∀ i, ∀ e ∈ ht.bucket i, hash e.1 &&& ht.sizemask = i
  used : ht.used = ht.entries.length

theorem wf_reset : Wf hash (reset : DictHt K V) where
  pow := .inl rfl
  place := by simp [bucket, reset]
  used := rfl

variable {hash} {ht : DictHt K V}

theorem Wf.index_lt (h : Wf hash ht) (hne : ht.table ≠ []) (key : K) :
    hash key &&& ht.sizemask < ht.table.length := by
  obtain ⟨k, hk⟩ := h.pow.resolve_left hne
  rw [sizemask, hk, Nat.and_two_pow_sub_one_eq_mod, ← size, hk]
  exact Nat.mod_lt _ (Nat.two_pow_pos k)

/-- An entry is where its hash says. -/
theorem Wf.mem_bucket (h : Wf hash ht) {e : K × V} (he : e ∈ ht.entries) :
    e ∈ ht.bucket (hash e.1 &&& ht.sizemask) := by
  obtain ⟨c, hc, hec⟩ := List.mem_flatten.mp he
  obtain ⟨i, hi⟩ := List.mem_iff_getElem?.mp hc
  have hb : ht.bucket i = c := by rw [bucket, List.getD_eq_getElem?_getD, hi, Option.getD_some]
  rw [h.place i e (hb ▸ hec), hb]
  exact hec

theorem bucket_set (ht : DictHt K V) (i j used : Nat) (c : List (K × V)) :
    (⟨ht.table.set i c, used⟩ : DictHt K V).bucket j =
      if i = j ∧ i < ht.table.length then c else ht.bucket j := by
  simp only [bucket, List.getD_eq_getElem?_getD, List.getElem?_set]
  by_cases hij : i = j
  · subst hij
    by_cases hi : i < ht.table.length <;> simp [hi]
  · simp [hij]

/-- A bucket may be replaced by entries that belong there. -/
theorem Wf.set (h : Wf hash ht) {i : Nat} (hi : i < ht.table.length) {c : List (K × V)} {used : Nat}
    (hc : ∀ e ∈ c, hash e.1 &&& ht.sizemask = i) (hu : used + (ht.bucket i).length = ht.used + c.length) :
    Wf hash ⟨ht.table.set i c, used⟩ := by
  have hsize : (⟨ht.table.set i c, used⟩ : DictHt K V).size = ht.size := List.length_set
  refine ⟨?_, fun j e he => ?_, ?_⟩
  · rcases h.pow with hnil | ⟨k, hk⟩
    · rw [hnil] at hi
      cases hi
    · exact .inr ⟨k, hsize.trans hk⟩
  · rw [bucket_set] at he
    rw [sizemask, hsize]
    split at he
    next hij => exact hij.1 ▸ hc e he
    next => exact h.place j e he
  · have hlen := (flatten_set_perm hi c).length_eq
    rw [List.length_append, List.length_append] at hlen
    have := h.used
    rw [entries] at this
    rw [bucket] at hu
    show used = (ht.table.set i c).flatten.length
    omega

theorem Wf.push (h : Wf hash ht) (hne : ht.table ≠ []) (e : K × V) :
    Wf hash (ht.push (hash e.1 &&& ht.sizemask) e) := by
  refine h.set (h.index_lt hne e.1) (fun f hf => ?_) (by rw [List.length_cons]; omega)
  rcases List.mem_cons.mp hf with rfl | hf
  · rfl
  · exact h.place _ f hf

theorem push_perm (h : Wf hash ht) (hne : ht.table ≠ []) (e : K × V) :
    (ht.push (hash e.1 &&& ht.sizemask) e).entries.Perm (e :: ht.entries) := by
  have := flatten_set_perm (h.index_lt hne e.1) (e :: ht.bucket (hash e.1 &&& ht.sizemask))
  have hswap : (ht.bucket (hash e.1 &&& ht.sizemask) ++ (e :: ht.entries)).Perm
      ((e :: ht.bucket (hash e.1 &&& ht.sizemask)) ++ ht.entries) := List.perm_middle
  exact List.perm_append_left_iff _ |>.mp (this.trans hswap.symm)

theorem push_table_ne_nil (ht : DictHt K V) (hne : ht.table ≠ []) (i : Nat) (e : K × V) :
    (ht.push i e).table ≠ [] := by
  rw [push, ne_eq, List.set_eq_nil_iff]
  exact hne

section
variable [DecidableEq K]

theorem has_iff (h : Wf hash ht) (key : K) : ht.has hash key = true ↔ key ∈ ht.entries.map Prod.fst := by
  rw [has, List.any_eq_true]
  constructor
  · rintro ⟨e, he, hk⟩
    exact List.mem_map.mpr ⟨e, mem_entries_of_bucket he, of_decide_eq_true hk⟩
  · intro hk
    obtain ⟨e, he, rfl⟩ := List.mem_map.mp hk
    exact ⟨e, h.mem_bucket he, decide_eq_true rfl⟩

theorem table_ne_nil_of_has {key : K} (h : ht.has hash key = true) : ht.table ≠ [] := by
  intro hnil
  simp [has, bucket, hnil] at h

/-- Unlinking takes out one entry of the key. -/
theorem unlink_perm (h : Wf hash ht) {key : K} (hhas : ht.has hash key = true) :
    ∃ e : K × V, e.1 = key ∧ (e :: (ht.unlink hash key).entries).Perm ht.entries := by
  obtain ⟨e, he, hk⟩ := List.any_eq_true.mp hhas
  obtain ⟨a, l₁, l₂, -, ha, hsplit, herase⟩ := List.exists_of_eraseP (p := fun e : K × V => decide (e.1 = key)) he hk
  refine ⟨a, of_decide_eq_true ha, ?_⟩
  have hset := flatten_set_perm (h.index_lt (table_ne_nil_of_has hhas) key)
    ((ht.bucket (hash key &&& ht.sizemask)).eraseP fun e => e.1 = key)
  change (ht.bucket _ ++ _).Perm _ at hset
  rw [herase, hsplit] at hset
  have hmid : (l₁ ++ a :: l₂ ++ (ht.table.set (hash key &&& ht.sizemask) (l₁ ++ l₂)).flatten).Perm
      (l₁ ++ l₂ ++ a :: (ht.table.set (hash key &&& ht.sizemask) (l₁ ++ l₂)).flatten) := by
    rw [List.append_assoc, List.append_assoc]
    apply List.Perm.append_left
    rw [List.cons_append]
    exact List.perm_middle.symm
  have := List.perm_append_left_iff _ |>.mp (hmid.symm.trans hset)
  simpa [unlink, entries, herase] using this

theorem Wf.unlink (h : Wf hash ht) {key : K} (hhas : ht.has hash key = true) : Wf hash (ht.unlink hash key) := by
  obtain ⟨e, he, hk⟩ := List.any_eq_true.mp hhas
  refine h.set (h.index_lt (table_ne_nil_of_has hhas) key)
    (fun f hf => h.place _ f (List.eraseP_sublist.subset hf)) ?_
  have hlen := List.length_eraseP_of_mem (p := fun e : K × V => decide (e.1 = key)) he hk
  have hpos : 0 < (ht.bucket (hash key &&& ht.sizemask)).length := List.length_pos_of_mem he
  have hused : 0 < ht.used := by
    rw [h.used]
    exact List.length_pos_of_mem (mem_entries_of_bucket he)
  rw [hlen]
  omega

theorem unlink_table_ne_nil (hne : ht.table ≠ []) (key : K) : (ht.unlink hash key).table ≠ [] := by
  rw [DictHt.unlink, ne_eq, List.set_eq_nil_iff]
  exact hne

end
end DictHt

/-! ### Two tables -/

namespace Dict

def entries (d : Dict K V) : List (K × V) := d.ht0.entries ++ d.ht1.entries

def keys (d : Dict K V) : List K := d.entries.map Prod.fst

/-- The invariant of a dictionary. -/
structure Wf (hash : K → Nat) (d : Dict K V) : Prop where
  ht0 : d.ht0.Wf hash
  ht1 : d.ht1.Wf hash
  nodup : d.keys.Nodup
  idle : d.rehashidx = none → d.ht1 = .reset
  rehashing : d.rehashidx ≠ none → d.ht0.table ≠ [] ∧ d.ht1.table ≠ []

theorem wf_create (hash : K → Nat) : (create : Dict K V).Wf hash where
  ht0 := DictHt.wf_reset hash
  ht1 := DictHt.wf_reset hash
  nodup := .nil
  idle := fun _ => rfl
  rehashing := fun h => absurd rfl h

theorem wf_empty (hash : K → Nat) (d : Dict K V) : d.empty.Wf hash := wf_create hash

@[simp] theorem entries_empty (d : Dict K V) : d.empty.entries = [] := rfl
@[simp] theorem keys_empty (d : Dict K V) : d.empty.keys = [] := rfl
@[simp] theorem keys_create : (create : Dict K V).keys = [] := rfl

variable {hash : K → Nat} {d : Dict K V}

/-- `dictSize` counts the entries. -/
theorem Wf.size_eq (h : d.Wf hash) : d.size = d.entries.length := by
  rw [size, h.ht0.used, h.ht1.used, entries, List.length_append]

theorem Wf.size_eq_keys (h : d.Wf hash) : d.size = d.keys.length := by
  rw [h.size_eq, keys, List.length_map]

theorem not_isRehashing_iff : ¬ d.isRehashing = true ↔ d.rehashidx = none := by
  rw [isRehashing, Option.not_isSome_iff_eq_none]

/-- What an operation that only moves entries does. -/
structure Moved (hash : K → Nat) (d d' : Dict K V) : Prop where
  wf : d'.Wf hash
  perm : d'.entries.Perm d.entries

theorem Moved.refl (h : d.Wf hash) : Moved hash d d := ⟨h, .refl _⟩

theorem Moved.trans {d' d'' : Dict K V} (h : Moved hash d d') (h' : Moved hash d' d'') : Moved hash d d'' :=
  ⟨h'.wf, h'.perm.trans h.perm⟩

theorem Moved.keys_perm {d' : Dict K V} (h : Moved hash d d') : d'.keys.Perm d.keys := h.perm.map Prod.fst

/-! ### Making tables -/

theorem nextPowerLoop_eq (fuel i size : Nat) : ∃ k, nextPowerLoop fuel i size = i * 2 ^ k := by
  induction fuel generalizing i with
  | zero => exact ⟨0, by simp [nextPowerLoop]⟩
  | succ fuel ih =>
    simp only [nextPowerLoop]
    split
    · exact ⟨0, by simp⟩
    · obtain ⟨k, hk⟩ := ih (i * 2)
      exact ⟨k + 1, by rw [hk, pow_succ]; ring⟩

theorem nextPower_eq (size : Nat) : ∃ k, nextPower size = 2 ^ k := by
  obtain ⟨k, hk⟩ := nextPowerLoop_eq size DICT_HT_INITIAL_SIZE size
  exact ⟨k + 2, by rw [nextPower, hk, DICT_HT_INITIAL_SIZE, pow_add]; ring⟩

theorem le_nextPowerLoop {fuel i size : Nat} (hi : 0 < i) (h : size ≤ i + fuel) :
    size ≤ nextPowerLoop fuel i size := by
  induction fuel generalizing i with
  | zero => simpa [nextPowerLoop] using h
  | succ fuel ih =>
    simp only [nextPowerLoop]
    split
    next hge => exact hge
    next => exact ih (by omega) (by omega)

/-- The new table has at least the size asked for. -/
theorem le_nextPower (size : Nat) : size ≤ nextPower size := le_nextPowerLoop (by decide) (by omega)

theorem wf_replicate (hash : K → Nat) (size : Nat) :
    (⟨List.replicate (nextPower size) [], 0⟩ : DictHt K V).Wf hash where
  pow := by
    obtain ⟨k, hk⟩ := nextPower_eq size
    exact .inr ⟨k, by rw [DictHt.size, List.length_replicate, hk]⟩
  place i e he := by
    have := DictHt.mem_entries_of_bucket he
    simp [DictHt.entries] at this
  used := by simp [DictHt.entries]

theorem replicate_ne_nil (size : Nat) : List.replicate (nextPower size) ([] : List (K × V)) ≠ [] := by
  obtain ⟨k, hk⟩ := nextPower_eq size
  rw [hk, ne_eq, List.replicate_eq_nil_iff]
  exact (Nat.two_pow_pos k).ne'

/-- Expanding moves nothing yet. -/
theorem expand_moved (h : d.Wf hash) {size : Nat} {d' : Dict K V} (he : d.expand size = some d') :
    Moved hash d d' ∧ d'.ht0.table ≠ [] := by
  have hnew : (⟨List.replicate (nextPower size) [], 0⟩ : DictHt K V).entries = [] := by simp [DictHt.entries]
  rw [expand] at he
  split at he
  next => cases he
  next hno =>
    have hidle : d.rehashidx = none := not_isRehashing_iff.mp fun hr => hno (.inl hr)
    simp only at he
    split at he
    next => cases he
    next =>
      split at he
      next hnil =>
        cases he
        have hnil : d.ht0.table = [] := List.isEmpty_iff.mp hnil
        have hent : d.ht0.entries = [] := by simp [DictHt.entries, hnil]
        have hperm : (⟨⟨List.replicate (nextPower size) [], 0⟩, d.ht1, d.rehashidx⟩ : Dict K V).entries =
            d.entries := by rw [entries, entries, hent, hnew]
        refine ⟨⟨⟨wf_replicate hash size, h.ht1, ?_, h.idle, fun hr => absurd hidle hr⟩, hperm ▸ .refl _⟩,
          replicate_ne_nil size⟩
        rw [keys, hperm]
        exact h.nodup
      next hne =>
        cases he
        have hne : d.ht0.table ≠ [] := fun hnil => hne (by rw [hnil]; rfl)
        have hperm : (⟨d.ht0, ⟨List.replicate (nextPower size) [], 0⟩, some 0⟩ : Dict K V).entries =
            d.entries := by rw [entries, entries, hnew, h.idle hidle]; rfl
        refine ⟨⟨⟨h.ht0, wf_replicate hash size, ?_, nofun,
          fun _ => ⟨hne, replicate_ne_nil size⟩⟩, hperm ▸ .refl _⟩, hne⟩
        rw [keys, hperm]
        exact h.nodup

/-- A new table beside one that is there is rehashed to. -/
theorem expand_isRehashing {d d' : Dict K V} {size : Nat} (he : d.expand size = some d')
    (htable : d.ht0.table.isEmpty = false) : d'.isRehashing := by
  rw [Dict.expand] at he
  split at he
  next => cases he
  next =>
    simp only [htable] at he
    split at he
    next => cases he
    next =>
      cases he
      rfl

theorem resize_moved (h : d.Wf hash) {d' : Dict K V} (he : d.resize = some d') : Moved hash d d' := by
  rw [resize] at he
  split at he
  next => cases he
  next => exact (expand_moved h he).1

/-! ### Rehashing -/

theorem moveEntries_spec {ht : DictHt K V} (h : ht.Wf hash) (hne : ht.table ≠ []) (chain : List (K × V)) :
    (moveEntries hash ht chain).Wf hash ∧ (moveEntries hash ht chain).table ≠ [] ∧
      (moveEntries hash ht chain).entries.Perm (chain ++ ht.entries) := by
  induction chain generalizing ht with
  | nil => exact ⟨h, hne, .refl _⟩
  | cons e chain ih =>
    obtain ⟨hwf, hne', hperm⟩ := ih (h.push hne e) (DictHt.push_table_ne_nil ht hne _ e)
    refine ⟨hwf, hne', hperm.trans ?_⟩
    exact ((DictHt.push_perm h hne e).append_left chain).trans List.perm_middle

theorem skipEmpty_found {ht : DictHt K V} {visits idx i v : Nat} (h : skipEmpty ht visits idx = (i, some v)) :
    ht.bucket i ≠ [] := by
  induction visits generalizing idx with
  | zero => cases h
  | succ visits ih =>
    rw [skipEmpty] at h
    split at h
    next =>
      split at h
      next => cases h
      next => exact ih h
    next hne =>
      cases h
      simpa using hne

theorem bucket_index_lt {ht : DictHt K V} {i : Nat} (h : ht.bucket i ≠ []) : i < ht.table.length := by
  by_contra hi
  exact h (List.getD_eq_default _ _ (not_lt.mp hi))

/-- Moving one bucket keeps everything. -/
theorem moveBucket_moved (h : d.Wf hash) (hr : d.rehashidx ≠ none) {i : Nat} (hi : d.ht0.bucket i ≠ []) :
    Moved hash d
      { ht0 := ⟨d.ht0.table.set i [], d.ht0.used - (d.ht0.bucket i).length⟩
        ht1 := moveEntries hash d.ht1 (d.ht0.bucket i)
        rehashidx := d.rehashidx } := by
  have hlt := bucket_index_lt hi
  obtain ⟨hne0, hne1⟩ := h.rehashing hr
  obtain ⟨hwf1, hne1', hperm1⟩ := moveEntries_spec h.ht1 hne1 (d.ht0.bucket i)
  have hset := flatten_set_perm hlt ([] : List (K × V))
  have hused : (d.ht0.bucket i).length ≤ d.ht0.used := by
    rw [h.ht0.used, DictHt.entries, ← List.nil_append d.ht0.table.flatten, ← hset.length_eq, List.length_append]
    exact Nat.le_add_right ..
  have hperm : (entries ⟨⟨d.ht0.table.set i [], d.ht0.used - (d.ht0.bucket i).length⟩,
      moveEntries hash d.ht1 (d.ht0.bucket i), d.rehashidx⟩).Perm d.entries := by
    refine (hperm1.append_left _).trans ?_
    rw [← List.append_assoc]
    exact (List.perm_append_comm.trans hset).append_right _
  refine ⟨⟨?_, hwf1, ?_, fun hn => absurd hn hr, fun _ => ⟨?_, hne1'⟩⟩, hperm⟩
  · exact h.ht0.set hlt (by simp) (by simp only [List.length_nil]; omega)
  · exact (hperm.map Prod.fst).nodup_iff.mpr h.nodup
  · rw [ne_eq, List.set_eq_nil_iff]
    exact hne0

theorem rehashLoop_moved (n visits idx : Nat) (h : d.Wf hash) (hr : d.rehashidx ≠ none) :
    Moved hash d (rehashLoop hash n visits idx d).1 ∧ (rehashLoop hash n visits idx d).1.rehashidx ≠ none := by
  have hset (i : Nat) : Moved hash d { d with rehashidx := some i } :=
    ⟨⟨h.ht0, h.ht1, h.nodup, nofun, fun _ => h.rehashing hr⟩, .refl _⟩
  induction n generalizing visits idx d with
  | zero => exact ⟨hset idx, by simp [rehashLoop]⟩
  | succ n ih =>
    rw [rehashLoop]
    split
    next => exact ⟨hset idx, by simp⟩
    next =>
      split
      next i heq => exact ⟨hset i, by simp⟩
      next i v heq =>
        have hmove := moveBucket_moved h hr (skipEmpty_found heq)
        have hr' : (⟨⟨d.ht0.table.set i [], d.ht0.used - (d.ht0.bucket i).length⟩,
            moveEntries hash d.ht1 (d.ht0.bucket i), d.rehashidx⟩ : Dict K V).rehashidx ≠ none := hr
        obtain ⟨hm, hn⟩ := ih v (i + 1) hmove.wf hr' fun j =>
          ⟨⟨hmove.wf.ht0, hmove.wf.ht1, hmove.wf.nodup, nofun,
            fun _ => hmove.wf.rehashing hr'⟩, .refl _⟩
        exact ⟨hmove.trans hm, hn⟩

/-- **Rehashing only moves entries.** -/
theorem rehash_moved (h : d.Wf hash) (n : Nat) : Moved hash d (rehash hash d n).1 := by
  rw [rehash]
  split
  next => exact .refl h
  next idx hidx =>
    obtain ⟨hm, hr⟩ := rehashLoop_moved n (n * 10) idx h (by rw [hidx]; simp)
    split
    next d' heq =>
      rw [heq] at hm
      exact hm
    next d' heq =>
      rw [heq] at hm hr
      split
      next hzero =>
        have hent : d'.ht0.entries = [] := List.eq_nil_of_length_eq_zero (hm.wf.ht0.used ▸ hzero)
        have hperm : (⟨d'.ht1, .reset, none⟩ : Dict K V).entries = d'.entries := by
          rw [entries, entries, hent, List.nil_append]
          exact List.append_nil _
        refine ⟨⟨hm.wf.ht1, DictHt.wf_reset hash, ?_, fun _ => rfl, fun hn => absurd rfl hn⟩, ?_⟩
        · rw [keys, hperm]
          exact hm.wf.nodup
        · rw [hperm]
          exact hm.perm
      next => exact hm

theorem rehashMilliseconds_moved (h : d.Wf hash) (rounds : Nat) :
    Moved hash d (rehashMilliseconds hash rounds d) := by
  induction rounds generalizing d with
  | zero => exact rehash_moved h 100
  | succ rounds ih =>
    have hm := rehash_moved h 100
    rw [rehashMilliseconds]
    split
    next d' heq =>
      rw [heq] at hm
      exact hm.trans (ih hm.wf)
    next d' heq =>
      rw [heq] at hm
      exact hm

theorem rehashStep_moved (h : d.Wf hash) : Moved hash d (rehashStep hash d) := by
  rw [rehashStep]
  split
  next => exact rehash_moved h 1
  next => exact .refl h

theorem skipEmpty_le (ht : DictHt K V) (visits idx : Nat) : idx ≤ (skipEmpty ht visits idx).1 := by
  induction visits generalizing idx with
  | zero => exact Nat.le_refl idx
  | succ visits ih =>
    rw [skipEmpty]
    split
    next =>
      split
      next => exact Nat.le_succ idx
      next => exact Nat.le_of_succ_le (ih (idx + 1))
    next => exact Nat.le_refl idx

theorem skipEmpty_lt {ht : DictHt K V} {visits idx i : Nat} (h : skipEmpty ht (visits + 1) idx = (i, none)) : idx < i := by
  rw [skipEmpty] at h
  split at h
  next =>
    split at h
    next =>
      cases h
      exact Nat.lt_succ_self idx
    next =>
      have hle := skipEmpty_le ht visits (idx + 1)
      rw [h] at hle
      exact hle
  next => cases h

theorem rehashLoop_le (n visits idx : Nat) (d : Dict K V) :
    ∃ i, (rehashLoop hash n visits idx d).1.rehashidx = some i ∧ idx ≤ i := by
  induction n generalizing visits idx d with
  | zero => exact ⟨idx, rfl, Nat.le_refl idx⟩
  | succ n ih =>
    have hle := skipEmpty_le d.ht0 visits idx
    rw [rehashLoop]
    split
    next => exact ⟨idx, rfl, Nat.le_refl idx⟩
    next =>
      split
      next i heq =>
        rw [heq] at hle
        exact ⟨i, rfl, hle⟩
      next i v heq =>
        rw [heq] at hle
        obtain ⟨j, hj, hij⟩ := ih v (i + 1) _
        exact ⟨j, hj, hle.trans (Nat.le_of_succ_le hij)⟩

/-- A rehashing either ends or gets further. -/
theorem rehash_advances {idx : Nat} (hr : d.rehashidx = some idx) (n : Nat) :
    (rehash hash d (n + 1)).1.rehashidx = none ∨ ∃ i, (rehash hash d (n + 1)).1.rehashidx = some i ∧ idx < i := by
  have hloop : d.ht0.used = 0 ∨ ∃ i, (rehashLoop hash (n + 1) ((n + 1) * 10) idx d).1.rehashidx = some i ∧ idx < i := by
    rw [rehashLoop]
    split
    next hzero => exact .inl hzero
    next =>
      right
      have hle := skipEmpty_le d.ht0 ((n + 1) * 10) idx
      split
      next i heq =>
        have hlt : idx < i := @skipEmpty_lt _ _ d.ht0 ((n + 1) * 10 - 1) idx i heq
        exact ⟨i, rfl, hlt⟩
      next i v heq =>
        rw [heq] at hle
        obtain ⟨j, hj, hij⟩ := rehashLoop_le n v (i + 1) _
        exact ⟨j, hj, hle.trans_lt hij⟩
  have hused : d.ht0.used = 0 → rehashLoop hash (n + 1) ((n + 1) * 10) idx d = ({ d with rehashidx := some idx }, false) := by
    intro hzero
    rw [rehashLoop, if_pos hzero]
  simp only [rehash, hr]
  split
  next d' heq =>
    rcases hloop with hzero | hloop
    · rw [hused hzero] at heq
      cases heq
    · rw [heq] at hloop
      exact .inr hloop
  next d' heq =>
    split
    next => exact .inl rfl
    next hne =>
      rcases hloop with hzero | hloop
      · rw [hused hzero] at heq
        cases heq
        exact absurd hzero hne
      · rw [heq] at hloop
        exact .inr hloop

/-- **A millisecond of rehashing changes the dictionary.** -/
theorem rehashMilliseconds_ne (hr : d.isRehashing) (rounds : Nat) : rehashMilliseconds hash rounds d ≠ d := by
  obtain ⟨idx, hidx⟩ := Option.isSome_iff_exists.mp hr
  have hadv : (rehashMilliseconds hash rounds d).rehashidx = none ∨
      ∃ i, (rehashMilliseconds hash rounds d).rehashidx = some i ∧ idx < i := by
    clear hr
    induction rounds generalizing d idx with
    | zero => exact rehash_advances hidx 99
    | succ rounds ih =>
      have hstep := @rehash_advances _ _ hash d idx hidx 99
      rw [rehashMilliseconds]
      split
      next d' heq =>
        rw [heq] at hstep
        rcases hstep with hnone | ⟨i, hi, hlt⟩
        · have hnone : d'.rehashidx = none := hnone
          left
          cases rounds <;> simp only [rehashMilliseconds, rehash, hnone]
        · exact (ih i hi).imp_right fun ⟨j, hj, hij⟩ => ⟨j, hj, hlt.trans hij⟩
      next d' heq =>
        rw [heq] at hstep
        exact hstep
  intro heq
  rw [heq, hidx] at hadv
  rcases hadv with hnone | ⟨i, hi, hlt⟩
  · cases hnone
  · exact hlt.ne (Option.some.inj hi)

/-! ### Adding, deleting and drawing -/

theorem expand_eq_some {size : Nat} (hr : ¬ d.isRehashing = true) (hu : d.ht0.used ≤ size)
    (hsize : nextPower size ≠ d.ht0.size) : ∃ d', d.expand size = some d' := by
  rw [expand, if_neg (by rintro (h | h); exacts [hr h, absurd hu (not_le.mpr h)])]
  simp only [if_neg hsize]
  split
  next => exact ⟨_, rfl⟩
  next => exact ⟨_, rfl⟩

/-- Expanding as needed cannot fail, and leaves a table to add to. -/
theorem expandIfNeeded_moved (h : d.Wf hash) :
    ∃ d', expandIfNeeded d = some d' ∧ Moved hash d d' ∧ d'.ht0.table ≠ [] := by
  have hexpand {size : Nat} (hr : ¬ d.isRehashing = true) (hu : d.ht0.used ≤ size)
      (hsize : nextPower size ≠ d.ht0.size) :
      ∃ d', d.expand size = some d' ∧ Moved hash d d' ∧ d'.ht0.table ≠ [] := by
    obtain ⟨d', hd'⟩ := expand_eq_some hr hu hsize
    exact ⟨d', hd', expand_moved h hd'⟩
  rw [expandIfNeeded]
  split
  next hr =>
    refine ⟨d, rfl, .refl h, (h.rehashing fun hn => ?_).1⟩
    exact not_isRehashing_iff.mpr hn hr
  next hr =>
    split
    next hzero =>
      have hnil : d.ht0.table = [] := List.eq_nil_of_length_eq_zero hzero
      have hused : d.ht0.used = 0 := by rw [h.ht0.used, DictHt.entries, hnil]; rfl
      exact hexpand hr (by rw [hused]; exact Nat.zero_le _) (by rw [hzero]; decide)
    next hpos =>
      split
      next hfull =>
        have hle := le_nextPower (d.ht0.used * 2)
        exact hexpand hr (by omega) (by omega)
      next => exact ⟨d, rfl, .refl h, fun hnil => hpos (by rw [DictHt.size, hnil]; rfl)⟩

theorem keys_eq (d : Dict K V) : d.keys = d.ht0.entries.map Prod.fst ++ d.ht1.entries.map Prod.fst :=
  List.map_append

theorem not_mem_keys_of_ht1 (h : d.Wf hash) (hr : ¬ d.isRehashing = true) (key : K) :
    key ∉ d.ht1.entries.map Prod.fst := by
  rw [h.idle (not_isRehashing_iff.mp hr)]
  exact List.not_mem_nil

variable [DecidableEq K]

/-- The bucket for a new entry exists, in the table that takes new entries. -/
theorem keyIndex_spec (h : d.Wf hash) (key : K) :
    ∃ d', Moved hash d d' ∧ d'.ht0.table ≠ [] ∧ keyIndex hash d key =
      (d', if key ∈ d.keys then none
        else some (hash key &&& (if d'.isRehashing then d'.ht1 else d'.ht0).sizemask)) := by
  obtain ⟨d', he, hm, hne⟩ := expandIfNeeded_moved h
  refine ⟨d', hm, hne, ?_⟩
  have hkeys : key ∈ d.keys ↔ d'.ht0.has hash key = true ∨ d'.ht1.has hash key = true := by
    rw [← hm.keys_perm.mem_iff, keys_eq, List.mem_append, DictHt.has_iff hm.wf.ht0, DictHt.has_iff hm.wf.ht1]
  simp only [keyIndex, he]
  by_cases h0 : d'.ht0.has hash key = true
  · rw [if_pos h0, if_pos (hkeys.mpr (.inl h0))]
  · rw [if_neg h0]
    by_cases hr : d'.isRehashing = true
    · by_cases h1 : d'.ht1.has hash key = true
      · simp [hr, h1, hkeys]
      · simp [hr, h0, h1, hkeys]
    · have h1 : ¬ d'.ht1.has hash key = true := fun h1 =>
        not_mem_keys_of_ht1 hm.wf hr key ((DictHt.has_iff hm.wf.ht1 key).mp h1)
      simp [hr, h0, h1, hkeys]

theorem add_of_mem (h : d.Wf hash) {key : K} (hk : key ∈ d.keys) (val : V) :
    Moved hash d (add hash d key val).1 ∧ (add hash d key val).2 = false := by
  have hstep := rehashStep_moved h
  obtain ⟨d', hm, -, heq⟩ := keyIndex_spec hstep.wf key
  rw [if_pos (hstep.keys_perm.mem_iff.mpr hk)] at heq
  simp only [add, heq]
  exact ⟨hstep.trans hm, trivial⟩

/-- **Adding a new key puts its entry in.** -/
theorem add_of_not_mem (h : d.Wf hash) {key : K} (hk : key ∉ d.keys) (val : V) :
    (add hash d key val).1.Wf hash ∧ (add hash d key val).1.entries.Perm ((key, val) :: d.entries) ∧
      (add hash d key val).2 = true := by
  have hstep := rehashStep_moved h
  obtain ⟨d', hm', hne, heq⟩ := keyIndex_spec hstep.wf key
  have hm := hstep.trans hm'
  rw [if_neg (mt hstep.keys_perm.mem_iff.mp hk)] at heq
  have hk' : key ∉ d'.keys := mt hm.keys_perm.mem_iff.mp hk
  simp only [add, heq]
  by_cases hr : d'.isRehashing = true
  · rw [if_pos hr, if_pos hr]
    have hne1 := (hm.wf.rehashing fun hn => not_isRehashing_iff.mpr hn hr).2
    have hperm : (entries { d' with ht1 := d'.ht1.push (hash key &&& d'.ht1.sizemask) (key, val) }).Perm
        ((key, val) :: d'.entries) :=
      ((DictHt.push_perm hm.wf.ht1 hne1 (key, val)).append_left _).trans List.perm_middle
    refine ⟨⟨hm.wf.ht0, hm.wf.ht1.push hne1 (key, val), ?_,
      fun hn => absurd hr (not_isRehashing_iff.mpr hn),
      fun _ => ⟨hne, DictHt.push_table_ne_nil _ hne1 _ _⟩⟩, hperm.trans (hm.perm.cons _), rfl⟩
    exact (hperm.map Prod.fst).nodup_iff.mpr (List.nodup_cons.mpr ⟨hk', hm.wf.nodup⟩)
  · rw [if_neg hr, if_neg hr]
    have hperm : (entries { d' with ht0 := d'.ht0.push (hash key &&& d'.ht0.sizemask) (key, val) }).Perm
        ((key, val) :: d'.entries) :=
      (DictHt.push_perm hm.wf.ht0 hne (key, val)).append_right d'.ht1.entries
    refine ⟨⟨hm.wf.ht0.push hne (key, val), hm.wf.ht1, ?_, hm.wf.idle,
      fun hn => absurd (not_isRehashing_iff.mp hr) hn⟩, hperm.trans (hm.perm.cons _), rfl⟩
    exact (hperm.map Prod.fst).nodup_iff.mpr (List.nodup_cons.mpr ⟨hk', hm.wf.nodup⟩)

theorem delete_of_not_mem (h : d.Wf hash) {key : K} (hk : key ∉ d.keys) :
    Moved hash d (delete hash d key).1 ∧ (delete hash d key).2 = false := by
  have hm := rehashStep_moved h
  have hk' := mt hm.keys_perm.mem_iff.mp hk
  rw [keys_eq, List.mem_append, not_or] at hk'
  rw [delete]
  split
  next => exact ⟨.refl h, rfl⟩
  next =>
    rw [if_neg (mt (DictHt.has_iff hm.wf.ht0 key).mp hk'.1),
      if_neg fun hr => hk'.2 ((DictHt.has_iff hm.wf.ht1 key).mp hr.2)]
    exact ⟨hm, rfl⟩

/-- **Deleting a key takes its entry out.** -/
theorem delete_of_mem (h : d.Wf hash) {key : K} (hk : key ∈ d.keys) :
    (delete hash d key).1.Wf hash ∧
      (∃ e : K × V, e.1 = key ∧ (e :: (delete hash d key).1.entries).Perm d.entries) ∧
      (delete hash d key).2 = true := by
  have hm := rehashStep_moved h
  have hpos : ¬ (d.ht0.used = 0 ∧ d.ht1.used = 0) := by
    rintro ⟨h0, h1⟩
    have hlen := h.size_eq_keys
    rw [size, h0, h1] at hlen
    exact absurd (List.length_pos_of_mem hk) (by omega)
  have hsub {d' : Dict K V} {e : K × V} (hp : (e :: d'.entries).Perm (rehashStep hash d).entries) : d'.keys.Nodup :=
    (List.nodup_cons.mp ((hp.map Prod.fst).nodup_iff.mpr hm.wf.nodup)).2
  rw [delete, if_neg hpos]
  by_cases h0 : (rehashStep hash d).ht0.has hash key = true
  · obtain ⟨e, he, hp⟩ := DictHt.unlink_perm hm.wf.ht0 h0
    have hperm : (e :: entries { rehashStep hash d with
        ht0 := (rehashStep hash d).ht0.unlink hash key }).Perm (rehashStep hash d).entries :=
      hp.append_right (rehashStep hash d).ht1.entries
    simp only [if_pos h0]
    refine ⟨⟨hm.wf.ht0.unlink h0, hm.wf.ht1, hsub hperm, hm.wf.idle, fun hr => ?_⟩,
      ⟨e, he, hperm.trans hm.perm⟩, trivial⟩
    exact ⟨DictHt.unlink_table_ne_nil (hm.wf.rehashing hr).1 key, (hm.wf.rehashing hr).2⟩
  · have h1 : (rehashStep hash d).ht1.has hash key = true := by
      have := hm.keys_perm.mem_iff.mpr hk
      rw [keys_eq, List.mem_append, ← DictHt.has_iff hm.wf.ht0, ← DictHt.has_iff hm.wf.ht1] at this
      exact this.resolve_left h0
    have hr : (rehashStep hash d).isRehashing = true := by
      by_contra hr
      exact not_mem_keys_of_ht1 hm.wf hr key ((DictHt.has_iff hm.wf.ht1 key).mp h1)
    obtain ⟨e, he, hp⟩ := DictHt.unlink_perm hm.wf.ht1 h1
    have hperm : (e :: entries { rehashStep hash d with
        ht1 := (rehashStep hash d).ht1.unlink hash key }).Perm (rehashStep hash d).entries :=
      List.perm_middle.symm.trans (hp.append_left (rehashStep hash d).ht0.entries)
    simp only [if_neg h0, if_pos (And.intro hr h1)]
    refine ⟨⟨hm.wf.ht0, hm.wf.ht1.unlink h1, hsub hperm,
      fun hn => absurd hr (not_isRehashing_iff.mpr hn), fun hr => ?_⟩, ⟨e, he, hperm.trans hm.perm⟩, trivial⟩
    exact ⟨(hm.wf.rehashing hr).1, DictHt.unlink_table_ne_nil (hm.wf.rehashing hr).2 key⟩

theorem mem_keys_delete (h : d.Wf hash) (key key' : K) :
    key' ∈ (delete hash d key).1.keys ↔ key' ≠ key ∧ key' ∈ d.keys := by
  by_cases hk : key ∈ d.keys
  · obtain ⟨-, ⟨e, rfl, hp⟩, -⟩ := delete_of_mem h hk
    have hp : (e.1 :: (delete hash d e.1).1.keys).Perm d.keys := hp.map Prod.fst
    have hnot := (List.nodup_cons.mp (hp.nodup_iff.mpr h.nodup)).1
    rw [← hp.mem_iff, List.mem_cons]
    exact ⟨fun hin => ⟨ne_of_mem_of_not_mem hin hnot, .inr hin⟩, fun hin => hin.2.resolve_left hin.1⟩
  · obtain ⟨hm, -⟩ := delete_of_not_mem h hk
    rw [hm.keys_perm.mem_iff]
    exact ⟨fun hin => ⟨ne_of_mem_of_not_mem hin hk, hin⟩, And.right⟩

omit [DecidableEq K]

theorem pickBucket_mem {bucketAt : Nat → List (K × V)} {draws rest : List Nat} {chain : List (K × V)}
    (h : pickBucket bucketAt draws = some (chain, rest)) : chain ≠ [] ∧ ∃ r, chain = bucketAt r := by
  induction draws with
  | nil => cases h
  | cons r draws ih =>
    rw [pickBucket] at h
    split at h
    next => exact ih h
    next hne =>
      cases h
      exact ⟨fun hnil => hne (by rw [hnil]; rfl), r, rfl⟩

theorem mem_of_bucketAt {r : Nat} {e : K × V} (he : e ∈ d.bucketAt r) : e ∈ d.entries := by
  rw [bucketAt] at he
  refine List.mem_append.mpr ?_
  split at he
  next =>
    simp only at he
    split at he
    next => exact .inr (DictHt.mem_entries_of_bucket he)
    next => exact .inl (DictHt.mem_entries_of_bucket he)
  next => exact .inl (DictHt.mem_entries_of_bucket he)

/-- **A drawn key is in the dictionary**, and the draw only moves entries. -/
theorem getRandomKey_spec (h : d.Wf hash) (draws : List Nat) :
    Moved hash d (getRandomKey hash d draws).1 ∧
      (∀ e, (getRandomKey hash d draws).2 = some (some e) → e ∈ d.entries) ∧
      ((getRandomKey hash d draws).2 = some none ↔ d.entries = []) := by
  have hm := rehashStep_moved h
  have hsize : d.size = 0 ↔ d.entries = [] := by rw [h.size_eq, List.length_eq_zero_iff]
  rw [getRandomKey]
  split
  next hzero => exact ⟨.refl h, nofun, iff_of_true rfl (hsize.mp hzero)⟩
  next hpos =>
    have hne : ¬ d.entries = [] := mt hsize.mpr hpos
    simp only
    split
    next chain r rest hpick =>
      obtain ⟨hchain, r', rfl⟩ := pickBucket_mem hpick
      have hlt := Nat.mod_lt r (List.length_pos_iff.mpr hchain)
      rw [List.getElem?_eq_getElem hlt]
      refine ⟨hm, fun e he => ?_, iff_of_false nofun hne⟩
      cases he
      exact hm.perm.mem_iff.mp (mem_of_bucketAt (List.getElem_mem hlt))
    next => exact ⟨hm, nofun, iff_of_false nofun hne⟩

end Dict
end RedisXSlot
