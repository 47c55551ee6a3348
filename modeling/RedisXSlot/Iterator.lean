import RedisXSlot.SharedDictProofs

/-! A safe iterator returns what stays exactly once.

What an iterator still has before it is the rest of the chain it is in, from the entry it
has saved on, then the buckets behind it, then the second table. A step takes the first key
of that. The operations in between put keys in and take keys out; a key that stays is
before the iterator afterwards exactly if it was, since nothing is rehashed while an
iterator runs: it keeps its table, its bucket, and its place behind the saved entry. -/
namespace RedisXSlot
variable {K V : Type} {hash : K → Nat}

namespace DictIterator

section Table
variable {d : Dict K V}

theorem mem_entries {it : DictIterator K} {i : Nat} {e : K × V} (he : e ∈ (it.table d).bucket i) : e ∈ d.entries := by
  unfold table at he
  split at he
  · exact List.mem_append_right _ (DictHt.mem_entries_of_bucket he)
  · exact List.mem_append_left _ (DictHt.mem_entries_of_bucket he)

theorem nodup_bucket (h : d.Wf hash) (it : DictIterator K) (i : Nat) : (((it.table d).bucket i).map Prod.fst).Nodup := by
  have hd := h.nodup
  rw [Dict.keys_eq] at hd
  have hsub : ∀ ht : DictHt K V, (ht.bucket i).Sublist ht.entries := by
    intro ht
    unfold DictHt.bucket
    by_cases hi : i < ht.table.length
    · rw [List.getD_eq_getElem _ _ hi]
      exact List.sublist_flatten_of_mem (List.getElem_mem hi)
    · rw [List.getD_eq_default _ _ (not_lt.mp hi)]
      exact List.nil_sublist _
  unfold table
  split
  · exact (List.nodup_append.mp hd).2.1.sublist ((hsub d.ht1).map _)
  · exact (List.nodup_append.mp hd).1.sublist ((hsub d.ht0).map _)

theorem table_stand (it : DictIterator K) (e : K × V) (chain : List (K × V)) : (it.stand e chain).table d = it.table d := rfl

/-- The buckets the iterator has not got to. -/
def remaining (it : DictIterator K) (d : Dict K V) : List (List (K × V)) :=
  (it.table d).table.drop (it.index.elim 0 (· + 1)) ++ if it.second then [] else d.ht1.table

theorem remaining_of_end (h : d.Wf hash) {it : DictIterator K} (hnext : it.nextBucket d = none) : it.remaining d = [] := by
  unfold nextBucket at hnext
  dsimp only at hnext
  split at hnext
  next hended =>
    have hnil : (it.table d).table.drop (it.index.elim 0 (· + 1)) = [] := List.drop_eq_nil_of_le hended
    unfold remaining
    rw [hnil, List.nil_append]
    cases hs : it.second with
    | true => rfl
    | false =>
      have hr : ¬ d.isRehashing = true := by
        intro hr
        rw [if_pos ⟨hr, by rw [hs]; rfl⟩] at hnext
        cases hnext
      rw [h.idle (Dict.not_isRehashing_iff.mp hr)]
      rfl
  next => cases hnext

/-- The next bucket is the first of those the iterator has not got to. -/
theorem remaining_of_next (h : d.Wf hash) {it it' : DictIterator K} (hnext : it.nextBucket d = some it')
    (hsecond : it.second = true → d.isRehashing = true) :
    it'.entry = it.entry ∧ (it'.second = true → d.isRehashing = true) ∧
      ∃ i, it'.index = some i ∧ it.remaining d = (it'.table d).bucket i :: it'.remaining d := by
  have hdrop : ∀ {ht : DictHt K V} {i : Nat}, i < ht.size → ht.table.drop i = ht.bucket i :: ht.table.drop (i + 1) := by
    intro ht i hi
    have hlt : i < ht.table.length := hi
    rw [DictHt.bucket, List.getD_eq_getElem _ _ hlt, List.getElem_cons_drop]
  unfold nextBucket at hnext
  dsimp only at hnext
  split at hnext
  next hended =>
    split at hnext
    next hgo =>
      cases hnext
      have hnil : (it.table d).table.drop (it.index.elim 0 (· + 1)) = [] := List.drop_eq_nil_of_le hended
      have hne := (h.rehashing fun hn => Dict.not_isRehashing_iff.mpr hn hgo.1).2
      have hfirst := hdrop (show 0 < d.ht1.size from List.length_pos_of_ne_nil hne)
      rw [List.drop_zero] at hfirst
      refine ⟨rfl, fun _ => hgo.1, 0, rfl, ?_⟩
      have hs : it.second = false := by
        cases hs : it.second with
        | false => rfl
        | true => rw [hs] at hgo; cases hgo.2
      unfold remaining
      rw [hnil, hs, List.nil_append]
      simp only [Bool.false_eq_true, if_false, table, if_true, Option.elim_some, List.append_nil]
      exact hfirst
    next => cases hnext
  next hgo =>
    cases hnext
    refine ⟨rfl, hsecond, _, rfl, ?_⟩
    unfold remaining
    rw [hdrop (not_le.mp hgo)]
    rfl

end Table

variable [DecidableEq K]

/-- What is left of the chain the iterator is in. -/
def chainKeys (it : DictIterator K) (d : Dict K V) : List K :=
  match it.entry, it.nextEntry with
  | some _, some key => (it.chainFrom d key).map Prod.fst
  | _, _ => []

/-- The keys the iterator still has before it. -/
def aheadKeys (it : DictIterator K) (d : Dict K V) : List K :=
  it.chainKeys d ++ (it.remaining d).flatten.map Prod.fst

theorem aheadKeys_safe (d : Dict K V) : safe.aheadKeys d = d.keys := by
  show (List.drop 0 d.ht0.table ++ d.ht1.table).flatten.map Prod.fst = d.keys
  rw [List.drop_zero, List.flatten_append]
  rfl

/-- An iterator that stands at an entry. -/
structure At (it : DictIterator K) (d : Dict K V) : Prop where
  entry : it.entry.isSome
  index : ∃ i, it.index = some i ∧ i < (it.table d).size ∧
    ∀ key, it.nextEntry = some key → key ∈ ((it.table d).bucket i).map Prod.fst
  second : it.second = true → d.isRehashing = true

variable {d : Dict K V}

/-- What is before an iterator is part of the dictionary, in its order. -/
theorem aheadKeys_sublist {it : DictIterator K} (hit : it = safe ∨ it.At d) : (it.aheadKeys d).Sublist d.keys := by
  cases hit with
  | inl hsafe =>
    rw [hsafe, aheadKeys_safe]
  | inr hat =>
    obtain ⟨key₀, hentry⟩ := Option.isSome_iff_exists.mp hat.entry
    obtain ⟨i, hi, hlt, -⟩ := hat.index
    have hdrop : (it.table d).bucket i :: (it.table d).table.drop (i + 1) = (it.table d).table.drop i := by
      have hlen : i < (it.table d).table.length := hlt
      rw [DictHt.bucket, List.getD_eq_getElem _ _ hlen, List.getElem_cons_drop]
    have hchain : (it.chainKeys d).Sublist (((it.table d).bucket i).map Prod.fst) := by
      unfold chainKeys chainFrom
      rw [hentry, hi]
      split
      next => exact (List.dropWhile_sublist _).map _
      next => exact List.nil_sublist _
    have hahead : (it.aheadKeys d).Sublist
        (((it.table d).table.drop i ++ if it.second then [] else d.ht1.table).flatten.map Prod.fst) := by
      unfold aheadKeys remaining
      rw [← hdrop, List.cons_append, List.flatten_cons, List.map_append, hi]
      exact hchain.append_right _
    have htables : ((it.table d).table.drop i ++ if it.second then [] else d.ht1.table).Sublist (d.ht0.table ++ d.ht1.table) := by
      unfold table
      split
      · rw [List.append_nil]
        exact (List.drop_sublist ..).trans (List.sublist_append_right ..)
      · exact (List.drop_sublist ..).append_right _
    have hentries : d.keys = (d.ht0.table ++ d.ht1.table).flatten.map Prod.fst := by
      rw [List.flatten_append]
      rfl
    rw [hentries]
    exact hahead.trans (htables.flatten.map _)

/-! ### One step -/

theorem dropWhile_key {pre chain : List (K × V)} {e f : K × V} (hd : ((pre ++ e :: f :: chain).map Prod.fst).Nodup) :
    (pre ++ e :: f :: chain).dropWhile (fun g => decide (g.1 ≠ f.1)) = f :: chain := by
  have hsplit : pre ++ e :: f :: chain = (pre ++ [e]) ++ f :: chain := by simp
  rw [hsplit, List.map_append, List.map_cons] at hd
  have hne : ∀ g ∈ pre ++ [e], decide (g.1 ≠ f.1) = true := by
    intro g hg
    apply decide_eq_true
    exact (List.nodup_append.mp hd).2.2 g.1 (List.mem_map_of_mem hg) f.1 (List.mem_cons_self ..)
  rw [hsplit, List.dropWhile_append_of_pos hne, List.dropWhile_cons, if_neg (by simp)]

/-- A bucket with an entry: the iterator returns the first and saves the next. -/
theorem stand_spec {it : DictIterator K} (h : d.Wf hash) {i : Nat} (hindex : it.index = some i) {e : K × V}
    {chain pre : List (K × V)} (hbucket : (it.table d).bucket i = pre ++ e :: chain)
    (hsecond : it.second = true → d.isRehashing = true) :
    (it.stand e chain).At d ∧ (it.stand e chain).chainKeys d = chain.map Prod.fst := by
  have hnodup := nodup_bucket h it i
  have hlt : i < (it.table d).size := Dict.bucket_index_lt (by rw [hbucket]; simp)
  rw [hbucket] at hnodup
  constructor
  · refine ⟨rfl, ⟨i, hindex, hlt, ?_⟩, hsecond⟩
    intro key hkey
    rw [table_stand, hbucket]
    cases chain with
    | nil => cases hkey
    | cons f chain =>
      cases hkey
      simp
  · cases chain with
    | nil => rfl
    | cons f chain =>
      show ((it.stand e (f :: chain)).chainFrom d f.1).map Prod.fst = _
      unfold chainFrom
      rw [table_stand, show (it.stand e (f :: chain)).index = some i from hindex]
      simp only [hbucket]
      rw [dropWhile_key hnodup]

/-- How many buckets the iterator has not got to. -/
def left (it : DictIterator K) (d : Dict K V) : Nat := (it.remaining d).length

/-- **Looking for the next entry**: the first of the buckets ahead that has one. -/
theorem nextLoop_none (h : d.Wf hash) {it : DictIterator K} (hentry : it.entry = none)
    (hsecond : it.second = true → d.isRehashing = true) {rounds : Nat} (hrounds : it.left d < rounds) :
    (∃ it', nextLoop d rounds it = some (it', none) ∧ it.aheadKeys d = []) ∨
      ∃ it' e, nextLoop d rounds it = some (it', some e) ∧ e ∈ d.entries ∧ it'.At d ∧
        it.aheadKeys d = e.1 :: it'.aheadKeys d := by
  induction rounds generalizing it with
  | zero => omega
  | succ rounds ih =>
    have hchain : it.chainKeys d = [] := by
      unfold chainKeys
      rw [hentry]
    unfold nextLoop
    rw [hentry]
    dsimp only
    cases hnext : it.nextBucket d with
    | none =>
      left
      refine ⟨_, rfl, ?_⟩
      unfold aheadKeys
      rw [hchain, remaining_of_end h hnext]
      rfl
    | some it' =>
      obtain ⟨hsame, hsecond', i, hi, hrem⟩ := remaining_of_next h hnext hsecond
      have hahead : it.aheadKeys d = ((it'.table d).bucket i).map Prod.fst ++ (it'.remaining d).flatten.map Prod.fst := by
        unfold aheadKeys
        rw [hchain, hrem, List.flatten_cons, List.map_append, List.nil_append]
      dsimp only
      rw [hi, Option.getD_some]
      cases hbucket : (it'.table d).bucket i with
      | nil =>
        have hleft : it'.left d < rounds := by
          unfold left at hrounds ⊢
          rw [hrem, List.length_cons] at hrounds
          omega
        have hchain' : it'.chainKeys d = [] := by
          unfold chainKeys
          rw [hsame, hentry]
        have hkeys : it.aheadKeys d = it'.aheadKeys d := by
          rw [hahead, hbucket]
          unfold aheadKeys
          rw [hchain']
          rfl
        rw [hkeys]
        exact ih (hsame.trans hentry) hsecond' hleft
      | cons e chain =>
        right
        obtain ⟨hat, hchain'⟩ := @stand_spec _ _ hash _ d it' h i hi e chain [] hbucket hsecond'
        refine ⟨_, e, rfl, mem_entries (hbucket ▸ List.mem_cons_self ..), hat, ?_⟩
        rw [hahead, hbucket]
        unfold aheadKeys
        rw [hchain']
        rfl

/-- **A step of the iterator** returns what it has before it, or ends if that is nothing; it
never looks at an entry that is gone. -/
theorem nextLoop_spec (h : d.Wf hash) {it : DictIterator K} (hit : it = safe ∨ it.At d) {rounds : Nat}
    (hrounds : d.slots + 1 < rounds) :
    (∃ it', nextLoop d rounds it = some (it', none) ∧ it.aheadKeys d = []) ∨
      ∃ it' e, nextLoop d rounds it = some (it', some e) ∧ e ∈ d.entries ∧ it'.At d ∧
        it.aheadKeys d = e.1 :: it'.aheadKeys d := by
  have hleft : ∀ it : DictIterator K, it.left d ≤ d.slots := by
    intro it
    unfold left remaining table Dict.slots
    rw [List.length_append, List.length_drop]
    split
    · exact le_trans (Nat.sub_le ..) (Nat.le_add_left ..)
    · exact Nat.add_le_add_right (Nat.sub_le ..) _
  cases hit with
  | inl hsafe =>
    rw [hsafe]
    exact nextLoop_none h rfl (fun hc => by cases hc) (by have := hleft (safe : DictIterator K); omega)
  | inr hat =>
    obtain ⟨key₀, hentry⟩ := Option.isSome_iff_exists.mp hat.entry
    obtain ⟨i, hi, -, hnext⟩ := hat.index
    obtain ⟨rounds, rfl⟩ : ∃ k, rounds = k + 1 := ⟨rounds - 1, by omega⟩
    unfold nextLoop
    rw [hentry]
    dsimp only
    cases hkey : it.nextEntry with
    | none =>
      dsimp only
      have hahead : it.aheadKeys d = aheadKeys { it with entry := none, nextEntry := none } d := by
        unfold aheadKeys chainKeys
        rw [hentry, hkey]
        rfl
      rw [hahead]
      have hrest := hleft { it with entry := none, nextEntry := none }
      exact @nextLoop_none _ _ hash _ d h { it with entry := none, nextEntry := none } rfl hat.second rounds (by omega)
    | some key =>
      right
      have hin := hnext key hkey
      obtain ⟨f, hf, hfk⟩ := List.mem_map.mp hin
      have hfrom : it.chainFrom d key = ((it.table d).bucket i).dropWhile fun e => decide (e.1 ≠ key) := by
        unfold chainFrom
        rw [hi]
      have hsplit := List.takeWhile_append_dropWhile (p := fun e : K × V => decide (e.1 ≠ key)) (l := (it.table d).bucket i)
      have hahead : it.aheadKeys d = (it.chainFrom d key).map Prod.fst ++ (it.remaining d).flatten.map Prod.fst := by
        unfold aheadKeys chainKeys
        rw [hentry, hkey]
      rw [← hfrom] at hsplit
      cases hchain : it.chainFrom d key with
      | nil =>
        rw [hfrom, List.dropWhile_eq_nil_iff] at hchain
        exact absurd hfk (of_decide_eq_true (hchain f hf))
      | cons e chain =>
        dsimp only
        rw [hchain] at hsplit hahead
        obtain ⟨hat', hchain'⟩ := stand_spec h hi hsplit.symm hat.second
        have he : e ∈ d.entries := mem_entries (hsplit ▸ List.mem_append_right _ (List.mem_cons_self ..))
        refine ⟨it.stand e chain, e, by rw [hchain], he, hat', ?_⟩
        rw [hahead]
        unfold aheadKeys
        rw [hchain']
        rfl

end DictIterator

/-- The buckets of a table from a place on hold a key if one of them does. -/
theorem DictHt.mem_drop_iff (ht : DictHt K V) (s : Nat) (key : K) :
    key ∈ (ht.table.drop s).flatten.map Prod.fst ↔ ∃ j, s ≤ j ∧ key ∈ (ht.bucket j).map Prod.fst := by
  rw [List.mem_map]
  constructor
  · intro hk
    obtain ⟨e, he, rfl⟩ := hk
    obtain ⟨chain, hchain, he⟩ := List.mem_flatten.mp he
    obtain ⟨j, hj, rfl⟩ := List.mem_iff_getElem.mp hchain
    rw [List.length_drop] at hj
    refine ⟨s + j, Nat.le_add_right .., List.mem_map_of_mem ?_⟩
    rw [DictHt.bucket, List.getD_eq_getElem _ _ (by omega)]
    rw [List.getElem_drop] at he
    exact he
  · intro hk
    obtain ⟨j, hsj, hk⟩ := hk
    obtain ⟨e, he, rfl⟩ := List.mem_map.mp hk
    have hj : j < ht.table.length := Dict.bucket_index_lt (List.ne_nil_of_mem he)
    refine ⟨e, List.mem_flatten.mpr ⟨ht.bucket j, ?_, he⟩, rfl⟩
    rw [DictHt.bucket, List.getD_eq_getElem _ _ hj]
    exact List.mem_drop_iff_getElem.mpr ⟨j - s, by omega, by congr 1; omega⟩

variable [DecidableEq K]

/-! ### What happens between two steps -/

/-- A chain is changed around the keys that stay and the saved entry: none of them comes or
goes, and those that stay are on their side of the saved entry. -/
structure Around (saved : Option K) (stays : Set K) (chain chain' : List K) : Prop where
  mem : ∀ key ∈ stays, key ∈ chain' ↔ key ∈ chain
  behind : ∀ n, saved = some n → n ∈ chain → n ∈ chain' ∧ ∀ key ∈ stays,
    key ∈ chain'.dropWhile (fun k => decide (k ≠ n)) ↔ key ∈ chain.dropWhile (fun k => decide (k ≠ n))

namespace Around
variable {saved : Option K} {stays : Set K} {x : K} {chain chain' : List K}

theorem refl (saved : Option K) (stays : Set K) (chain : List K) : Around saved stays chain chain :=
  ⟨fun _ _ => Iff.rfl, fun _ _ hn => ⟨hn, fun _ _ => Iff.rfl⟩⟩

theorem push (hx : x ∉ stays) (hsaved : saved ≠ some x) : Around saved stays chain (x :: chain) := by
  constructor
  · intro key hkey
    exact List.mem_cons.trans (or_iff_right fun he => hx (he ▸ hkey))
  · intro n hn hin
    have hne : x ≠ n := fun he => hsaved (he ▸ hn)
    refine ⟨List.mem_cons_of_mem x hin, fun key _ => ?_⟩
    rw [List.dropWhile_cons, if_pos (decide_eq_true hne)]

theorem dropWhile_erase {n : K} (hne : x ≠ n) (hd : chain.Nodup) :
    (chain.erase x).dropWhile (fun k => decide (k ≠ n)) = (chain.dropWhile fun k => decide (k ≠ n)).erase x := by
  induction chain with
  | nil => rfl
  | cons y chain ih =>
    obtain ⟨hy, hd⟩ := List.nodup_cons.mp hd
    by_cases hyx : y = x
    · rw [hyx, List.erase_cons_head, List.dropWhile_cons, if_pos (decide_eq_true hne), List.erase_of_not_mem]
      intro hin
      exact hy (hyx ▸ (List.dropWhile_sublist _).subset hin)
    · rw [List.erase_cons_tail (by simpa using hyx), List.dropWhile_cons, List.dropWhile_cons]
      split
      · exact ih hd
      · rw [List.erase_cons_tail (by simpa using hyx)]

theorem erase (hx : x ∉ stays) (hsaved : saved ≠ some x) (hd : chain.Nodup) : Around saved stays chain (chain.erase x) := by
  have hkeep : ∀ key ∈ stays, ∀ l : List K, key ∈ l.erase x ↔ key ∈ l := fun key hkey l =>
    List.mem_erase_of_ne fun he => hx (he ▸ hkey)
  refine ⟨fun key hkey => hkeep key hkey chain, ?_⟩
  intro n hn hin
  have hne : x ≠ n := fun he => hsaved (he ▸ hn)
  refine ⟨(List.mem_erase_of_ne hne.symm).mpr hin, fun key hkey => ?_⟩
  rw [dropWhile_erase hne hd]
  exact hkeep key hkey _

theorem trans {chain'' : List K} (h : Around saved stays chain chain') (h' : Around saved stays chain' chain'') :
    Around saved stays chain chain'' := by
  refine ⟨fun key hkey => (h'.mem key hkey).trans (h.mem key hkey), ?_⟩
  intro n hn hin
  obtain ⟨hin', hiff⟩ := h.behind n hn hin
  obtain ⟨hin'', hiff'⟩ := h'.behind n hn hin'
  exact ⟨hin'', fun key hkey => (hiff' key hkey).trans (hiff key hkey)⟩

end Around

/-- A table of which only chains are changed, around what stays. -/
structure Steady (saved : Option K) (stays : Set K) (ht ht' : DictHt K V) : Prop where
  size : ht'.size = ht.size
  bucket : ∀ i, Around saved stays ((ht.bucket i).map Prod.fst) ((ht'.bucket i).map Prod.fst)

namespace Steady
variable {saved : Option K} {stays : Set K} {x : K} {ht ht' : DictHt K V}

theorem refl (saved : Option K) (stays : Set K) (ht : DictHt K V) : Steady saved stays ht ht :=
  ⟨rfl, fun _ => Around.refl ..⟩

theorem trans {ht'' : DictHt K V} (h : Steady saved stays ht ht') (h' : Steady saved stays ht' ht'') :
    Steady saved stays ht ht'' :=
  ⟨h'.size.trans h.size, fun i => (h.bucket i).trans (h'.bucket i)⟩

theorem set {i used : Nat} {chain : List (K × V)} (h : Around saved stays ((ht.bucket i).map Prod.fst) (chain.map Prod.fst)) :
    Steady saved stays ht ⟨ht.table.set i chain, used⟩ := by
  refine ⟨List.length_set .., fun j => ?_⟩
  rw [DictHt.bucket_set]
  split
  next hij => exact hij.1 ▸ h
  next => exact Around.refl ..

theorem push {e : K × V} {i : Nat} (hx : e.1 ∉ stays) (hsaved : saved ≠ some e.1) : Steady saved stays ht (ht.push i e) :=
  set (Around.push hx hsaved)

theorem map_fst_eraseP (x : K) (chain : List (K × V)) :
    (chain.eraseP fun e => decide (e.1 = x)).map Prod.fst = (chain.map Prod.fst).erase x := by
  induction chain with
  | nil => rfl
  | cons e chain ih =>
    by_cases he : e.1 = x
    · rw [List.eraseP_cons_of_pos (p := fun e : K × V => decide (e.1 = x)) (decide_eq_true he), List.map_cons, he,
        List.erase_cons_head]
    · rw [List.eraseP_cons_of_neg (p := fun e : K × V => decide (e.1 = x)) (by simpa using he), List.map_cons,
        List.map_cons, ih, List.erase_cons_tail (by simpa using he)]

theorem unlink (hx : x ∉ stays) (hsaved : saved ≠ some x) (hd : ∀ i, ((ht.bucket i).map Prod.fst).Nodup) :
    Steady saved stays ht (ht.unlink hash x) := by
  apply set
  rw [map_fst_eraseP]
  exact Around.erase hx hsaved (hd _)

theorem setVal (x : K) (val : V) : Steady saved stays ht (ht.setVal hash x val) := by
  apply set
  rw [DictHt.map_fst_setFirst]
  exact Around.refl ..

theorem mem_drop (h : Steady saved stays ht ht') (s : Nat) {key : K} (hkey : key ∈ stays) :
    key ∈ (ht'.table.drop s).flatten.map Prod.fst ↔ key ∈ (ht.table.drop s).flatten.map Prod.fst := by
  rw [DictHt.mem_drop_iff, DictHt.mem_drop_iff]
  exact exists_congr fun j => and_congr_right fun _ => (h.bucket j).mem key hkey

end Steady

/-- A dictionary changed around what stays, a new second table apart. -/
structure Framed (saved : Option K) (stays : Set K) (d d' : Dict K V) : Prop where
  ht0 : Steady saved stays d.ht0 d'.ht0
  ht1 : d.isRehashing = true → d'.isRehashing = true ∧ Steady saved stays d.ht1 d'.ht1
  idle : ¬ d.isRehashing = true → ∀ key ∈ stays, key ∉ d'.ht1.entries.map Prod.fst

namespace Framed
variable {saved : Option K} {stays : Set K} {d d' d'' : Dict K V}

/-- Chains that change in place leave the tables where they are. -/
theorem of_steady (h : d.Wf hash) (h0 : Steady saved stays d.ht0 d'.ht0) (h1 : Steady saved stays d.ht1 d'.ht1)
    (hr : d'.rehashidx = d.rehashidx) : Framed saved stays d d' := by
  refine ⟨h0, ?_, ?_⟩
  · intro hrehash
    refine ⟨?_, h1⟩
    unfold Dict.isRehashing at hrehash ⊢
    rw [hr]
    exact hrehash
  · intro hidle key hkey
    exact mt (h1.mem_drop 0 hkey).mp (Dict.not_mem_keys_of_ht1 h hidle key)

theorem refl (h : d.Wf hash) (saved : Option K) (stays : Set K) : Framed saved stays d d :=
  of_steady h (Steady.refl ..) (Steady.refl ..) rfl

/-- The iterator stays where it is. -/
theorem at_of (h : Framed saved stays d d') {it : DictIterator K} (hat : it.At d) (hsaved : it.nextEntry = saved) : it.At d' := by
  obtain ⟨i, hi, hlt, hnext⟩ := hat.index
  have htable : Steady saved stays (it.table d) (it.table d') := by
    unfold DictIterator.table
    split
    next hs => exact (h.ht1 (hat.second hs)).2
    next => exact h.ht0
  refine ⟨hat.entry, ⟨i, hi, ?_, ?_⟩, fun hs => (h.ht1 (hat.second hs)).1⟩
  · rw [htable.size]
    exact hlt
  · intro n hn
    exact ((htable.bucket i).behind n (hsaved ▸ hn) (hnext n hn)).1

/-- **What is before an iterator stays before it**, and what is behind it behind. -/
theorem ahead (h : Framed saved stays d d') (hwf : d.Wf hash) {it : DictIterator K} (hat : it.At d)
    (hsaved : it.nextEntry = saved) {key : K} (hkey : key ∈ stays) : key ∈ it.aheadKeys d' ↔ key ∈ it.aheadKeys d := by
  obtain ⟨key₀, hentry⟩ := Option.isSome_iff_exists.mp hat.entry
  obtain ⟨i, hi, hlt, hnext⟩ := hat.index
  have htable : Steady saved stays (it.table d) (it.table d') := by
    unfold DictIterator.table
    split
    next hs => exact (h.ht1 (hat.second hs)).2
    next => exact h.ht0
  have hchain : key ∈ it.chainKeys d' ↔ key ∈ it.chainKeys d := by
    unfold DictIterator.chainKeys
    rw [hentry]
    cases hn : it.nextEntry with
    | none => exact Iff.rfl
    | some n =>
      have hmap : ∀ chain : List (K × V), (chain.dropWhile fun e => decide (e.1 ≠ n)).map Prod.fst =
          (chain.map Prod.fst).dropWhile fun k => decide (k ≠ n) := by
        intro chain
        rw [List.dropWhile_map]
        rfl
      have hbehind := ((htable.bucket i).behind n (hsaved ▸ hn) (hnext n hn)).2 key hkey
      unfold DictIterator.chainFrom
      dsimp only
      rw [hi]
      dsimp only
      rw [hmap, hmap]
      exact hbehind
  have hrest : key ∈ (it.remaining d').flatten.map Prod.fst ↔ key ∈ (it.remaining d).flatten.map Prod.fst := by
    unfold DictIterator.remaining
    rw [List.flatten_append, List.flatten_append, List.map_append, List.map_append, List.mem_append, List.mem_append,
      htable.mem_drop _ hkey]
    apply or_congr_right
    cases it.second with
    | true => exact Iff.rfl
    | false =>
      show key ∈ d'.ht1.entries.map Prod.fst ↔ key ∈ d.ht1.entries.map Prod.fst
      by_cases hr : d.isRehashing = true
      · exact (h.ht1 hr).2.mem_drop 0 hkey
      · exact iff_of_false (h.idle hr key hkey) (Dict.not_mem_keys_of_ht1 hwf hr key)
  unfold DictIterator.aheadKeys
  rw [List.mem_append, List.mem_append, hchain, hrest]

theorem trans (h : Framed saved stays d d') (h' : Framed saved stays d' d'') : Framed saved stays d d'' := by
  refine ⟨h.ht0.trans h'.ht0, ?_, ?_⟩
  · intro hr
    obtain ⟨hr', h1⟩ := h.ht1 hr
    obtain ⟨hr'', h1'⟩ := h'.ht1 hr'
    exact ⟨hr'', h1.trans h1'⟩
  · intro hr key hkey
    by_cases hr' : d'.isRehashing = true
    · exact mt ((h'.ht1 hr').2.mem_drop 0 hkey).mp (h.idle hr key hkey)
    · exact h'.idle hr' key hkey

/-- Expanding beside a table that is there changes no chain. -/
theorem expand (hne : d.ht0.table ≠ []) {size : Nat} (he : d.expand size = some d') (saved : Option K) (stays : Set K) :
    Framed saved stays d d' := by
  unfold Dict.expand at he
  split at he
  next => cases he
  next hgo =>
    dsimp only at he
    split at he
    next => cases he
    next =>
      have hnot : ¬ d.ht0.table.isEmpty = true := fun hc => hne (List.isEmpty_iff.mp hc)
      rw [if_neg hnot] at he
      cases he
      refine ⟨Steady.refl .., fun hr => absurd (Or.inl hr) hgo, ?_⟩
      intro _ key _ hk
      obtain ⟨e, he, -⟩ := List.mem_map.mp hk
      obtain ⟨chain, hchain, he⟩ := List.mem_flatten.mp he
      rw [(List.mem_replicate.mp hchain).2] at he
      cases he

theorem expandIfNeeded (h : d.Wf hash) (hne : d.ht0.table ≠ []) (he : d.expandIfNeeded = some d') (saved : Option K)
    (stays : Set K) : Framed saved stays d d' := by
  unfold Dict.expandIfNeeded at he
  split at he
  next =>
    cases he
    exact refl h saved stays
  next =>
    split at he
    next hzero => exact absurd (List.eq_nil_of_length_eq_zero hzero) hne
    next =>
      split at he
      next => exact expand hne he saved stays
      next =>
        cases he
        exact refl h saved stays

end Framed

/-! ### Operations while an iterator runs -/

namespace SharedDict
variable {d d' : SharedDict K V} {m : Finmap fun _ : K => V}

/-- An operation that may come between two steps of the iterator: none that rehashes by
itself, and no deletion of the entry the iterator has saved. Other iterators come and go. -/
def Op.Safe (it : DictIterator K) : Op K V → Prop
  | .unlink key => it.nextEntry ≠ some key
  | .iterators n => n ≠ 0 ∨ it.entry = none
  | .rehash _ _ | .rehashMilliseconds _ | .empty => False
  | _ => True

theorem exists_represents (h : d.toDict.Wf hash) : ∃ m : Finmap fun _ : K => V, d.Represents hash m := by
  have hlist : ∀ es : List (K × V), (es.map Prod.fst).Nodup →
      ∃ m : Finmap fun _ : K => V, ∀ e : K × V, e ∈ es ↔ m.lookup e.1 = some e.2 := by
    intro es
    induction es with
    | nil =>
      intro _
      refine ⟨∅, fun e => iff_of_false (by simp) ?_⟩
      rw [Finmap.lookup_empty]
      simp
    | cons f es ih =>
      intro hd
      rw [List.map_cons, List.nodup_cons] at hd
      obtain ⟨m, hm⟩ := ih hd.2
      refine ⟨m.insert f.1 f.2, fun e => ?_⟩
      rw [List.mem_cons]
      by_cases hef : e.1 = f.1
      · rw [hef, Finmap.lookup_insert]
        constructor
        · intro hin
          cases hin with
          | inl heq => rw [heq]
          | inr hin => exact absurd (hef ▸ List.mem_map_of_mem hin) hd.1
        · intro hval
          exact Or.inl (Prod.ext hef (Option.some.inj hval).symm)
      · rw [Finmap.lookup_insert_of_ne _ hef, ← hm]
        apply or_iff_right
        intro heq
        exact hef (congrArg Prod.fst heq)
  obtain ⟨m, hm⟩ := hlist d.entries h.nodup
  exact ⟨m, h, hm⟩

/-- What is not deleted stays. -/
theorem mem_perform (h : d.toDict.Wf hash) {it : DictIterator K} {op : Op K V} (hsafe : op.Safe it) {key : K}
    (hk : key ∈ d.keys) (hop : op ≠ .unlink key) : key ∈ (d.perform hash op).1.keys := by
  obtain ⟨m, hrep⟩ := exists_represents h
  have hm := (hrep.mem_keys key).mp hk
  rw [(perform_represents hrep op).1.mem_keys]
  cases op with
  | add x val =>
    show key ∈ if x ∈ m then m else m.insert x val
    split
    · exact hm
    · exact Finmap.mem_insert.mpr (Or.inr hm)
  | replace x val => exact Finmap.mem_insert.mpr (Or.inr hm)
  | unlink x => exact Finmap.mem_erase.mpr ⟨fun he => hop (by rw [he]), hm⟩
  | empty => exact absurd hsafe id
  | _ => exact hm

theorem find_held (hash : K → Nat) (hheld : d.iterators ≠ 0) (key : K) : (d.find hash key).1 = d := by
  unfold find
  rw [rehashStep_held hash hheld]
  split
  next => rfl
  next =>
    dsimp only
    split
    next => rfl
    next => split <;> rfl

section Framed
variable {saved : Option K} {stays : Set K} {x : K}

theorem pushed_framed {val : V} (h : d.toDict.Wf hash) (hx : x ∉ stays) (hsaved : saved ≠ some x) :
    Framed saved stays d.toDict (d.pushed hash x val).toDict := by
  unfold pushed
  split
  next hr =>
    exact ⟨Steady.refl .., fun _ => ⟨hr, Steady.push hx hsaved⟩, fun hn => absurd hr hn⟩
  next => exact Framed.of_steady h (Steady.push hx hsaved) (Steady.refl ..) rfl

theorem add_framed (h : d.toDict.Wf hash) (hheld : d.iterators ≠ 0) (hne : d.ht0.table ≠ []) (val : V)
    (hnew : x ∉ d.keys → x ∉ stays ∧ saved ≠ some x) :
    Framed saved stays d.toDict (d.add hash x val).1.toDict ∧ (d.add hash x val).1.iterators = d.iterators := by
  obtain ⟨d', he, hm, hit, -, hin, hout⟩ := @addRaw_spec _ _ hash _ d h x val
  rw [rehashStep_held hash hheld] at he
  have hframe := Framed.expandIfNeeded h hne he saved stays
  unfold add
  by_cases hx : x ∈ d.keys
  · obtain ⟨e, -, -, heq⟩ := hin hx
    rw [heq]
    exact ⟨hframe, hit⟩
  · rw [hout hx]
    exact ⟨hframe.trans (pushed_framed hm.wf (hnew hx).1 (hnew hx).2), (pushed_iterators hash d' x val).trans hit⟩

theorem replace_framed (h : d.toDict.Wf hash) (hheld : d.iterators ≠ 0) (hne : d.ht0.table ≠ []) (val : V)
    (hnew : x ∉ d.keys → x ∉ stays ∧ saved ≠ some x) :
    Framed saved stays d.toDict (d.replace hash x val).1.toDict ∧ (d.replace hash x val).1.iterators = d.iterators := by
  obtain ⟨d', he, hm, hit, -, hin, hout⟩ := @addRaw_spec _ _ hash _ d h x val
  rw [rehashStep_held hash hheld] at he
  have hframe := Framed.expandIfNeeded h hne he saved stays
  unfold replace
  by_cases hx : x ∈ d.keys
  · obtain ⟨e, -, -, heq⟩ := hin hx
    rw [heq]
    dsimp only
    split
    next => exact ⟨hframe.trans (Framed.of_steady hm.wf (Steady.setVal x val) (Steady.refl ..) rfl), hit⟩
    next => exact ⟨hframe.trans (Framed.of_steady hm.wf (Steady.refl ..) (Steady.setVal x val) rfl), hit⟩
  · rw [hout hx]
    exact ⟨hframe.trans (pushed_framed hm.wf (hnew hx).1 (hnew hx).2), (pushed_iterators hash d' x val).trans hit⟩

theorem unlink_framed (h : d.toDict.Wf hash) (hheld : d.iterators ≠ 0) (hx : x ∉ stays) (hsaved : saved ≠ some x) :
    Framed saved stays d.toDict (d.unlink hash x).1.toDict ∧ (d.unlink hash x).1.iterators = d.iterators := by
  have hd0 : ∀ i, ((d.ht0.bucket i).map Prod.fst).Nodup :=
    DictIterator.nodup_bucket h (⟨false, none, none, none⟩ : DictIterator K)
  have hd1 : ∀ i, ((d.ht1.bucket i).map Prod.fst).Nodup :=
    DictIterator.nodup_bucket h (⟨true, none, none, none⟩ : DictIterator K)
  have hsame : Framed saved stays d.toDict d.toDict := Framed.refl h saved stays
  unfold unlink
  rw [rehashStep_held hash hheld]
  split
  next => exact ⟨hsame, rfl⟩
  next =>
    dsimp only
    split
    next => exact ⟨Framed.of_steady h (Steady.unlink hx hsaved hd0) (Steady.refl ..) rfl, rfl⟩
    next =>
      split
      next => exact ⟨hsame, rfl⟩
      next =>
        split
        next => exact ⟨Framed.of_steady h (Steady.refl ..) (Steady.unlink hx hsaved hd1) rfl, rfl⟩
        next => exact ⟨hsame, rfl⟩

end Framed

/-- The keys an operation leaves in. -/
def staying (d : SharedDict K V) (op : Op K V) : Set K := {key | key ∈ d.keys ∧ op ≠ .unlink key}

/-- **While an iterator runs** an operation changes chains only, and those around what stays. -/
theorem perform_framed (h : d.toDict.Wf hash) (hheld : d.iterators ≠ 0) {it : DictIterator K} (hat : it.At d.toDict)
    {op : Op K V} (hsafe : op.Safe it) :
    Framed it.nextEntry (d.staying op) d.toDict (d.perform hash op).1.toDict ∧ (d.perform hash op).1.iterators ≠ 0 := by
  have hentry : it.entry ≠ none := Option.isSome_iff_ne_none.mp hat.entry
  obtain ⟨i, hi, hlt, hnext⟩ := hat.index
  have hne : d.ht0.table ≠ [] := by
    unfold DictIterator.table at hlt
    split at hlt
    next hs => exact (h.rehashing fun hn => Dict.not_isRehashing_iff.mpr hn (hat.second hs)).1
    next => exact List.ne_nil_of_length_pos (Nat.zero_lt_of_lt hlt)
  have hnew : ∀ x, x ∉ d.keys → x ∉ d.staying op ∧ it.nextEntry ≠ some x := by
    intro x hx
    refine ⟨fun hstays => hx hstays.1, fun hn => ?_⟩
    obtain ⟨e, he, heq⟩ := List.mem_map.mp (hnext x hn)
    exact hx (heq ▸ List.mem_map_of_mem (DictIterator.mem_entries he))
  have hsame : Framed it.nextEntry (d.staying op) d.toDict d.toDict := Framed.refl h it.nextEntry _
  cases op with
  | add x val =>
    obtain ⟨hframe, hit⟩ := add_framed h hheld hne val (hnew x)
    exact ⟨hframe, hit.trans_ne hheld⟩
  | replace x val =>
    obtain ⟨hframe, hit⟩ := replace_framed h hheld hne val (hnew x)
    exact ⟨hframe, hit.trans_ne hheld⟩
  | find x =>
    show Framed _ _ _ (d.find hash x).1.toDict ∧ (d.find hash x).1.iterators ≠ 0
    rw [find_held hash hheld]
    exact ⟨hsame, hheld⟩
  | unlink x =>
    have hx : x ∉ d.staying (.unlink x) := fun hstays => hstays.2 rfl
    obtain ⟨hframe, hit⟩ := unlink_framed h hheld hx hsafe
    exact ⟨hframe, hit.trans_ne hheld⟩
  | size => exact ⟨hsame, hheld⟩
  | resize =>
    show Framed _ _ _ (d.resize).1.toDict ∧ (d.resize).1.iterators ≠ 0
    unfold resize
    split
    next d' hd' =>
      unfold Dict.resize at hd'
      split at hd'
      next => cases hd'
      next => exact ⟨Framed.expand hne hd' .., hheld⟩
    next => exact ⟨hsame, hheld⟩
  | expand size _ =>
    show Framed _ _ _ (d.expand size).1.toDict ∧ (d.expand size).1.iterators ≠ 0
    unfold expand
    split
    next d' hd' => exact ⟨Framed.expand hne hd' .., hheld⟩
    next => exact ⟨hsame, hheld⟩
  | rehash n _ => exact absurd hsafe id
  | rehashMilliseconds rounds => exact absurd hsafe id
  | iterators n => exact ⟨hsame, hsafe.resolve_right hentry⟩
  | empty => exact absurd hsafe id

/-! ### Runs -/

/-- A safe iterator over a dictionary that is worked on between its steps: what has been done
to the dictionary, and the entries returned, the latest first. -/
inductive Iterates (hash : K → Nat) (d₀ : SharedDict K V) :
    SharedDict K V → DictIterator K → List (Op K V) → List (K × V) → Prop where
  | start : Iterates hash d₀ d₀ .safe [] []
  | perform {d it ops out op} : Iterates hash d₀ d it ops out → Op.Safe it op →
      Iterates hash d₀ (d.perform hash op).1 it (op :: ops) out
  | next {d d' it it' ops out e} : Iterates hash d₀ d it ops out → d.next it = some (d', it', some e) →
      Iterates hash d₀ d' it' ops (e :: out)

/-- **A step** returns what the iterator has before it, or ends if that is nothing. -/
theorem next_spec (h : d.toDict.Wf hash) {it : DictIterator K} (hit : it = .safe ∨ it.At d.toDict ∧ d.iterators ≠ 0) :
    ∃ d' it', d'.toDict = d.toDict ∧ d'.iterators ≠ 0 ∧
      ((d.next it = some (d', it', none) ∧ it.aheadKeys d.toDict = []) ∨
        ∃ e, d.next it = some (d', it', some e) ∧ e ∈ d.entries ∧ it'.At d.toDict ∧
          it.aheadKeys d.toDict = e.1 :: it'.aheadKeys d.toDict) := by
  obtain ⟨d', hsame, hcount, hgo⟩ : ∃ d' : SharedDict K V, d'.toDict = d.toDict ∧ d'.iterators ≠ 0 ∧
      ∀ it' e, it.nextLoop d.toDict (d.slots + 2) = some (it', e) → d.next it = some (d', it', e) := by
    cases hit with
    | inl hsafe =>
      refine ⟨{ d with iterators := d.iterators + 1 }, rfl, Nat.succ_ne_zero _, ?_⟩
      intro it' e hloop
      have hfirst : it.entry.isNone = true ∧ it.index.isNone = true ∧ (!it.second) = true := by
        rw [hsafe]
        exact ⟨rfl, rfl, rfl⟩
      unfold next
      simp only [if_pos hfirst, hloop]
    | inr hit =>
      refine ⟨d, rfl, hit.2, ?_⟩
      intro it' e hloop
      have hlater : ¬ (it.entry.isNone = true ∧ it.index.isNone = true ∧ (!it.second) = true) := by
        intro hfirst
        have hentry := hit.1.entry
        rw [Option.isNone_iff_eq_none.mp hfirst.1] at hentry
        cases hentry
      unfold next
      simp only [if_neg hlater, hloop]
  have hspec := DictIterator.nextLoop_spec h (hit.imp_right And.left) (show d.slots + 1 < d.slots + 2 from Nat.lt_succ_self _)
  cases hspec with
  | inl hend =>
    obtain ⟨it', hloop, hahead⟩ := hend
    exact ⟨d', it', hsame, hcount, Or.inl ⟨hgo _ _ hloop, hahead⟩⟩
  | inr hspec =>
    obtain ⟨it', e, hloop, hin, hat, hahead⟩ := hspec
    exact ⟨d', it', hsame, hcount, Or.inr ⟨e, hgo _ _ hloop, hin, hat, hahead⟩⟩

/-- What holds of a safe iterator between its steps. -/
structure Iterating (hash : K → Nat) (d₀ d : SharedDict K V) (it : DictIterator K) (ops : List (Op K V))
    (out : List (K × V)) : Prop where
  wf : d.toDict.Wf hash
  place : it = .safe ∨ it.At d.toDict ∧ d.iterators ≠ 0
  start : it = .safe → out = []
  once : ∀ key, Op.unlink key ∉ ops → (out.map Prod.fst).count key ≤ 1
  behind : ∀ key, Op.unlink key ∉ ops → key ∈ out.map Prod.fst → key ∈ d.keys ∧ key ∉ it.aheadKeys d.toDict
  all : ∀ key ∈ d₀.keys, Op.unlink key ∉ ops →
    key ∈ d.keys ∧ (key ∈ out.map Prod.fst ∨ key ∈ it.aheadKeys d.toDict)

namespace Iterating
variable {d₀ : SharedDict K V} {it : DictIterator K} {ops : List (Op K V)} {out : List (K × V)}

theorem perform (h : Iterating hash d₀ d it ops out) {op : Op K V} (hsafe : op.Safe it) :
    Iterating hash d₀ (d.perform hash op).1 it (op :: ops) out := by
  obtain ⟨m, hrep⟩ := exists_represents h.wf
  have hwf := (perform_represents hrep op).1.wf
  have hstay : ∀ key, Op.unlink key ∉ op :: ops → op ≠ .unlink key ∧ Op.unlink key ∉ ops := by
    intro key hkey
    rw [List.mem_cons, not_or] at hkey
    exact ⟨Ne.symm hkey.1, hkey.2⟩
  have hstart := h.start
  have honce := fun key hkey => h.once key (hstay key hkey).2
  have hplace := h.place
  cases hplace with
  | inl hit =>
    refine ⟨hwf, Or.inl hit, hstart, honce, ?_, ?_⟩
    · intro key _ hin
      rw [hstart hit] at hin
      cases hin
    · intro key hkey hop
      obtain ⟨hne, hops⟩ := hstay key hop
      have hk := mem_perform h.wf hsafe (h.all key hkey hops).1 hne
      refine ⟨hk, Or.inr ?_⟩
      rw [hit, DictIterator.aheadKeys_safe]
      exact hk
  | inr hrun =>
    obtain ⟨hat, hheld⟩ := hrun
    obtain ⟨hframe, hheld'⟩ := perform_framed h.wf hheld hat hsafe
    refine ⟨hwf, Or.inr ⟨hframe.at_of hat rfl, hheld'⟩, hstart, honce, ?_, ?_⟩
    · intro key hop hin
      obtain ⟨hne, hops⟩ := hstay key hop
      obtain ⟨hk, hout⟩ := h.behind key hops hin
      exact ⟨mem_perform h.wf hsafe hk hne, mt (hframe.ahead h.wf hat rfl ⟨hk, hne⟩).mp hout⟩
    · intro key hkey hop
      obtain ⟨hne, hops⟩ := hstay key hop
      obtain ⟨hk, hor⟩ := h.all key hkey hops
      exact ⟨mem_perform h.wf hsafe hk hne, hor.imp_right (hframe.ahead h.wf hat rfl ⟨hk, hne⟩).mpr⟩

theorem next (h : Iterating hash d₀ d it ops out) {d' : SharedDict K V} {it' : DictIterator K} {e : K × V}
    (hnext : d.next it = some (d', it', some e)) : Iterating hash d₀ d' it' ops (e :: out) := by
  obtain ⟨d₁, it₁, hsame, hcount, hcases⟩ := next_spec h.wf h.place
  cases hcases with
  | inl hend =>
    rw [hend.1] at hnext
    cases hnext
  | inr hgo =>
    obtain ⟨e₁, heq, hin, hat, hahead⟩ := hgo
    rw [heq] at hnext
    cases hnext
    have hnodup : (e.1 :: it'.aheadKeys d.toDict).Nodup := by
      rw [← hahead]
      exact h.wf.nodup.sublist (DictIterator.aheadKeys_sublist (h.place.imp_right And.left))
    obtain ⟨hfirst, -⟩ := List.nodup_cons.mp hnodup
    have hbefore : ∀ key, key ∈ it.aheadKeys d.toDict ↔ key = e.1 ∨ key ∈ it'.aheadKeys d.toDict := by
      intro key
      rw [hahead, List.mem_cons]
    rw [← hsame] at hat
    refine ⟨hsame ▸ h.wf, Or.inr ⟨hat, hcount⟩, ?_, ?_, ?_, ?_⟩
    · intro hsafe
      have hentry := hat.entry
      rw [hsafe] at hentry
      cases hentry
    · intro key hop
      rw [List.map_cons, List.count_cons]
      have hc := h.once key hop
      split
      next he =>
        have hahead := (hbefore key).mpr (Or.inl (beq_iff_eq.mp he).symm)
        have hout : key ∉ out.map Prod.fst := fun hin => (h.behind key hop hin).2 hahead
        rw [List.count_eq_zero.mpr hout]
      next => exact hc
    · intro key hop hkey
      rw [hsame]
      rw [List.map_cons, List.mem_cons] at hkey
      cases hkey with
      | inl he => exact ⟨he ▸ List.mem_map_of_mem hin, he ▸ hfirst⟩
      | inr hkey =>
        obtain ⟨hk, hout⟩ := h.behind key hop hkey
        exact ⟨hk, fun hc => hout ((hbefore key).mpr (Or.inr hc))⟩
    · intro key hkey hop
      obtain ⟨hk, hor⟩ := h.all key hkey hop
      rw [hsame]
      refine ⟨hk, ?_⟩
      rw [hbefore] at hor
      rw [List.map_cons, List.mem_cons]
      tauto

end Iterating

theorem iterating {d₀ : SharedDict K V} (h₀ : d₀.toDict.Wf hash) {it : DictIterator K} {ops : List (Op K V)}
    {out : List (K × V)} (h : Iterates hash d₀ d it ops out) : Iterating hash d₀ d it ops out := by
  induction h with
  | start =>
    refine ⟨h₀, Or.inl rfl, fun _ => rfl, fun _ _ => Nat.zero_le _, ?_, ?_⟩
    · intro key _ hin
      cases hin
    · intro key hkey _
      rw [DictIterator.aheadKeys_safe]
      exact ⟨hkey, Or.inr hkey⟩
  | perform _ hsafe ih => exact ih.perform hsafe
  | next _ hnext ih => exact ih.next hnext

/-- **A safe iterator returns what stays exactly once.** Over a dictionary that any operations
have made, whatever is added, replaced, found, deleted, resized or iterated over between its
steps (the entry it has saved apart, which may not be deleted): a step never follows an entry
that is gone, and returns an entry that is there; no key is returned twice unless it has been
deleted; and when the iterator ends, every key of the beginning that has not been deleted
has been returned once. -/
theorem safe_iterator (hash : K → Nat) (before : List (Op K V)) {it : DictIterator K} {ops : List (Op K V)}
    {out : List (K × V)} (h : Iterates hash (SharedDict.run hash ⟨.create, 0⟩ before).1 d it ops out) :
    ∃ d' it' r, d.next it = some (d', it', r) ∧ d'.toDict = d.toDict ∧
      (∀ e ∈ r, e ∈ d.entries ∧ (Op.unlink e.1 ∉ ops → e.1 ∉ out.map Prod.fst)) ∧
      (r = none → ∀ key ∈ (SharedDict.run hash ⟨.create, 0⟩ before).1.keys, Op.unlink key ∉ ops →
        (out.map Prod.fst).count key = 1) := by
  have hinv := iterating (dict_is_map hash before).2.wf h
  obtain ⟨d', it', hsame, -, hcases⟩ := next_spec hinv.wf hinv.place
  cases hcases with
  | inl hend =>
    obtain ⟨hnext, hahead⟩ := hend
    refine ⟨d', it', none, hnext, hsame, fun e he => absurd he (Option.not_mem_none e), ?_⟩
    intro _ key hkey hop
    obtain ⟨-, hor⟩ := hinv.all key hkey hop
    rw [hahead] at hor
    have hpos := List.count_pos_iff.mpr (hor.resolve_right List.not_mem_nil)
    have hle := hinv.once key hop
    omega
  | inr hgo =>
    obtain ⟨e, hnext, hin, -, hahead⟩ := hgo
    refine ⟨d', it', some e, hnext, hsame, ?_, fun hc => by cases hc⟩
    intro f hf
    cases hf
    refine ⟨hin, fun hop hout => (hinv.behind e.1 hop hout).2 ?_⟩
    rw [hahead]
    exact List.mem_cons_self ..

/-- The table is expanded and the entry behind deleted between two steps. -/
theorem safe_iterator_expanded : ∃ (d : SharedDict Nat Nat) (it : DictIterator Nat),
    Iterates id (SharedDict.run id ⟨.create, 0⟩ [.add 1 10, .add 5 50]).1 d it [.unlink 5, .expand 8 (by decide)]
        [(1, 10), (5, 50)] ∧
      ∃ d' it' r, d.next it = some (d', it', r) ∧
        (r = none → ([(1, 10), (5, 50)].map Prod.fst).count 1 = 1) := by
  have h₀ : Iterates id (SharedDict.run id ⟨.create, 0⟩ [.add 1 10, .add 5 50]).1
      ⟨⟨⟨[[], [(5, 50), (1, 10)], [], []], 2⟩, .reset, none⟩, 0⟩ .safe [] [] := .start
  have h₁ : Iterates id (SharedDict.run id ⟨.create, 0⟩ [.add 1 10, .add 5 50]).1
      ⟨⟨⟨[[], [(5, 50), (1, 10)], [], []], 2⟩, .reset, none⟩, 1⟩ ⟨false, some 1, some 5, some 1⟩ [] [(5, 50)] :=
    h₀.next rfl
  have hexpand : (Op.expand 8 (by decide) : Op Nat Nat).Safe ⟨false, some 1, some 5, some 1⟩ := trivial
  have hunlink : (Op.unlink 5 : Op Nat Nat).Safe ⟨false, some 1, some 5, some 1⟩ := by
    show some 1 ≠ some 5
    decide
  have h₂ : Iterates id (SharedDict.run id ⟨.create, 0⟩ [.add 1 10, .add 5 50]).1
      ⟨⟨⟨[[], [(1, 10)], [], []], 1⟩, ⟨List.replicate 8 [], 0⟩, some 0⟩, 1⟩ ⟨false, some 1, some 5, some 1⟩
      [.unlink 5, .expand 8 (by decide)] [(5, 50)] := (h₁.perform hexpand).perform hunlink
  have h₃ : Iterates id (SharedDict.run id ⟨.create, 0⟩ [.add 1 10, .add 5 50]).1
      ⟨⟨⟨[[], [(1, 10)], [], []], 1⟩, ⟨List.replicate 8 [], 0⟩, some 0⟩, 1⟩ ⟨false, some 1, some 1, none⟩
      [.unlink 5, .expand 8 (by decide)] [(1, 10), (5, 50)] := h₂.next rfl
  obtain ⟨d', it', r, hnext, -, -, hall⟩ := safe_iterator id _ h₃
  exact ⟨_, _, h₃, d', it', r, hnext, fun hr => hall hr 1 (by decide) (by simp)⟩

end SharedDict
end RedisXSlot
