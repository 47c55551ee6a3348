import RedisXSlot.Ranks

/-! Every link of a skiplist knows how far it goes.

On each level the spans are the distances in the list of the nodes, to its end for the last
link, and inserting and deleting keep that. So a search that adds up spans knows the rank
of the node it is at, and looking up and deleting by rank go by the place in the list. -/
namespace RedisXSlot

theorem Item.Lt.asymm {a b : Item} (h : a.Lt b) : ¬ b.Lt a := fun h' => (h.trans h').ne rfl

namespace Ranked
open Skiplist

/-- The heap holds the nodes `ids`, and the spans are the distances between them. -/
structure Wf (z : Ranked) (height : Nat → Nat) (ids : List Nat) : Prop where
  base : z.toSkiplist.Wf height ids
  spans : ∀ i < z.level, Chain.Spans (z.span i) (fun x => i < height x) header ids

variable {z : Ranked} {height : Nat → Nat} {ids pre suf : List Nat}

/-! ### Searching -/

theorem search_above (z : Skiplist) (pass : Nat → Bool) {l i : Nat} (hi : l ≤ i) (x : Nat) (update : Nat → Nat) :
    (z.search pass l x update).2 i = update i := by
  induction l generalizing x update with
  | zero => rfl
  | succ l ih =>
    unfold Skiplist.search
    rw [ih (by omega), Function.update_of_ne (by omega)]

/-- **A search that counts** is the plain search for the nodes whose place passes. -/
theorem search_eq (h : z.Wf height ids) (pass : Nat → Nat → Bool) {l : Nat} (hl : l ≤ z.level) {x : Nat}
    (hx : x ∈ header :: ids.filter fun y => l - 1 < height y) (update : Nat → Nat × Nat) :
    z.search pass l (x, (header :: ids).idxOf x) update =
      let found := z.toSkiplist.search (fun y => pass ((header :: ids).idxOf y) y) l x fun i => (update i).1
      ((found.1, (header :: ids).idxOf found.1),
        fun i => if i < l then (found.2 i, (header :: ids).idxOf (found.2 i)) else update i) := by
  induction l generalizing x update with
  | zero => rfl
  | succ l ih =>
    obtain ⟨hstride, hmem⟩ := (h.spans l (by omega)).stride (h.base.links l) h.base.nodup pass z.length hx
    unfold Ranked.search Skiplist.search
    rw [hstride]
    have hdown : ∀ y ∈ header :: ids.filter (fun y => l < height y), y ∈ header :: ids.filter fun y => l - 1 < height y := by
      intro y hy
      cases List.mem_cons.mp hy with
      | inl hy => exact hy ▸ List.mem_cons_self ..
      | inr hy =>
        apply List.mem_cons_of_mem
        simp only [List.mem_filter, decide_eq_true_eq] at hy ⊢
        exact ⟨hy.1, by omega⟩
    rw [ih (by omega) (hdown _ hmem)]
    generalize Chain.advance (z.forward l) _ z.length x = y
    have hupdate : (fun i => (Function.update update l (y, (header :: ids).idxOf y) i).1) =
        Function.update (fun i => (update i).1) l y := by
      funext i
      by_cases hi : i = l
      · rw [hi, Function.update_self, Function.update_self]
      · rw [Function.update_of_ne hi, Function.update_of_ne hi]
    simp only [hupdate, Prod.mk.injEq, true_and]
    funext i
    by_cases hi : i = l
    · rw [hi, if_neg (lt_irrefl l), if_pos (Nat.lt_succ_self l), search_above _ _ le_rfl, Function.update_self,
        Function.update_self]
    · rw [Function.update_of_ne hi]
      by_cases hlt : i < l
      · rw [if_pos hlt, if_pos (by omega)]
      · rw [if_neg hlt, if_neg (by omega)]

/-- A walk on one level stops at the last node that passes. -/
theorem advance_eq_stop (h : z.toSkiplist.Wf height (pre ++ suf)) {pass : Nat → Bool} (hpre : ∀ x ∈ pre, pass x = true)
    (hsuf : ∀ x ∈ suf, pass x = false) {l x : Nat} (hx : x ∈ header :: pre.filter fun y => l < height y) :
    Chain.advance (z.forward l) pass z.length x = stop height pre l := by
  have hlen : ((pre ++ suf).filter fun y => l < height y).length ≤ z.length := by
    rw [h.length]
    exact List.length_filter_le ..
  rw [← filter_append_takeWhile hpre hsuf] at hx
  rw [Chain.advance_eq_of_mem (h.links l) hx hlen, filter_append_takeWhile hpre hsuf]
  rfl

theorem idxOf_stop (i : Nat) : (header :: (pre ++ suf)).idxOf (stop height pre i) = (header :: pre).idxOf (stop height pre i) := by
  have hmem : stop height pre i ∈ header :: pre :=
    List.cons_subset_cons header (List.filter_subset_self _) (Chain.last_mem ..)
  rw [← List.cons_append, List.idxOf_append_of_mem hmem]

theorem idxOf_stop_zero (h : z.toSkiplist.Wf height (pre ++ suf)) : (header :: pre).idxOf (stop height pre 0) = pre.length := by
  have hnodup : (header :: pre).Nodup := h.nodup.sublist ((List.sublist_append_left pre suf).cons_cons header)
  rw [stop, (filter_level_zero h).1]
  exact Chain.idxOf_last hnodup

/-- **The search of an operation** that counts: with the nodes it stops at it has their ranks. -/
theorem search_header (h : z.Wf height (pre ++ suf)) {pass : Nat → Nat → Bool}
    (hpre : ∀ x ∈ pre, pass ((header :: (pre ++ suf)).idxOf x) x = true)
    (hsuf : ∀ x ∈ suf, pass ((header :: (pre ++ suf)).idxOf x) x = false) :
    z.search pass z.level (header, 0) (fun _ => (header, 0)) =
      ((stop height pre 0, pre.length), fun i => (stop height pre i, (header :: pre).idxOf (stop height pre i))) := by
  have heq := search_eq h pass le_rfl (List.mem_cons_self ..) fun _ => (header, 0)
  rw [List.idxOf_cons_self] at heq
  rw [heq, Skiplist.search_header h.base hpre hsuf]
  simp only [idxOf_stop, idxOf_stop_zero h.base, Prod.mk.injEq, true_and]
  funext i
  split
  next => rfl
  next hi =>
    have hnil : pre.filter (fun y => i < height y) = [] := by
      rw [List.filter_eq_nil_iff]
      intro y hy
      have := (h.base.height y (List.mem_append_left suf hy)).2
      simp only [decide_eq_true_eq]
      omega
    rw [stop, hnil, Chain.last_nil, List.idxOf_cons_self]

/-! ### Inserting and deleting -/

/-- On a level above the list there is one link, to its end. -/
theorem spans_above (h : z.toSkiplist.Wf height ids) {i : Nat} (hi : z.level ≤ i) (span : Nat → Nat) :
    Chain.Spans (Function.update span header z.length) (fun x => i < height x) header ids := by
  apply Chain.spans_of_none
  · intro x hx
    have := (h.height x hx).2
    exact decide_eq_false (by omega)
  · rw [Function.update_self, h.length]

/-- **Inserting keeps the spans**, as long as the ranks fit. -/
theorem insert_wf (h : z.Wf height (pre ++ suf)) {score : Int} {member : Bytes}
    (hpre : ∀ x ∈ pre, z.before score member x = true) (hsuf : ∀ x ∈ suf, z.before score member x = false)
    (hlen : z.length + 1 < 2 ^ 32) (draws : Nat) :
    (z.insert score member draws).Wf (Function.update height z.fresh (randomLevel draws)) (pre ++ z.fresh :: suf) := by
  have hbase := Skiplist.insert_wf h.base hpre hsuf draws
  refine ⟨hbase, ?_⟩
  intro i hi
  have hnot : z.fresh ∉ header :: (pre ++ suf) := fun hm => lt_irrefl _ (h.base.fresh _ hm)
  have hq : ∀ x ∈ pre ++ suf, decide (i < height x) = decide (i < Function.update height z.fresh (randomLevel draws) x) := by
    intro x hx
    rw [Function.update_of_ne (ne_of_mem_of_not_mem (List.mem_cons_of_mem _ hx) hnot)]
  have hlast : Chain.last header (pre.filter fun x => decide (i < Function.update height z.fresh (randomLevel draws) x)) =
      stop height pre i := by
    rw [stop, List.filter_congr fun x hx => (hq x (List.mem_append_left suf hx)).symm]
  -- The difference of the ranks is exact, although it is taken modulo 2^32.
  have hbehind : (pre.length % 2 ^ 32 + 2 ^ 32 - (header :: pre).idxOf (stop height pre i) % 2 ^ 32) % 2 ^ 32 =
      pre.length - (header :: pre).idxOf (stop height pre i) ∧ pre.length + 1 < 2 ^ 32 := by
    have hidx := List.idxOf_lt_length_iff.mpr (Chain.last_filter_mem (fun x => decide (i < height x)) header pre)
    have htotal := h.base.length
    rw [List.length_append] at htotal
    rw [List.length_cons] at hidx
    unfold stop
    omega
  have hspans : Chain.Spans (if z.level ≤ i ∧ i < randomLevel draws then Function.update (z.span i) header z.length else z.span i)
      (fun x => i < Function.update height z.fresh (randomLevel draws) x) header (pre ++ suf) := by
    have hold : Chain.Spans (if z.level ≤ i ∧ i < randomLevel draws then Function.update (z.span i) header z.length else z.span i)
        (fun x => i < height x) header (pre ++ suf) := by
      split
      next habove => exact spans_above h.base habove.1 _
      next hbelow =>
        apply h.spans i
        simp only [Ranked.insert, Skiplist.insert] at hi
        split at hi <;> omega
    exact hold.congr (fun x _ => rfl) hq
  have hsearch := @search_header _ _ _ _ h (fun _ => z.before score member) hpre hsuf
  simp only [Ranked.insert, hsearch, idxOf_stop_zero h.base, hbehind.1,
    Nat.mod_eq_of_lt (show pre.length - (header :: pre).idxOf (stop height pre i) + 1 < 2 ^ 32 by omega)]
  revert hspans
  generalize (if z.level ≤ i ∧ i < randomLevel draws then Function.update (z.span i) header z.length else z.span i) = span
  intro hspans
  split
  next hlevel =>
    have hlink := hspans.insert_link hbase.nodup (n := z.fresh) (by simpa using hlevel)
    rw [hlast] at hlink
    exact hlink
  next hlevel =>
    have hskip := hspans.insert_skip hbase.nodup (n := z.fresh) (by simpa using hlevel)
    rw [hlast] at hskip
    rw [if_pos]
    · exact hskip
    · simp only [Ranked.insert, Skiplist.insert] at hi
      split at hi <;> omega

theorem deleteNode_wf {x : Nat} (h : z.Wf height (pre ++ x :: suf)) :
    (z.deleteNode x (stop height pre)).Wf height (pre ++ suf) := by
  have hbase := Skiplist.deleteNode_wf h.base
  refine ⟨hbase, ?_⟩
  intro i hi
  have hlevel : i < z.level := lt_of_lt_of_le hi (lowerLevel_spec _ h.base.level.1).2.1
  have hspans := h.spans i hlevel
  unfold Ranked.deleteNode
  simp only [hlevel, if_true, forward_eq_some_iff h.base]
  split
  next hx => exact hspans.remove_link h.base.nodup (decide_eq_true hx)
  next hx => exact hspans.remove_skip h.base.nodup (decide_eq_false hx)

/-! ### Ranks in a finite set of items -/

/-- The rank of an item: 1 for the least one. -/
def rank (s : Finset Item) (a : Item) : Nat := (s.filter fun b => b.Lt a).card + 1

/-- In a sorted list the rank goes by the place. -/
theorem rank_eq {a c : List Item} {x : Item} (hs : (a ++ x :: c).Pairwise Item.Lt) :
    rank (a ++ x :: c).toFinset x = a.length + 1 := by
  obtain ⟨ha, hc, hac⟩ := List.pairwise_append.mp hs
  have hbelow : (a ++ x :: c).toFinset.filter (fun b => b.Lt x) = a.toFinset := by
    ext b
    simp only [Finset.mem_filter, List.mem_toFinset, List.mem_append]
    constructor
    · intro hb
      cases hb.1 with
      | inl hin => exact hin
      | inr hin =>
        cases List.mem_cons.mp hin with
        | inl he => exact absurd he hb.2.ne
        | inr hin => exact absurd hb.2 (Item.Lt.asymm ((List.pairwise_cons.mp hc).1 b hin))
    · intro hb
      exact ⟨Or.inl hb, hac b hb x (List.mem_cons_self ..)⟩
  rw [rank, hbelow, List.toFinset_card_of_nodup (ha.imp Item.Lt.ne)]

/-- The skiplist is this set of items, in order. -/
def Represents (z : Ranked) (s : Finset Item) : Prop :=
  ∃ height ids, z.Wf height ids ∧ (ids.map z.item).Pairwise Item.Lt ∧ (ids.map z.item).toFinset = s

theorem represents_create : create.Represents ∅ := by
  refine ⟨fun _ => 0, [], ⟨?_, ?_⟩, .nil, rfl⟩
  · exact ⟨by simp, by simp [create, Skiplist.create, header], fun i => rfl, by simp, by decide, trivial, rfl, rfl⟩
  · intro i _
    exact Chain.spans_of_none (by simp) rfl

/-- The nodes are those that are met on the lowest level. -/
theorem ids_eq (h : z.toSkiplist.Wf height ids) : ids = Chain.collect (z.forward 0) z.length header := by
  have hlinks := h.links 0
  rw [(@filter_level_zero _ _ [] ids h).2] at hlinks
  exact (Chain.collect_eq hlinks h.length.ge).symm

/-- What the plain skiplist represents. -/
theorem represents_of {items : List Item} (h : z.Wf height ids) (hitems : z.toSkiplist.Represents items) :
    z.Represents items.toFinset := by
  obtain ⟨height', ids', hwf, rfl, hs⟩ := hitems
  rw [ids_eq hwf, ← ids_eq h.base] at hs ⊢
  exact ⟨height, ids, h, hs, rfl⟩

theorem Represents.set_eq {s : Finset Item} (h : z.Represents s) (hwf : z.Wf height ids) : (ids.map z.item).toFinset = s := by
  obtain ⟨height', ids', hwf', -, hset⟩ := h
  rw [ids_eq hwf.base, ← ids_eq hwf'.base]
  exact hset

theorem Represents.length_eq {s : Finset Item} (h : z.Represents s) : z.length = s.card := by
  obtain ⟨height, ids, hwf, hs, rfl⟩ := h
  rw [List.toFinset_card_of_nodup (hs.imp Item.Lt.ne), List.length_map, hwf.base.length]

theorem insert_represents {s : Finset Item} (h : z.Represents s) {score : Int} {member : Bytes}
    (hnew : (score, member) ∉ s) (hcard : s.card + 1 < 2 ^ 32) (draws : Nat) :
    (z.insert score member draws).Represents (insert (score, member) s) := by
  have hlen : z.length + 1 < 2 ^ 32 := by rw [h.length_eq]; exact hcard
  obtain ⟨height, ids, hwf, hs, rfl⟩ := h
  rw [List.mem_toFinset] at hnew
  have hplain := Skiplist.insert_represents ⟨height, ids, hwf.base, rfl, hs⟩ hnew draws
  obtain ⟨pre, suf, rfl, hpre, hsuf⟩ := exists_split_before hs score member
  obtain ⟨items, hitems, hperm⟩ := hplain
  have hrep := represents_of (insert_wf hwf hpre hsuf hlen draws) hitems
  rw [List.toFinset_eq_of_perm _ _ hperm, List.toFinset_cons] at hrep
  exact hrep

theorem toSkiplist_delete (z : Ranked) (score : Int) (member : Bytes) :
    (z.delete score member).1.toSkiplist = (z.toSkiplist.delete score member).1 ∧
      (z.delete score member).2 = (z.toSkiplist.delete score member).2 := by
  unfold Ranked.delete Skiplist.delete
  dsimp only
  cases z.forward 0 (z.toSkiplist.search (z.before score member) z.level header fun _ => header).1 with
  | none => exact ⟨rfl, rfl⟩
  | some x =>
    dsimp only
    split <;> exact ⟨rfl, rfl⟩

theorem delete_represents {s : Finset Item} (h : z.Represents s) (score : Int) (member : Bytes) :
    (z.delete score member).1.Represents (s.erase (score, member)) ∧
      (z.delete score member).2 = decide ((score, member) ∈ s) := by
  obtain ⟨height, ids, hwf, hs, rfl⟩ := h
  obtain ⟨items, hitems, hperm, hfound⟩ := Skiplist.delete_represents ⟨height, ids, hwf.base, rfl, hs⟩ score member
  have hplain := toSkiplist_delete z score member
  rw [← hplain.1] at hitems
  rw [hplain.2, hfound]
  refine ⟨?_, by simp⟩
  have herase : items.toFinset = (ids.map z.item).toFinset.erase (score, member) := by
    ext a
    rw [List.mem_toFinset, hperm.mem_iff, List.Nodup.mem_erase_iff (hs.imp Item.Lt.ne), Finset.mem_erase, List.mem_toFinset]
  rw [← herase]
  have hkept : ∃ height' ids', (z.delete score member).1.Wf height' ids' := by
    obtain ⟨pre, suf, rfl, hpre, hsuf⟩ := exists_split_before hs score member
    simp only [Ranked.delete, Skiplist.search_header hwf.base hpre hsuf, forward_stop_zero hwf.base]
    cases suf with
    | nil => exact ⟨height, _, hwf⟩
    | cons x suf =>
      simp only [List.head?_cons]
      split
      · exact ⟨height, _, deleteNode_wf hwf⟩
      · exact ⟨height, _, hwf⟩
  obtain ⟨height', ids', hwf'⟩ := hkept
  exact represents_of hwf' hitems

/-! ### Changing a score -/

/-- Where an item of the list is. -/
theorem exists_split_at (hs : (ids.map z.item).Pairwise Item.Lt) {score : Int} {member : Bytes}
    (hin : (score, member) ∈ ids.map z.item) :
    ∃ pre x suf, ids = pre ++ x :: suf ∧ z.item x = (score, member) ∧
      (∀ y ∈ pre, z.before score member y = true) ∧ ∀ y ∈ x :: suf, z.before score member y = false := by
  obtain ⟨pre, suf, rfl, hpre, hsuf⟩ := exists_split_before hs score member
  obtain ⟨y, hy, hitem⟩ := List.mem_map.mp hin
  have hnot : z.before score member y = false := by
    by_contra hbefore
    rw [Bool.not_eq_false, before_iff] at hbefore
    exact hbefore.ne hitem
  cases suf with
  | nil =>
    rw [hpre y (by simpa using hy)] at hnot
    cases hnot
  | cons x suf =>
    refine ⟨pre, x, suf, rfl, ?_, hpre, hsuf⟩
    by_contra hx
    have hlt : Item.Lt (score, member) (z.item x) := by
      apply Item.lt_of_not_lt _ hx
      rw [← before_iff, hsuf x (List.mem_cons_self ..)]
      decide
    cases List.mem_append.mp hy with
    | inl hy =>
      rw [hpre y hy] at hnot
      cases hnot
    | inr hy =>
      cases List.mem_cons.mp hy with
      | inl hy => exact hx (hy ▸ hitem)
      | inr hy =>
        rw [List.map_append, List.map_cons] at hs
        have hafter := (List.pairwise_cons.mp (List.pairwise_append.mp hs).2.1).1 _ (List.mem_map_of_mem hy)
        exact (hlt.trans hafter).ne hitem.symm

/-- The next node on the lowest level. -/
theorem forward_zero {x : Nat} (h : z.toSkiplist.Wf height (pre ++ x :: suf)) : z.forward 0 x = suf.head? := by
  have hlinks := h.links 0
  rw [List.filter_append, (filter_level_zero h).1, (filter_level_zero h).2, ← List.singleton_append,
    ← List.append_assoc] at hlinks
  have hnext := hlinks.next_last
  rwa [Chain.last_append_singleton] at hnext

theorem backward_eq {x : Nat} (h : z.toSkiplist.Wf height (pre ++ x :: suf)) : z.backward x = pre.getLast? := by
  have hback := (h.backs.unsplice (List.nodup_cons.mp h.nodup).2).1
  rwa [Option.or_none] at hback

theorem item_deleteNode (z : Ranked) (x : Nat) (update : Nat → Nat) : (z.deleteNode x update).item = z.item := rfl

theorem item_rescore (z : Skiplist) (x : Nat) (newscore : Int) :
    Skiplist.item { z with score := Function.update z.score x newscore } =
      Function.update z.item x (newscore, z.member x) := by
  funext y
  show (Function.update z.score x newscore y, z.member y) = _
  by_cases hy : y = x
  · rw [hy, Function.update_self, Function.update_self]
  · rw [Function.update_of_ne hy, Function.update_of_ne hy]
    rfl

/-- A node whose score stays between those of its neighbours stays where it is. -/
theorem sorted_rescore {x : Nat} (hs : ((pre ++ x :: suf).map z.item).Pairwise Item.Lt) (hx : x ∉ pre ++ suf) {newscore : Int}
    (hback : pre.getLast?.all (fun y => z.score y < newscore) = true)
    (hforward : suf.head?.all (fun y => z.score y > newscore) = true) :
    ((pre ++ x :: suf).map (Function.update z.item x (newscore, z.member x))).Pairwise Item.Lt := by
  rw [List.map_append, List.map_cons, Function.update_self,
    List.map_congr_left fun y hy => Function.update_of_ne (ne_of_mem_of_not_mem (List.mem_append_left suf hy) hx) ..,
    List.map_congr_left fun y hy => Function.update_of_ne (ne_of_mem_of_not_mem (List.mem_append_right pre hy) hx) ..]
  have hscores := score_le hs
  rw [List.map_append, List.map_cons] at hs
  obtain ⟨hpre, hsuf, hboth⟩ := List.pairwise_append.mp hs
  obtain ⟨hpre', hsuf', -⟩ := List.pairwise_append.mp hscores
  have hlow : ∀ y ∈ pre, z.score y < newscore := by
    intro y hy
    obtain ⟨init, last, rfl⟩ := List.eq_nil_or_concat pre |>.resolve_left (List.ne_nil_of_mem hy)
    rw [List.concat_eq_append] at hback hy hpre'
    rw [List.getLast?_append, List.getLast?_singleton] at hback
    have hlast : z.score last < newscore := by simpa using hback
    cases List.mem_append.mp hy with
    | inl hy => exact lt_of_le_of_lt ((List.pairwise_append.mp hpre').2.2 y hy last (List.mem_singleton_self last)) hlast
    | inr hy => exact List.mem_singleton.mp hy ▸ hlast
  have hhigh : ∀ y ∈ suf, newscore < z.score y := by
    intro y hy
    cases suf with
    | nil => cases hy
    | cons v suf =>
      have hfirst : newscore < z.score v := by simpa using hforward
      cases List.mem_cons.mp hy with
      | inl hy => exact hy ▸ hfirst
      | inr hy =>
        have hrest := (List.pairwise_cons.mp (List.pairwise_cons.mp hsuf').2).1 y hy
        exact lt_of_lt_of_le hfirst hrest
  apply List.pairwise_append.mpr
  refine ⟨hpre, List.pairwise_cons.mpr ⟨?_, (List.pairwise_cons.mp hsuf).2⟩, ?_⟩
  · intro b hb
    obtain ⟨y, hy, rfl⟩ := List.mem_map.mp hb
    exact Or.inl (hhigh y hy)
  · intro a ha b hb
    cases List.mem_cons.mp hb with
    | inl hb =>
      obtain ⟨y, hy, rfl⟩ := List.mem_map.mp ha
      exact hb ▸ Or.inl (hlow y hy)
    | inr hb => exact hboth a ha b (List.mem_cons_of_mem _ hb)

/-- **Changing a score** moves the item, whether its node stays or a new one comes in. -/
theorem updateScore_represents {s : Finset Item} (h : z.Represents s) {curscore newscore : Int} {member : Bytes}
    (hin : (curscore, member) ∈ s) (hnew : (newscore, member) ∉ s.erase (curscore, member)) (hcard : s.card < 2 ^ 32)
    (draws : Nat) :
    ∃ z' x, z.updateScore curscore member newscore draws = some (z', x) ∧
      z'.Represents (insert (newscore, member) (s.erase (curscore, member))) ∧ z'.item x = (newscore, member) := by
  have hdelete := delete_represents h curscore member
  obtain ⟨height, ids, hwf, hs, hset⟩ := h
  rw [← hset, List.mem_toFinset] at hin
  obtain ⟨pre, x, suf, rfl, hitem, hpre, hsuf⟩ := exists_split_at hs hin
  have hiff : curscore = z.score x ∧ stringCompare (z.member x) member = .eq := by
    rw [stringCompare_eq_iff]
    injection hitem with hscore hmember
    exact ⟨hscore.symm, hmember⟩
  have hfound : z.delete curscore member = (z.deleteNode x (stop height pre), true) := by
    simp only [Ranked.delete, Skiplist.search_header hwf.base hpre hsuf, forward_stop_zero hwf.base, List.head?_cons]
    exact if_pos hiff
  rw [hfound] at hdelete
  have hmember : z.member x = member := congrArg Prod.snd hitem
  unfold Ranked.updateScore
  simp only [Skiplist.search_header hwf.base hpre hsuf, forward_stop_zero hwf.base, List.head?_cons, if_pos hiff,
    backward_eq hwf.base, forward_zero hwf.base]
  have hx : x ∉ pre ++ suf := by
    have hnodup := (List.nodup_cons.mp hwf.base.nodup).2
    exact (List.nodup_cons.mp (List.perm_middle.nodup_iff.mp hnodup)).1
  split
  next hstay =>
    have hset' := hdelete.1.set_eq (deleteNode_wf hwf)
    rw [item_deleteNode] at hset'
    refine ⟨_, x, rfl, ⟨height, pre ++ x :: suf, ⟨⟨hwf.base.nodup, hwf.base.fresh, hwf.base.links, hwf.base.height,
      hwf.base.level, hwf.base.backs, hwf.base.tail, hwf.base.length⟩, hwf.spans⟩, ?_, ?_⟩, ?_⟩
    · rw [item_rescore]
      exact sorted_rescore hs hx hstay.1 hstay.2
    · have hkeep : (pre ++ suf).map (Function.update z.item x (newscore, z.member x)) = (pre ++ suf).map z.item :=
        List.map_congr_left fun y hy => Function.update_of_ne (ne_of_mem_of_not_mem hy hx) ..
      rw [item_rescore, ← hset', ← hkeep, List.toFinset_eq_of_perm _ _ (List.perm_middle.map _), List.map_cons,
        List.toFinset_cons, Function.update_self, hmember]
    · rw [item_rescore, Function.update_self, hmember]
  next hmove =>
    have hcard' : (s.erase (curscore, member)).card + 1 < 2 ^ 32 := by
      rw [← hset] at hcard ⊢
      rw [← List.mem_toFinset] at hin
      have hpos := Finset.card_pos.mpr ⟨_, hin⟩
      rw [Finset.card_erase_of_mem hin]
      omega
    have hinsert := insert_represents hdelete.1 hnew hcard' draws
    have hsame : (z.deleteNode x (stop height pre)).member x = member := hmember
    rw [hsame]
    refine ⟨_, _, rfl, hinsert, ?_⟩
    show (Skiplist.insert _ newscore member draws).item _ = _
    rw [insert_item]
    exact Function.update_self ..

/-! ### Deleting ranges -/

/-- **The loop takes out the nodes that pass**, from the stop of the search up to the first
that does not. -/
theorem deleteWhile_spec {gone rest : List Nat} {pass : Ranked → Nat → Nat → Bool} {fuel removed : Nat}
    (h : z.Wf height (pre ++ (gone ++ rest)))
    (hgone : ∀ z' : Ranked, z'.item = z.item → ∀ a x c, gone = a ++ x :: c → pass z' (removed + a.length) x = true)
    (hrest : ∀ z' : Ranked, z'.item = z.item → ∀ x ∈ rest.head?, pass z' (removed + gone.length) x = false)
    (hfuel : gone.length + rest.length ≤ fuel) :
    ∃ z' : Ranked, deleteWhile pass (stop height pre) fuel z (gone ++ rest).head? removed = (z', removed + gone.length) ∧
      z'.Wf height (pre ++ rest) ∧ z'.item = z.item := by
  induction gone generalizing z fuel removed with
  | nil =>
    refine ⟨z, ?_, h, rfl⟩
    cases fuel with
    | zero => rfl
    | succ fuel =>
      cases rest with
      | nil => rfl
      | cons x rest =>
        have hstop := hrest z rfl x rfl
        rw [List.length_nil, Nat.add_zero] at hstop
        show (if pass z removed x then _ else (z, removed)) = _
        rw [hstop]
        rfl
  | cons x gone ih =>
    obtain ⟨fuel, rfl⟩ : ∃ k, fuel = k + 1 := ⟨fuel - 1, by rw [List.length_cons] at hfuel; omega⟩
    have hpass : pass z removed x = true := hgone z rfl [] x gone rfl
    have hlen : removed + 1 + gone.length = removed + (x :: gone).length := by rw [List.length_cons]; omega
    obtain ⟨z', hloop, hwf, hitem⟩ := @ih (z.deleteNode x (stop height pre)) fuel (removed + 1) (deleteNode_wf h)
      (by
        intro z' hz' a y c hsplit
        have hp := hgone z' hz' (x :: a) y c (by rw [hsplit]; rfl)
        rw [List.length_cons] at hp
        rw [show removed + 1 + a.length = removed + (a.length + 1) by omega]
        exact hp)
      (by rw [hlen]; exact hrest) (by rw [List.length_cons] at hfuel; omega)
    refine ⟨z', ?_, hwf, hitem⟩
    show (if pass z removed x then deleteWhile pass _ fuel (z.deleteNode x (stop height pre)) (z.forward 0 x) (removed + 1)
      else (z, removed)) = _
    have hnext : z.forward 0 x = (gone ++ rest).head? := @forward_zero z height pre (gone ++ rest) x h.base
    rw [if_pos hpass, hnext, hloop, hlen]

/-- What is left of the list, and what was taken out of it. -/
theorem represents_rest {z' : Ranked} {gone rest : List Nat} (h : z'.Wf height (pre ++ rest)) (hitem : z'.item = z.item)
    (hs : ((pre ++ (gone ++ rest)).map z.item).Pairwise Item.Lt) {keep : Item → Prop} [DecidablePred keep]
    (hkeep : ∀ x ∈ pre ++ rest, keep (z.item x)) (hgone : ∀ x ∈ gone, ¬ keep (z.item x)) :
    z'.Represents (((pre ++ (gone ++ rest)).map z.item).toFinset.filter keep) ∧
      gone.length = (((pre ++ (gone ++ rest)).map z.item).toFinset.filter fun a => ¬ keep a).card := by
  have hmem : ∀ a, a ∈ ((pre ++ (gone ++ rest)).map z.item).toFinset ↔
      a ∈ (pre ++ rest).map z.item ∨ a ∈ gone.map z.item := by
    intro a
    simp only [List.mem_toFinset, List.map_append, List.mem_append]
    tauto
  have hin : ∀ a ∈ (pre ++ rest).map z.item, keep a := by
    intro a ha
    obtain ⟨x, hx, rfl⟩ := List.mem_map.mp ha
    exact hkeep x hx
  have hout : ∀ a ∈ gone.map z.item, ¬ keep a := by
    intro a ha
    obtain ⟨x, hx, rfl⟩ := List.mem_map.mp ha
    exact hgone x hx
  constructor
  · refine ⟨height, pre ++ rest, h, ?_, ?_⟩
    · rw [hitem]
      exact hs.sublist (((List.sublist_append_right gone rest).append_left pre).map _)
    · ext a
      rw [hitem, List.mem_toFinset, Finset.mem_filter, hmem]
      constructor
      · intro ha
        exact ⟨Or.inl ha, hin a ha⟩
      · intro ha
        cases ha.1 with
        | inl hl => exact hl
        | inr hr => exact absurd ha.2 (hout a hr)
  · have hset : (((pre ++ (gone ++ rest)).map z.item).toFinset.filter fun a => ¬ keep a) = (gone.map z.item).toFinset := by
      ext a
      rw [List.mem_toFinset, Finset.mem_filter, hmem]
      constructor
      · intro ha
        cases ha.1 with
        | inl hl => exact absurd (hin a hl) ha.2
        | inr hr => exact hr
      · intro ha
        exact ⟨Or.inr ha, hout a ha⟩
    have hnodup : (gone.map z.item).Nodup := by
      have hsub := (((List.sublist_append_left gone rest).trans (List.sublist_append_right pre _)).map z.item)
      exact (hs.sublist hsub).imp Item.Lt.ne
    rw [hset, List.toFinset_card_of_nodup hnodup, List.length_map]

/-- The item's score is in the range. -/
def InRange (range : ZRangeSpec) (a : Item) : Prop := range.gteMin a.1 = true ∧ range.lteMax a.1 = true

instance (range : ZRangeSpec) : DecidablePred (InRange range) := fun _ => inferInstanceAs (Decidable (_ ∧ _))

/-- What is below a range, what is in it and what is above it. -/
theorem exists_range (hs : (ids.map z.item).Pairwise Item.Lt) (range : ZRangeSpec) :
    ∃ pre gone rest, ids = pre ++ (gone ++ rest) ∧ (∀ x ∈ pre, range.gteMin (z.score x) = false) ∧
      (∀ x ∈ gone ++ rest, range.gteMin (z.score x) = true) ∧ (∀ x ∈ gone, range.lteMax (z.score x) = true) ∧
      ∀ x ∈ rest, range.lteMax (z.score x) = false := by
  have hlow : ∀ x y, (z.item x).Lt (z.item y) → (!range.gteMin (z.score y)) = true → (!range.gteMin (z.score x)) = true := by
    intro x y hlt hy
    cases hx : range.gteMin (z.score x) with
    | false => rfl
    | true =>
      have hle : z.score x ≤ z.score y := hlt.fst_le
      rw [gteMin_mono hle hx] at hy
      cases hy
  obtain ⟨pre, suf, rfl, hpre, hsuf⟩ := exists_split hs hlow
  have hhigh : ∀ x y, (z.item x).Lt (z.item y) → range.lteMax (z.score y) = true → range.lteMax (z.score x) = true :=
    fun x y hlt => lteMax_mono hlt.fst_le
  have hs' : (suf.map z.item).Pairwise Item.Lt := hs.sublist ((List.sublist_append_right pre suf).map _)
  obtain ⟨gone, rest, rfl, hgone, hrest⟩ := exists_split hs' hhigh
  refine ⟨pre, gone, rest, rfl, ?_, ?_, hgone, hrest⟩
  · intro x hx
    simpa using hpre x hx
  · intro x hx
    simpa using hsuf x hx

/-- Below, in and above a range of a sorted list. -/
theorem inRange_iff {gone rest : List Nat} {range : ZRangeSpec}
    (hpre : ∀ x ∈ pre, range.gteMin (z.score x) = false) (hsuf : ∀ x ∈ gone ++ rest, range.gteMin (z.score x) = true)
    (hgone : ∀ x ∈ gone, range.lteMax (z.score x) = true) (hrest : ∀ x ∈ rest, range.lteMax (z.score x) = false) :
    (∀ x ∈ pre ++ rest, ¬ InRange range (z.item x)) ∧ ∀ x ∈ gone, InRange range (z.item x) := by
  constructor
  · intro x hx hin
    cases List.mem_append.mp hx with
    | inl hx => exact absurd hin.1 (by rw [show (z.item x).1 = z.score x from rfl, hpre x hx]; decide)
    | inr hx => exact absurd hin.2 (by rw [show (z.item x).1 = z.score x from rfl, hrest x hx]; decide)
  · intro x hx
    exact ⟨hsuf x (List.mem_append_left rest hx), hgone x hx⟩

/-- **Deleting by score** removes the items in the range and counts them. -/
theorem deleteRangeByScore_represents {s : Finset Item} (h : z.Represents s) (range : ZRangeSpec) :
    (z.deleteRangeByScore range).1.Represents (s.filter fun a => ¬ InRange range a) ∧
      (z.deleteRangeByScore range).2 = (s.filter fun a => InRange range a).card := by
  obtain ⟨height, ids, hwf, hs, rfl⟩ := h
  obtain ⟨pre, gone, rest, rfl, hpre, hsuf, hgone, hrest⟩ := exists_range hs range
  have hin := inRange_iff hpre hsuf hgone hrest
  have hlow : ∀ x, (if range.minex then decide (z.score x ≤ range.min) else decide (z.score x < range.min)) =
      !range.gteMin (z.score x) := by
    intro x
    unfold ZRangeSpec.gteMin
    split <;> rw [← decide_not, decide_eq_decide] <;> omega
  have hsearch := @Skiplist.search_header _ height pre (gone ++ rest) hwf.base (fun x =>
      if range.minex then decide (z.score x ≤ range.min) else decide (z.score x < range.min))
    (by intro x hx; rw [hlow, hpre x hx]; rfl) (by intro x hx; rw [hlow, hsuf x hx]; rfl)
  have hscore : ∀ z' : Ranked, z'.item = z.item → ∀ x, z'.score x = z.score x := fun z' hz' x =>
    congrArg Prod.fst (congrFun hz' x)
  obtain ⟨z', hloop, hwf', hitem⟩ := @deleteWhile_spec z height pre gone rest
    (fun z _ x => if range.maxex then decide (z.score x < range.max) else decide (z.score x ≤ range.max)) z.length 0 hwf
    (by
      intro z' hz' a x c hsplit
      rw [hscore z' hz']
      exact hgone x (hsplit ▸ List.mem_append_right a (List.mem_cons_self ..)))
    (by
      intro z' hz' x hx
      rw [hscore z' hz']
      exact hrest x (List.mem_of_mem_head? hx))
    (by rw [hwf.base.length]; simp)
  have hresult : z.deleteRangeByScore range = (z', gone.length) := by
    unfold Ranked.deleteRangeByScore
    simp only [hsearch, forward_stop_zero hwf.base]
    rw [hloop, Nat.zero_add]
  obtain ⟨hrep, hcard⟩ := @represents_rest z height pre z' gone rest hwf' hitem hs (fun a => ¬ InRange range a) _ hin.1
    (fun x hx hn => hn (hin.2 x hx))
  rw [hresult]
  refine ⟨hrep, ?_⟩
  simpa only [not_not] using hcard

/-- The place of a node in the list, counted from the header. -/
theorem idxOf_header {a c : List Nat} {x : Nat} (hd : (header :: ids).Nodup) (h : ids = a ++ x :: c) :
    (header :: ids).idxOf x = a.length + 1 := by
  have hsplit : header :: ids = (header :: a) ++ x :: c := by rw [h, List.cons_append]
  rw [Chain.idxOf_eq_length hd hsplit, List.length_cons]

theorem rank_item {a c : List Nat} {x : Nat} (hs : (ids.map z.item).Pairwise Item.Lt) (h : ids = a ++ x :: c) :
    rank (ids.map z.item).toFinset (z.item x) = a.length + 1 := by
  rw [h, List.map_append, List.map_cons] at hs ⊢
  rw [rank_eq hs, List.length_map]

theorem exists_place {l₁ l₂ l₃ : List Nat} {x : Nat} (hx : x ∈ l₂) :
    ∃ a c, l₁ ++ (l₂ ++ l₃) = a ++ x :: c ∧ l₁.length ≤ a.length ∧ a.length < l₁.length + l₂.length := by
  obtain ⟨a, c, rfl⟩ := List.append_of_mem hx
  refine ⟨l₁ ++ a, c ++ l₃, by simp, by simp, ?_⟩
  rw [List.length_append, List.length_append, List.length_cons]
  omega

/-- A list cut at two places, as far as it goes. -/
theorem exists_cut (ids : List Nat) (start stop : Nat) : ∃ pre gone rest, ids = pre ++ (gone ++ rest) ∧
    pre.length ≤ start - 1 ∧ (gone ++ rest ≠ [] → start - 1 ≤ pre.length) ∧
    gone.length ≤ stop - pre.length ∧ (rest ≠ [] → stop - pre.length ≤ gone.length) := by
  refine ⟨ids.take (start - 1), (ids.drop (start - 1)).take (stop - (ids.take (start - 1)).length),
    (ids.drop (start - 1)).drop (stop - (ids.take (start - 1)).length), ?_, List.length_take_le .., ?_,
    List.length_take_le .., ?_⟩
  · rw [List.take_append_drop, List.take_append_drop]
  · intro hne
    rw [List.take_append_drop] at hne
    have hlt : start - 1 < ids.length := by
      by_contra hle
      exact hne (List.drop_eq_nil_of_le (by omega))
    rw [List.length_take]
    omega
  · intro hne
    have hlt : stop - (ids.take (start - 1)).length < (ids.drop (start - 1)).length := by
      by_contra hle
      exact hne (List.drop_eq_nil_of_le (by omega))
    rw [List.length_take (l := ids.drop (start - 1))]
    omega

/-- **Deleting by rank** removes the items whose rank is from `start` to `stop` and counts them. -/
theorem deleteRangeByRank_represents {s : Finset Item} (h : z.Represents s) (start stop : Nat) :
    (z.deleteRangeByRank start stop).1.Represents (s.filter fun a => ¬ (start ≤ rank s a ∧ rank s a ≤ stop)) ∧
      (z.deleteRangeByRank start stop).2 = (s.filter fun a => start ≤ rank s a ∧ rank s a ≤ stop).card := by
  obtain ⟨height, ids, hwf, hs, rfl⟩ := h
  obtain ⟨pre, gone, rest, rfl, hpre, hsuf, hgone, hrest⟩ := exists_cut ids start stop
  have hplace : ∀ {a c : List Nat} {x : Nat}, pre ++ (gone ++ rest) = a ++ x :: c →
      (header :: (pre ++ (gone ++ rest))).idxOf x = a.length + 1 := idxOf_header hwf.base.nodup
  have hsearch := @search_header _ height pre (gone ++ rest) hwf (fun traversed _ => decide (traversed < start))
    (by
      intro x hx
      obtain ⟨a, c, hsplit, -, hlt⟩ := @exists_place [] pre (gone ++ rest) x hx
      rw [List.nil_append] at hsplit
      rw [List.length_nil] at hlt
      rw [hplace hsplit]
      exact decide_eq_true (by omega))
    (by
      intro x hx
      obtain ⟨a, c, hsplit, hle, -⟩ := @exists_place pre (gone ++ rest) [] x hx
      rw [List.append_nil] at hsplit
      have hfull := hsuf (List.ne_nil_of_mem hx)
      rw [hplace hsplit]
      exact decide_eq_false (by omega))
  have hlow : gone ++ rest ≠ [] → start ≤ pre.length + 1 := fun hne => by
    have := hsuf hne
    omega
  obtain ⟨z', hloop, hwf', hitem⟩ := @deleteWhile_spec z height pre gone rest
    (fun _ removed _ => decide (pre.length + 1 + removed ≤ stop)) z.length 0 hwf
    (by
      intro z' _ a x c hsplit
      have hlen := congrArg List.length hsplit
      rw [List.length_append, List.length_cons] at hlen
      exact decide_eq_true (by omega))
    (by
      intro z' _ x hx
      have hfull := hrest (List.ne_nil_of_mem (List.mem_of_mem_head? hx))
      exact decide_eq_false (by omega))
    (by rw [hwf.base.length]; simp)
  have hresult : z.deleteRangeByRank start stop = (z', gone.length) := by
    unfold Ranked.deleteRangeByRank
    simp only [hsearch, forward_stop_zero hwf.base]
    rw [hloop, Nat.zero_add]
  have hrank : ∀ {a c : List Nat} {x : Nat}, pre ++ (gone ++ rest) = a ++ x :: c →
      rank ((pre ++ (gone ++ rest)).map z.item).toFinset (z.item x) = a.length + 1 := rank_item hs
  obtain ⟨hrep, hcard⟩ := @represents_rest z height pre z' gone rest hwf' hitem hs
    (fun a => ¬ (start ≤ rank ((pre ++ (gone ++ rest)).map z.item).toFinset a ∧
      rank ((pre ++ (gone ++ rest)).map z.item).toFinset a ≤ stop)) _
    (by
      intro x hx hin
      cases List.mem_append.mp hx with
      | inl hx =>
        obtain ⟨a, c, hsplit, -, hlt⟩ := @exists_place [] pre (gone ++ rest) x hx
        rw [List.nil_append] at hsplit
        rw [List.length_nil] at hlt
        rw [hrank hsplit] at hin
        omega
      | inr hx =>
        obtain ⟨a, c, hsplit, hle, -⟩ := @exists_place (pre ++ gone) rest [] x hx
        rw [List.append_nil, List.append_assoc] at hsplit
        rw [List.length_append] at hle
        rw [hrank hsplit] at hin
        have hfull := hrest (List.ne_nil_of_mem hx)
        omega)
    (by
      intro x hx hout
      obtain ⟨a, c, hsplit, hle, hlt⟩ := @exists_place pre gone rest x hx
      rw [hrank hsplit] at hout
      have hfull := hlow (List.ne_nil_of_mem (List.mem_append_left rest hx))
      exact hout ⟨by omega, by omega⟩)
  rw [hresult]
  refine ⟨hrep, ?_⟩
  simpa only [not_not] using hcard

/-! ### Looking up -/

/-- One level of the lookup. -/
theorem elementByRank_succ (h : z.Wf height (pre ++ suf)) {r : Nat}
    (hpre : ∀ x ∈ pre, (header :: (pre ++ suf)).idxOf x ≤ r) (hsuf : ∀ x ∈ suf, r < (header :: (pre ++ suf)).idxOf x)
    {l : Nat} (hl : l < z.level) {x : Nat} (hx : x ∈ header :: pre.filter fun y => l < height y) :
    z.elementByRank r (l + 1) (x, (header :: (pre ++ suf)).idxOf x) =
      if (header :: (pre ++ suf)).idxOf (stop height pre l) = r then some (stop height pre l)
      else z.elementByRank r l (stop height pre l, (header :: (pre ++ suf)).idxOf (stop height pre l)) := by
  have hx' : x ∈ header :: (pre ++ suf).filter fun y => l < height y := by
    rw [List.filter_append]
    exact List.cons_subset_cons header (List.subset_append_left ..) hx
  have hwalk := ((h.spans l hl).stride (h.base.links l) h.base.nodup (fun traversed _ => decide (traversed ≤ r)) z.length hx').1
  have hstop := @advance_eq_stop z height pre suf h.base
    (fun y => decide ((header :: (pre ++ suf)).idxOf y ≤ r)) (fun y hy => decide_eq_true (hpre y hy))
    (fun y hy => decide_eq_false (not_le.mpr (hsuf y hy))) l x hx
  rw [hstop] at hwalk
  conv_lhs => unfold elementByRank
  rw [hwalk]

/-- The levels from `l` down find the node at the place `r`, if there is one. -/
theorem elementByRank_eq (h : z.Wf height (pre ++ suf)) {r : Nat} (hcut : pre.length = r ∨ pre.length < r ∧ suf = [])
    (hpre : ∀ x ∈ pre, (header :: (pre ++ suf)).idxOf x ≤ r) (hsuf : ∀ x ∈ suf, r < (header :: (pre ++ suf)).idxOf x)
    {l : Nat} (hl : l < z.level) {x : Nat} (hx : x ∈ header :: pre.filter fun y => l < height y) :
    z.elementByRank r (l + 1) (x, (header :: (pre ++ suf)).idxOf x) = (header :: (pre ++ suf))[r]? := by
  have hfound : ∀ i, (header :: (pre ++ suf)).idxOf (stop height pre i) = r →
      (header :: (pre ++ suf))[r]? = some (stop height pre i) := by
    intro i hr
    rw [← hr]
    apply List.getElem?_idxOf
    exact List.cons_subset_cons header (List.Subset.trans (List.filter_subset_self pre) (List.subset_append_left ..)) (Chain.last_mem ..)
  induction l generalizing x with
  | zero =>
    rw [elementByRank_succ h hpre hsuf hl hx]
    split
    next hr => exact (hfound 0 hr).symm
    next hr =>
      rw [idxOf_stop, idxOf_stop_zero h.base] at hr
      obtain ⟨hlt, rfl⟩ := hcut.resolve_left hr
      rw [List.append_nil, List.getElem?_eq_none (by rw [List.length_cons]; omega)]
      rfl
  | succ l ih =>
    rw [elementByRank_succ h hpre hsuf hl hx]
    split
    next hr => exact (hfound (l + 1) hr).symm
    next hr =>
      apply ih (by omega)
      cases List.mem_cons.mp (Chain.last_mem header (pre.filter fun y => l + 1 < height y)) with
      | inl he =>
        rw [stop, he]
        exact List.mem_cons_self ..
      | inr hin =>
        apply List.mem_cons_of_mem
        simp only [List.mem_filter, decide_eq_true_eq] at hin ⊢
        exact ⟨hin.1, by unfold stop; omega⟩

/-- **Looking up by rank** goes to the place in the list; the header is at place 0. -/
theorem getElementByRank_eq (h : z.Wf height ids) (r : Nat) : z.getElementByRank r = (header :: ids)[r]? := by
  obtain ⟨level, hlevel⟩ : ∃ k, z.level = k + 1 := ⟨z.level - 1, by have := h.base.level.1; omega⟩
  have hcut : ids.take r ++ ids.drop r = ids := List.take_append_drop r ids
  rw [← hcut] at h
  have heq := @elementByRank_eq z height (ids.take r) (ids.drop r) h r
    (by
      rw [List.length_take, List.drop_eq_nil_iff]
      omega)
    (by
      intro x hx
      obtain ⟨a, c, hsplit, -, hlt⟩ := @exists_place [] (ids.take r) (ids.drop r) x hx
      rw [List.nil_append] at hsplit
      rw [List.length_nil, List.length_take] at hlt
      rw [idxOf_header h.base.nodup hsplit]
      omega)
    (by
      intro x hx
      obtain ⟨a, c, hsplit, hle, -⟩ := @exists_place (ids.take r) (ids.drop r) [] x hx
      rw [List.append_nil] at hsplit
      have hne : r < ids.length := by
        by_contra hge
        rw [List.drop_eq_nil_of_le (by omega)] at hx
        cases hx
      rw [List.length_take] at hle
      rw [idxOf_header h.base.nodup hsplit]
      omega)
    level (by omega) header (List.mem_cons_self ..)
  rw [hcut, List.idxOf_cons_self, ← hlevel] at heq
  exact heq

/-- **The item of rank `r`**, for every rank the set has. -/
theorem getElementByRank_spec {s : Finset Item} (h : z.Represents s) {r : Nat} (hr : 0 < r) :
    (∀ x, z.getElementByRank r = some x → z.item x ∈ s ∧ rank s (z.item x) = r) ∧
      (z.getElementByRank r = none ↔ s.card < r) := by
  have hcard := h.length_eq
  obtain ⟨height, ids, hwf, hs, rfl⟩ := h
  obtain ⟨k, rfl⟩ : ∃ k, r = k + 1 := ⟨r - 1, by omega⟩
  rw [getElementByRank_eq hwf, List.getElem?_cons_succ]
  constructor
  · intro x hx
    obtain ⟨hk, hget⟩ := List.getElem?_eq_some_iff.mp hx
    have hsplit : ids = ids.take k ++ x :: ids.drop (k + 1) := by
      rw [← hget, List.getElem_cons_drop, List.take_append_drop]
    refine ⟨List.mem_toFinset.mpr (List.mem_map_of_mem (List.mem_of_getElem? hx)), ?_⟩
    rw [rank_item hs hsplit, List.length_take]
    omega
  · rw [List.getElem?_eq_none_iff, ← hcard, hwf.base.length]
    omega

/-- A range that may hold something, by its bounds. -/
theorem lteMax_of_not_gteMin {range : ZRangeSpec}
    (hr : ¬ (range.min > range.max ∨ (range.min = range.max ∧ (range.minex ∨ range.maxex)))) {score : Int}
    (h : range.gteMin score = false) : range.lteMax score = true := by
  unfold ZRangeSpec.gteMin at h
  unfold ZRangeSpec.lteMax
  push Not at hr
  split at h <;> split <;> simp_all <;> omega

theorem isInRange_bounds (h : z.toSkiplist.Wf height ids) {range : ZRangeSpec} (hr : z.isInRange range = true) :
    ¬ (range.min > range.max ∨ (range.min = range.max ∧ (range.minex ∨ range.maxex))) ∧
      ∃ x ∈ ids, range.lteMax (z.score x) = true := by
  unfold isInRange at hr
  split at hr
  next => cases hr
  next hbounds =>
    refine ⟨hbounds, ?_⟩
    rw [h.tail, (h.links 0).next_eq, (@filter_level_zero _ _ [] ids h).2] at hr
    cases ids with
    | nil => cases hr
    | cons x ids =>
      rw [List.head?_cons] at hr
      split at hr
      next => cases hr
      next =>
        split at hr
        next => cases hr
        next => exact ⟨x, List.mem_cons_self .., hr⟩

section Range
variable {range : ZRangeSpec} {gone rest : List Nat}

theorem firstInRange_eq (h : z.Wf height (pre ++ (gone ++ rest))) (hs : ((pre ++ (gone ++ rest)).map z.item).Pairwise Item.Lt)
    (hpre : ∀ x ∈ pre, range.gteMin (z.score x) = false) (hsuf : ∀ x ∈ gone ++ rest, range.gteMin (z.score x) = true)
    (hgone : ∀ x ∈ gone, range.lteMax (z.score x) = true) (hrest : ∀ x ∈ rest, range.lteMax (z.score x) = false) :
    z.firstInRange range = gone.head? := by
  rw [firstInRange_spec h.base hs hpre hsuf]
  cases gone with
  | nil =>
    cases rest with
    | nil => rfl
    | cons x rest => simp [Option.filter, hrest x (List.mem_cons_self ..)]
  | cons x gone => simp [Option.filter, hgone x (List.mem_cons_self ..)]

theorem lastInRange_eq (h : z.Wf height (pre ++ (gone ++ rest))) (hs : ((pre ++ (gone ++ rest)).map z.item).Pairwise Item.Lt)
    (hpre : ∀ x ∈ pre, range.gteMin (z.score x) = false) (hsuf : ∀ x ∈ gone ++ rest, range.gteMin (z.score x) = true)
    (hgone : ∀ x ∈ gone, range.lteMax (z.score x) = true) (hrest : ∀ x ∈ rest, range.lteMax (z.score x) = false) :
    z.lastInRange range = gone.getLast? := by
  unfold Ranked.lastInRange
  cases hr : z.isInRange range with
  | false =>
    cases gone with
    | nil => rfl
    | cons x gone =>
      have hout := isInRange_false h.base hs hr
        (List.mem_append_right pre (List.mem_append_left rest (List.mem_cons_self ..)))
        (hsuf x (List.mem_append_left rest (List.mem_cons_self ..)))
      rw [hgone x (List.mem_cons_self ..)] at hout
      cases hout
  | true =>
    obtain ⟨hbounds, y, hy, hlow⟩ := isInRange_bounds h.base hr
    rw [← List.append_assoc] at h hy
    have hpass : ∀ x ∈ pre ++ gone, range.lteMax (z.score x) = true := by
      intro x hx
      cases List.mem_append.mp hx with
      | inl hx => exact lteMax_of_not_gteMin hbounds (hpre x hx)
      | inr hx => exact hgone x hx
    have hsearch := @Skiplist.search_header _ _ _ _ h.base (fun x => range.lteMax (z.score x)) hpass hrest
    have hstop : stop height (pre ++ gone) 0 = Chain.last header (pre ++ gone) := by
      rw [stop, (filter_level_zero h.base).1]
    simp only [hsearch, hstop, Chain.last_append]
    cases gone using List.reverseRecOn with
    | nil =>
      rw [List.append_nil] at hy
      cases List.mem_append.mp hy with
      | inl hy =>
        have hlast := hpre _ (Chain.last_mem_of_ne_nil (List.ne_nil_of_mem hy) (x := header))
        simp only [Chain.last_nil, hlast]
        rfl
      | inr hy =>
        rw [hrest y hy] at hlow
        cases hlow
    | append_singleton gone x _ =>
      have hmin := hsuf x (by simp)
      simp only [Chain.last_append_singleton, hmin, List.getLast?_append, List.getLast?_singleton]
      rfl

theorem mem_inRange_iff (hpre : ∀ x ∈ pre, range.gteMin (z.score x) = false)
    (hsuf : ∀ x ∈ gone ++ rest, range.gteMin (z.score x) = true) (hgone : ∀ x ∈ gone, range.lteMax (z.score x) = true)
    (hrest : ∀ x ∈ rest, range.lteMax (z.score x) = false) (b : Item) :
    (b ∈ ((pre ++ (gone ++ rest)).map z.item).toFinset ∧ InRange range b) ↔ b ∈ gone.map z.item := by
  have hin := inRange_iff hpre hsuf hgone hrest
  rw [List.mem_toFinset]
  constructor
  · intro hb
    obtain ⟨x, hx, rfl⟩ := List.mem_map.mp hb.1
    have hpart : x ∈ gone ∨ x ∈ pre ++ rest := by
      simp only [List.mem_append] at hx ⊢
      tauto
    cases hpart with
    | inl hx => exact List.mem_map_of_mem hx
    | inr hx => exact absurd hb.2 (hin.1 x hx)
  · intro hb
    obtain ⟨x, hx, rfl⟩ := List.mem_map.mp hb
    exact ⟨List.mem_map_of_mem (List.mem_append_right pre (List.mem_append_left rest hx)), hin.2 x hx⟩

end Range

/-- **The first item in range**, if there is one. -/
theorem firstInRange_first {s : Finset Item} (h : z.Represents s) (range : ZRangeSpec) :
    (∀ x, z.firstInRange range = some x →
      z.item x ∈ s ∧ InRange range (z.item x) ∧ ∀ b ∈ s, InRange range b → ¬ b.Lt (z.item x)) ∧
      (z.firstInRange range = none ↔ ∀ b ∈ s, ¬ InRange range b) := by
  obtain ⟨height, ids, hwf, hs, rfl⟩ := h
  obtain ⟨pre, gone, rest, rfl, hpre, hsuf, hgone, hrest⟩ := exists_range hs range
  have hmem := mem_inRange_iff hpre hsuf hgone hrest
  rw [firstInRange_eq hwf hs hpre hsuf hgone hrest]
  have hs' : (gone.map z.item).Pairwise Item.Lt :=
    hs.sublist (((List.sublist_append_left gone rest).trans (List.sublist_append_right pre _)).map _)
  cases gone with
  | nil =>
    refine ⟨by simp, iff_of_true rfl ?_⟩
    intro b hb hin
    exact absurd ((hmem b).mp ⟨hb, hin⟩) (by simp)
  | cons x gone =>
    have hx := (hmem (z.item x)).mpr (List.mem_map_of_mem (List.mem_cons_self ..))
    refine ⟨?_, iff_of_false (by simp) fun hnone => hnone _ hx.1 hx.2⟩
    intro y hy
    cases hy
    refine ⟨hx.1, hx.2, ?_⟩
    intro b hb hin hlt
    have hbg := (hmem b).mp ⟨hb, hin⟩
    rw [List.map_cons] at hbg hs'
    cases List.mem_cons.mp hbg with
    | inl he => exact hlt.ne he
    | inr hbg => exact Item.Lt.asymm hlt ((List.pairwise_cons.mp hs').1 b hbg)

/-- **The last item in range**, if there is one. -/
theorem lastInRange_last {s : Finset Item} (h : z.Represents s) (range : ZRangeSpec) :
    (∀ x, z.lastInRange range = some x →
      z.item x ∈ s ∧ InRange range (z.item x) ∧ ∀ b ∈ s, InRange range b → ¬ (z.item x).Lt b) ∧
      (z.lastInRange range = none ↔ ∀ b ∈ s, ¬ InRange range b) := by
  obtain ⟨height, ids, hwf, hs, rfl⟩ := h
  obtain ⟨pre, gone, rest, rfl, hpre, hsuf, hgone, hrest⟩ := exists_range hs range
  have hmem := mem_inRange_iff hpre hsuf hgone hrest
  rw [lastInRange_eq hwf hs hpre hsuf hgone hrest]
  have hs' : (gone.map z.item).Pairwise Item.Lt :=
    hs.sublist (((List.sublist_append_left gone rest).trans (List.sublist_append_right pre _)).map _)
  cases gone using List.reverseRecOn with
  | nil =>
    refine ⟨by simp, iff_of_true rfl ?_⟩
    intro b hb hin
    exact absurd ((hmem b).mp ⟨hb, hin⟩) (by simp)
  | append_singleton gone x _ =>
    have hx := (hmem (z.item x)).mpr (List.mem_map_of_mem (List.mem_append_right gone (List.mem_singleton_self x)))
    refine ⟨?_, iff_of_false (by simp) fun hnone => hnone _ hx.1 hx.2⟩
    intro y hy
    rw [List.getLast?_append, List.getLast?_singleton] at hy
    cases hy
    refine ⟨hx.1, hx.2, ?_⟩
    intro b hb hin hlt
    have hbg := (hmem b).mp ⟨hb, hin⟩
    rw [List.map_append, List.map_singleton] at hbg hs'
    cases List.mem_append.mp hbg with
    | inl hbg => exact Item.Lt.asymm hlt ((List.pairwise_append.mp hs').2.2 b hbg _ (List.mem_singleton_self _))
    | inr he => exact hlt.ne (List.mem_singleton.mp he).symm

/-! ### Runs -/

/-- What the operations are for: a finite set of items. -/
def setStep (s : Finset Item) : Op → Finset Item × Result
  | .insert score member _ => (insert (score, member) s, .node (score, member))
  | .delete score member => (s.erase (score, member), .count (if (score, member) ∈ s then 1 else 0))
  | .updateScore curscore member newscore _ =>
    (insert (newscore, member) (s.erase (curscore, member)), .node (newscore, member))
  | .deleteRangeByScore range => (s.filter fun a => ¬ InRange range a, .count (s.filter fun a => InRange range a).card)
  | .deleteRangeByRank start stop =>
    (s.filter fun a => ¬ (start ≤ rank s a ∧ rank s a ≤ stop),
      .count (s.filter fun a => start ≤ rank s a ∧ rank s a ≤ stop).card)

/-- What the caller has to see to: the item inserted is new, the item changed is there, and
the places fit in an `unsigned int`. -/
def Op.Legal (s : Finset Item) : Op → Prop
  | .insert score member _ => (score, member) ∉ s ∧ s.card + 1 < 2 ^ 32
  | .updateScore curscore member newscore _ =>
    (curscore, member) ∈ s ∧ (newscore, member) ∉ s.erase (curscore, member) ∧ s.card < 2 ^ 32
  | _ => True

def setRun : List Op → Finset Item → Finset Item × List Result
  | [], s => (s, [])
  | op :: ops, s => let (s', r) := setStep s op
    ((setRun ops s').1, r :: (setRun ops s').2)

def LegalRun : List Op → Finset Item → Prop
  | [], _ => True
  | op :: ops, s => op.Legal s ∧ LegalRun ops (setStep s op).1

theorem Op.perform_spec {s : Finset Item} (h : z.Represents s) (op : Op) (hlegal : op.Legal s) :
    ∃ z', op.perform z = some (z', (setStep s op).2) ∧ z'.Represents (setStep s op).1 := by
  cases op with
  | insert score member draws =>
    refine ⟨z.insert score member draws, ?_, insert_represents h hlegal.1 hlegal.2 draws⟩
    have hitem : (z.insert score member draws).item z.fresh = (score, member) := by
      show (Skiplist.insert _ score member draws).item _ = _
      rw [insert_item]
      exact Function.update_self ..
    simp only [Op.perform, setStep, hitem]
  | delete score member =>
    obtain ⟨hrep, hfound⟩ := delete_represents h score member
    refine ⟨(z.delete score member).1, ?_, hrep⟩
    simp only [Op.perform, setStep, hfound]
    split
    next hin => simp [hin]
    next hin => simp [hin]
  | updateScore curscore member newscore draws =>
    obtain ⟨z', x, heq, hrep, hitem⟩ := updateScore_represents h hlegal.1 hlegal.2.1 hlegal.2.2 draws
    refine ⟨z', ?_, hrep⟩
    simp only [Op.perform, setStep, heq, Option.map_some, hitem]
  | deleteRangeByScore range =>
    obtain ⟨hrep, hcount⟩ := deleteRangeByScore_represents h range
    refine ⟨(z.deleteRangeByScore range).1, ?_, hrep⟩
    simp only [Op.perform, setStep, hcount]
  | deleteRangeByRank start stop =>
    obtain ⟨hrep, hcount⟩ := deleteRangeByRank_represents h start stop
    refine ⟨(z.deleteRangeByRank start stop).1, ?_, hrep⟩
    simp only [Op.perform, setStep, hcount]

theorem run_spec {s : Finset Item} (h : z.Represents s) (ops : List Op) (hlegal : LegalRun ops s) :
    ∃ z', run ops z = some (z', (setRun ops s).2) ∧ z'.Represents (setRun ops s).1 := by
  induction ops generalizing z s with
  | nil => exact ⟨z, rfl, h⟩
  | cons op ops ih =>
    obtain ⟨z₁, hstep, hrep⟩ := op.perform_spec h hlegal.1
    obtain ⟨z', hrun, hrep'⟩ := ih hrep hlegal.2
    refine ⟨z', ?_, hrep'⟩
    unfold Ranked.run
    rw [hstep]
    simp only [Option.bind_eq_bind, Option.bind_some, hrun]
    rfl

/-- **A skiplist is a sorted set.** A run from the empty skiplist, of any operations within
what their caller promises, fails no assertion and returns what the operations on a finite
set return, and all spans are exact at its end. -/
theorem skiplist_is_sorted_set (ops : List Op) (hlegal : LegalRun ops ∅) :
    ∃ z, run ops create = some (z, (setRun ops ∅).2) ∧ z.Represents (setRun ops ∅).1 :=
  run_spec represents_create ops hlegal

/-- A range is deleted, and an item is moved to another score. -/
def demotion : List Op :=
  [.insert 5 [1] 0, .insert 3 [2] 2, .insert 4 [3] 1, .updateScore 5 [1] 1 0, .deleteRangeByRank 2 3]

theorem legal_demotion : LegalRun demotion ∅ := by
  refine ⟨⟨by simp, by simp⟩, ⟨by simp [setStep], by simp [setStep]⟩, ⟨by simp [setStep], by simp [setStep]⟩,
    ⟨by simp [setStep], by simp [setStep], by simp [setStep]⟩, trivial, trivial⟩

theorem skiplist_is_sorted_set_demotion :
    ∃ z, run demotion create = some (z, (setRun demotion ∅).2) ∧ z.Represents (setRun demotion ∅).1 :=
  skiplist_is_sorted_set demotion legal_demotion

/-- **The assertion of `m_zslFirstInRange`** does not fail. -/
theorem firstNotBelow_isSome_of_isInRange {s : Finset Item} (h : z.Represents s) (range : ZRangeSpec)
    (hr : z.isInRange range = true) : (z.firstNotBelow range).isSome = true := by
  obtain ⟨height, ids, hwf, hs, -⟩ := h
  obtain ⟨pre, gone, rest, rfl, hpre, hsuf, -, -⟩ := exists_range hs range
  exact Skiplist.firstNotBelow_isSome hwf.base hpre hsuf hr

/-- **Lookups in a skiplist.** In the state any such run ends in, the node of rank `r` is the
one with `r - 1` items below it, there is none exactly if the set has fewer items, and the
first and the last node in a range are those of the least and the greatest item in it. No
assertion fails in the lookup. -/
theorem skiplist_lookups (ops : List Op) (hlegal : LegalRun ops ∅) {z : Ranked} {results : List Result}
    (hrun : run ops create = some (z, results)) :
    (∀ r, 0 < r →
      (∀ x, z.getElementByRank r = some x →
        z.item x ∈ (setRun ops ∅).1 ∧ rank (setRun ops ∅).1 (z.item x) = r) ∧
      (z.getElementByRank r = none ↔ (setRun ops ∅).1.card < r)) ∧
    ∀ range : ZRangeSpec,
      (z.isInRange range = true → (z.firstNotBelow range).isSome = true) ∧
      ((∀ x, z.firstInRange range = some x → z.item x ∈ (setRun ops ∅).1 ∧ InRange range (z.item x) ∧
          ∀ b ∈ (setRun ops ∅).1, InRange range b → ¬ b.Lt (z.item x)) ∧
        (z.firstInRange range = none ↔ ∀ b ∈ (setRun ops ∅).1, ¬ InRange range b)) ∧
      (∀ x, z.lastInRange range = some x → z.item x ∈ (setRun ops ∅).1 ∧ InRange range (z.item x) ∧
          ∀ b ∈ (setRun ops ∅).1, InRange range b → ¬ (z.item x).Lt b) ∧
        (z.lastInRange range = none ↔ ∀ b ∈ (setRun ops ∅).1, ¬ InRange range b) := by
  obtain ⟨z', hrun', hrep⟩ := run_spec represents_create ops hlegal
  rw [hrun] at hrun'
  cases hrun'
  refine ⟨fun r hr => getElementByRank_spec hrep hr, fun range => ?_⟩
  have hlast := lastInRange_last hrep range
  exact ⟨firstNotBelow_isSome_of_isInRange hrep range, firstInRange_first hrep range, hlast.1, hlast.2⟩

/-- Before the deletion the scores are 1, 3 and 4. From above 1 up to 4 there are two of them. -/
theorem skiplist_lookups_demotion : ∃ z results, run (demotion.take 4) create = some (z, results) ∧
    (z.getElementByRank 2).map z.item = some (3, [2]) ∧ z.getElementByRank 4 = none ∧
    (z.firstInRange ⟨1, 4, true, false⟩).map z.item = some (3, [2]) ∧
    (z.lastInRange ⟨1, 4, true, false⟩).map z.item = some (4, [3]) := by
  have hlegal : LegalRun (demotion.take 4) ∅ :=
    ⟨legal_demotion.1, legal_demotion.2.1, legal_demotion.2.2.1, legal_demotion.2.2.2.1, trivial⟩
  obtain ⟨z, hrun, -⟩ := run_spec represents_create _ hlegal
  obtain ⟨hrank, hrange⟩ := skiplist_lookups _ hlegal hrun
  obtain ⟨-, ⟨hfirst, hnoFirst⟩, hlast, hnoLast⟩ := hrange ⟨1, 4, true, false⟩
  have hset : (setRun (demotion.take 4) ∅).1 = {(1, [1]), (3, [2]), (4, [3])} := by decide
  rw [hset] at hrank hfirst hnoFirst hlast hnoLast
  refine ⟨z, _, hrun, ?_, (hrank 4 (by decide)).2.mpr (by decide), ?_, ?_⟩
  · obtain ⟨hat, hnone⟩ := hrank 2 (by decide)
    obtain ⟨x, hx⟩ := Option.ne_none_iff_exists'.mp (mt hnone.mp (by decide))
    have hsecond : ∀ a ∈ ({(1, [1]), (3, [2]), (4, [3])} : Finset Item),
        rank {(1, [1]), (3, [2]), (4, [3])} a = 2 → a = (3, [2]) := by decide
    rw [hx, Option.map_some, hsecond _ (hat x hx).1 (hat x hx).2]
  · obtain ⟨x, hx⟩ := Option.ne_none_iff_exists'.mp (mt hnoFirst.mp (by decide))
    obtain ⟨hin, hrange, hleast⟩ := hfirst x hx
    have hthree : ∀ a ∈ ({(1, [1]), (3, [2]), (4, [3])} : Finset Item),
        InRange ⟨1, 4, true, false⟩ a → ¬ Item.Lt (3, [2]) a → a = (3, [2]) := by decide
    rw [hx, Option.map_some, hthree _ hin hrange (hleast (3, [2]) (by decide) (by decide))]
  · obtain ⟨x, hx⟩ := Option.ne_none_iff_exists'.mp (mt hnoLast.mp (by decide))
    obtain ⟨hin, hrange, hgreatest⟩ := hlast x hx
    have hfour : ∀ a ∈ ({(1, [1]), (3, [2]), (4, [3])} : Finset Item),
        InRange ⟨1, 4, true, false⟩ a → ¬ Item.Lt a (4, [3]) → a = (4, [3]) := by decide
    rw [hx, Option.map_some, hfour _ hin hrange (hgreatest (4, [3]) (by decide) (by decide))]

end Ranked
end RedisXSlot
