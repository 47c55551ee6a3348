import RedisXSlot.Skiplist

/-! A skiplist is a sorted list.

The nodes of a skiplist, met on the lowest level, are `ids`; on level `i` the chain visits
those of them that are higher than `i`. A search stops on every level at the last node of
the part that passes, so inserting and deleting splice the same place of each chain. What
is left of the heap is the list of `items` a skiplist `Represents`, in order. -/
namespace RedisXSlot

abbrev Item := Int × Bytes

/-- The order of a skiplist: by score, then by member. -/
def Item.Lt (a b : Item) : Prop := a.1 < b.1 ∨ (a.1 = b.1 ∧ stringCompare a.2 b.2 = .lt)

instance (a b : Item) : Decidable (a.Lt b) := inferInstanceAs (Decidable (_ ∨ _))

namespace Item

theorem Lt.trans {a b c : Item} (hab : a.Lt b) (hbc : b.Lt c) : a.Lt c := by
  rcases hab with hab | ⟨hab, hab'⟩ <;> rcases hbc with hbc | ⟨hbc, hbc'⟩
  · exact .inl (hab.trans hbc)
  · exact .inl (hbc ▸ hab)
  · exact .inl (hab ▸ hbc)
  · exact .inr ⟨hab.trans hbc, stringCompare_lt_trans hab' hbc'⟩

theorem Lt.ne {a b : Item} (h : a.Lt b) : a ≠ b := by
  rintro rfl
  rcases h with h | ⟨-, h⟩
  · exact lt_irrefl _ h
  · exact absurd (stringCompare_eq_iff.mpr rfl ▸ h) (by decide)

theorem lt_of_not_lt {a b : Item} (h : ¬ a.Lt b) (hne : a ≠ b) : b.Lt a := by
  rcases lt_trichotomy a.1 b.1 with hlt | heq | hgt
  · exact absurd (.inl hlt) h
  · have hlt : stringCompare a.2 b.2 ≠ .lt := fun hlt => h (.inr ⟨heq, hlt⟩)
    exact .inr ⟨heq.symm, stringCompare_total hlt fun he => hne (Prod.ext heq he)⟩
  · exact .inl hgt

theorem Lt.fst_le {a b : Item} (h : a.Lt b) : a.1 ≤ b.1 := by
  rcases h with h | ⟨h, -⟩
  · exact h.le
  · exact h.le

end Item

namespace Skiplist

def item (z : Skiplist) (x : Nat) : Item := (z.score x, z.member x)

theorem before_iff (z : Skiplist) (score : Int) (member : Bytes) (x : Nat) :
    z.before score member x = true ↔ (z.item x).Lt (score, member) := by
  simp [before, item, Item.Lt]

/-- The heap holds the nodes `ids`, each reaching as many levels as its height. -/
structure Wf (z : Skiplist) (height : Nat → Nat) (ids : List Nat) : Prop where
  nodup : (header :: ids).Nodup
  fresh : ∀ x ∈ header :: ids, x < z.fresh
  links : ∀ i, Chain.Links (z.forward i) header (ids.filter fun x => i < height x)
  height : ∀ x ∈ ids, 0 < height x ∧ height x ≤ z.level
  level : 0 < z.level ∧ z.level ≤ ZSKIPLIST_MAXLEVEL
  backs : Chain.Backs z.backward none ids
  tail : z.tail = ids.getLast?
  length : z.length = ids.length

/-- The skiplist is this list of items, in order. -/
def Represents (z : Skiplist) (items : List Item) : Prop :=
  ∃ height ids, z.Wf height ids ∧ items = ids.map z.item ∧ items.Pairwise Item.Lt

theorem Represents.length_eq {z : Skiplist} {items : List Item} (h : z.Represents items) : z.length = items.length := by
  obtain ⟨_, ids, hwf, rfl, -⟩ := h
  rw [hwf.length, List.length_map]

theorem Represents.sorted {z : Skiplist} {items : List Item} (h : z.Represents items) : items.Pairwise Item.Lt := by
  obtain ⟨_, _, _, _, hs⟩ := h
  exact hs

theorem Represents.nodup {z : Skiplist} {items : List Item} (h : z.Represents items) : items.Nodup :=
  h.sorted.imp Item.Lt.ne

theorem represents_create : create.Represents [] :=
  ⟨fun _ => 0, [], ⟨by simp, by simp [create, header], fun i => rfl, by simp, by decide, trivial, rfl, rfl⟩, rfl, .nil⟩

/-! ### Searching -/

theorem filter_append_takeWhile {pre suf : List Nat} {pass q : Nat → Bool} (hpre : ∀ x ∈ pre, pass x = true)
    (hsuf : ∀ x ∈ suf, pass x = false) : ((pre ++ suf).filter q).takeWhile pass = pre.filter q := by
  rw [List.filter_append, List.takeWhile_append_of_pos fun x hx => hpre x (List.mem_of_mem_filter hx)]
  cases hs : suf.filter q with
  | nil => rw [List.takeWhile_nil, List.append_nil]
  | cons y ys =>
    have hy : y ∈ suf := List.mem_of_mem_filter (hs ▸ List.mem_cons_self ..)
    rw [List.takeWhile_cons_of_neg (by rw [hsuf y hy]; decide), List.append_nil]

variable {z : Skiplist} {height : Nat → Nat} {pre suf : List Nat}

/-- Where a search leaves level `i`: at the last node there that passes. -/
def stop (height : Nat → Nat) (pre : List Nat) (i : Nat) : Nat :=
  Chain.last header (pre.filter fun x => i < height x)

/-- **A search stops on each level at the last node that passes.** -/
theorem search_spec (h : z.Wf height (pre ++ suf)) {pass : Nat → Bool} (hpre : ∀ x ∈ pre, pass x = true)
    (hsuf : ∀ x ∈ suf, pass x = false) (l : Nat) {x : Nat} (update : Nat → Nat)
    (hx : x ∈ header :: pre.filter fun y => l - 1 < height y) :
    (0 < l → (z.search pass l x update).1 = stop height pre 0) ∧
      ∀ i, (z.search pass l x update).2 i = if i < l then stop height pre i else update i := by
  induction l generalizing x update with
  | zero => exact ⟨fun h0 => absurd h0 (lt_irrefl 0), fun i => by simp [search]⟩
  | succ l ih =>
    have hlen : ((pre ++ suf).filter fun y => l < height y).length ≤ z.length := by
      rw [h.length]
      exact List.length_filter_le ..
    have hstop : Chain.advance (z.forward l) pass z.length x = stop height pre l := by
      have := Chain.advance_eq_of_mem (p := pass) (h.links l) (y := x)
        (by rw [filter_append_takeWhile hpre hsuf]; exact hx) hlen
      rwa [filter_append_takeWhile hpre hsuf] at this
    have hmem : stop height pre l ∈ header :: pre.filter fun y => l - 1 < height y := by
      have hsub : pre.filter (fun y => l < height y) ⊆ pre.filter fun y => l - 1 < height y := by
        intro y hy
        simp only [List.mem_filter, decide_eq_true_eq] at hy ⊢
        exact ⟨hy.1, by omega⟩
      rcases List.mem_cons.mp (Chain.last_mem header (pre.filter fun y => l < height y)) with heq | hin
      · rw [stop, heq]
        exact List.mem_cons_self ..
      · exact List.mem_cons_of_mem _ (hsub hin)
    obtain ⟨hend, hupdate⟩ := ih (Function.update update l (stop height pre l)) hmem
    simp only [search, hstop]
    refine ⟨fun _ => ?_, fun i => ?_⟩
    · cases l with
      | zero => rfl
      | succ l => exact hend (Nat.succ_pos l)
    · rw [hupdate]
      by_cases hi : i < l
      · rw [if_pos hi, if_pos (Nat.lt_succ_of_lt hi)]
      · by_cases hil : i = l
        · subst hil
          simp
        · rw [if_neg hi, if_neg (by omega), Function.update_of_ne hil]

/-- The search of an operation: from the header down all levels. -/
theorem search_header (h : z.Wf height (pre ++ suf)) {pass : Nat → Bool} (hpre : ∀ x ∈ pre, pass x = true)
    (hsuf : ∀ x ∈ suf, pass x = false) :
    z.search pass z.level header (fun _ => header) = (stop height pre 0, stop height pre) := by
  obtain ⟨hend, hupdate⟩ := search_spec h hpre hsuf z.level (fun _ => header) (List.mem_cons_self ..)
  refine Prod.ext (hend h.level.1) (funext fun i => ?_)
  rw [hupdate]
  split
  next => rfl
  next hi =>
    have hnil : pre.filter (fun y => i < height y) = [] := by
      rw [List.filter_eq_nil_iff]
      intro y hy
      have := (h.height y (List.mem_append_left suf hy)).2
      simp only [decide_eq_true_eq]
      omega
    show header = stop height pre i
    rw [stop, hnil]
    rfl

theorem filter_level_zero (h : z.Wf height (pre ++ suf)) :
    pre.filter (fun x => 0 < height x) = pre ∧ suf.filter (fun x => 0 < height x) = suf :=
  ⟨List.filter_eq_self.mpr fun x hx => decide_eq_true (h.height x (List.mem_append_left suf hx)).1,
    List.filter_eq_self.mpr fun x hx => decide_eq_true (h.height x (List.mem_append_right pre hx)).1⟩

/-- The node after the search is the first that does not pass. -/
theorem forward_stop (h : z.Wf height (pre ++ suf)) (i : Nat) :
    z.forward i (stop height pre i) = (suf.filter fun x => i < height x).head? := by
  have := h.links i
  rw [List.filter_append] at this
  exact this.next_last

theorem forward_stop_zero (h : z.Wf height (pre ++ suf)) : z.forward 0 (stop height pre 0) = suf.head? := by
  rw [forward_stop h 0, (filter_level_zero h).2]

/-- A search that goes no further up than it has to splits the list. -/
theorem exists_split {ids : List Nat} (hs : (ids.map z.item).Pairwise Item.Lt) {pass : Nat → Bool}
    (hdown : ∀ x y, (z.item x).Lt (z.item y) → pass y = true → pass x = true) :
    ∃ pre suf, ids = pre ++ suf ∧ (∀ x ∈ pre, pass x = true) ∧ ∀ x ∈ suf, pass x = false := by
  induction ids with
  | nil => exact ⟨[], [], rfl, by simp, by simp⟩
  | cons x ids ih =>
    rw [List.map_cons, List.pairwise_cons] at hs
    cases hx : pass x with
    | true =>
      obtain ⟨pre, suf, heq, hpre, hsuf⟩ := ih hs.2
      refine ⟨x :: pre, suf, by rw [heq, List.cons_append], fun y hy => ?_, hsuf⟩
      rcases List.mem_cons.mp hy with rfl | hy
      · exact hx
      · exact hpre y hy
    | false =>
      refine ⟨[], x :: ids, rfl, by simp, fun y hy => ?_⟩
      rcases List.mem_cons.mp hy with rfl | hin
      · exact hx
      · by_contra hy'
        have := hdown x y (hs.1 _ (List.mem_map_of_mem hin)) (by simpa using hy')
        rw [hx] at this
        cases this

/-- The search for an item splits the nodes at it. -/
theorem exists_split_before {ids : List Nat} (hs : (ids.map z.item).Pairwise Item.Lt) (score : Int)
    (member : Bytes) : ∃ pre suf, ids = pre ++ suf ∧ (∀ x ∈ pre, z.before score member x = true) ∧
      ∀ x ∈ suf, z.before score member x = false :=
  exists_split hs fun _ _ hxy hy => (z.before_iff ..).mpr (hxy.trans ((z.before_iff ..).mp hy))

/-! ### Inserting -/

/-- Without the header among them, the last of the nodes is the one before the search's end. -/
theorem stop_zero (h : z.Wf height (pre ++ suf)) :
    (if stop height pre 0 = header then none else some (stop height pre 0)) = pre.getLast? := by
  rw [stop, (filter_level_zero h).1, Chain.last_eq_getD]
  cases hl : pre.getLast? with
  | none => rfl
  | some x =>
    have hx : x ∈ pre := List.mem_of_getLast? hl
    have hne : x ≠ header := fun he =>
      (List.nodup_cons.mp h.nodup).1 (he ▸ List.mem_append_left suf hx)
    rw [Option.getD_some, if_neg hne]

theorem randomLevel_pos (draws : Nat) : 0 < randomLevel draws ∧ randomLevel draws ≤ ZSKIPLIST_MAXLEVEL := by
  rw [randomLevel, ZSKIPLIST_MAXLEVEL]
  split <;> omega

/-- The new node is in the chains of its levels. -/
theorem insert_links (h : z.Wf height (pre ++ suf)) (level i : Nat) :
    Chain.Links (if i < level then Chain.splice (z.forward i) (stop height pre i) z.fresh else z.forward i) header
      ((pre ++ z.fresh :: suf).filter fun x => i < Function.update height z.fresh level x) := by
  have hnot : z.fresh ∉ header :: (pre ++ suf) := fun hm => lt_irrefl _ (h.fresh _ hm)
  have hfilter {part : List Nat} (hsub : part ⊆ pre ++ suf) :
      part.filter (fun x => i < Function.update height z.fresh level x) = part.filter fun x => i < height x := by
    refine List.filter_congr fun x hx => ?_
    rw [Function.update_of_ne (ne_of_mem_of_not_mem (List.mem_cons_of_mem _ (hsub hx)) hnot)]
  rw [List.filter_append, List.filter_cons, Function.update_self, hfilter (List.subset_append_left ..),
    hfilter (List.subset_append_right ..)]
  have hlinks := h.links i
  have hsub : (header :: (pre ++ suf).filter fun x => i < height x).Sublist (header :: (pre ++ suf)) :=
    List.filter_sublist.cons_cons _
  rw [List.filter_append] at hlinks hsub
  by_cases hi : i < level
  · rw [if_pos hi, if_pos (decide_eq_true hi)]
    exact Chain.links_splice hlinks (fun hm => hnot (hsub.subset hm)) (h.nodup.sublist hsub)
  · rw [if_neg hi, if_neg (by simpa using hi)]
    exact hlinks

/-- **Inserting puts a node between what is before the item and what is not.** -/
theorem insert_wf (h : z.Wf height (pre ++ suf)) {score : Int} {member : Bytes}
    (hpre : ∀ x ∈ pre, z.before score member x = true) (hsuf : ∀ x ∈ suf, z.before score member x = false)
    (draws : Nat) :
    (z.insert score member draws).Wf (Function.update height z.fresh (randomLevel draws))
      (pre ++ z.fresh :: suf) := by
  have hlev := randomLevel_pos draws
  have hnot : z.fresh ∉ header :: (pre ++ suf) := fun hm => lt_irrefl _ (h.fresh _ hm)
  have hnext : Chain.splice (z.forward 0) (stop height pre 0) z.fresh z.fresh = suf.head? := by
    rw [Chain.splice, if_pos rfl, forward_stop_zero h]
  have hnodup : (header :: (pre ++ z.fresh :: suf)).Nodup := by
    have hperm : (header :: (pre ++ z.fresh :: suf)).Perm (z.fresh :: header :: (pre ++ suf)) :=
      (List.perm_middle.cons _).trans (.swap ..)
    exact hperm.nodup_iff.mpr (List.nodup_cons.mpr ⟨hnot, h.nodup⟩)
  have hmem {x : Nat} (hx : x ∈ pre ++ z.fresh :: suf) : x = z.fresh ∨ x ∈ pre ++ suf :=
    List.mem_cons.mp (List.perm_middle.mem_iff.mp hx)
  have hbacks := h.backs.splice (List.nodup_cons.mp hnodup).2
  rw [Option.or_none] at hbacks
  have hlevel := h.level
  simp only [insert, search_header h hpre hsuf, hlev.1, if_true, hnext, stop_zero h]
  refine ⟨hnodup, fun x hx => ?_, insert_links h (randomLevel draws), fun x hx => ?_, ?_, hbacks, ?_, ?_⟩
  · rcases List.mem_cons.mp hx with rfl | hx
    · exact Nat.lt_succ_of_lt (h.fresh _ (List.mem_cons_self ..))
    · rcases hmem hx with rfl | hx
      · exact Nat.lt_succ_self _
      · exact Nat.lt_succ_of_lt (h.fresh x (List.mem_cons_of_mem _ hx))
  · rcases hmem hx with rfl | hx
    · rw [Function.update_self]
      exact ⟨hlev.1, by simp only; split <;> omega⟩
    · rw [Function.update_of_ne (ne_of_mem_of_not_mem (List.mem_cons_of_mem _ hx) hnot)]
      have := h.height x hx
      exact ⟨this.1, by simp only; split <;> omega⟩
  · simp only
    split <;> omega
  · simp only [h.tail]
    cases suf with
    | nil => simp
    | cons y ys => simp [List.getLast?_append]
  · simp only [h.length, List.length_append, List.length_cons]
    omega

theorem insert_item (z : Skiplist) (score : Int) (member : Bytes) (draws x : Nat) :
    (z.insert score member draws).item x = Function.update z.item z.fresh (score, member) x := by
  by_cases hx : x = z.fresh
  · subst hx
    simp [item, insert]
  · simp [item, insert, hx]

/-- **Inserting puts the item where it belongs**, whatever level it draws. -/
theorem insert_represents {items : List Item} (h : z.Represents items) {score : Int} {member : Bytes}
    (hnew : (score, member) ∉ items) (draws : Nat) :
    ∃ items', (z.insert score member draws).Represents items' ∧ items'.Perm ((score, member) :: items) := by
  obtain ⟨height, ids, hwf, rfl, hs⟩ := h
  obtain ⟨pre, suf, rfl, hpre, hsuf⟩ := exists_split_before hs score member
  have hfresh : ∀ x ∈ pre ++ suf, (z.insert score member draws).item x = z.item x := fun x hx => by
    rw [insert_item, Function.update_of_ne (hwf.fresh x (List.mem_cons_of_mem _ hx)).ne]
  have hitems : (pre ++ z.fresh :: suf).map (z.insert score member draws).item =
      pre.map z.item ++ (score, member) :: suf.map z.item := by
    rw [List.map_append, List.map_cons, insert_item, Function.update_self,
      List.map_congr_left fun x hx => hfresh x (List.mem_append_left _ hx),
      List.map_congr_left fun x hx => hfresh x (List.mem_append_right _ hx)]
  rw [List.map_append] at hs hnew ⊢
  refine ⟨_, ⟨_, _, insert_wf hwf hpre hsuf draws, hitems.symm, ?_⟩, List.perm_middle⟩
  obtain ⟨hs1, hs2, hs3⟩ := List.pairwise_append.mp hs
  have hlow : ∀ a ∈ pre.map z.item, a.Lt (score, member) := by
    intro a ha
    obtain ⟨x, hx, rfl⟩ := List.mem_map.mp ha
    exact (z.before_iff ..).mp (hpre x hx)
  have hhigh : ∀ b ∈ suf.map z.item, Item.Lt (score, member) b := by
    intro b hb
    obtain ⟨x, hx, rfl⟩ := List.mem_map.mp hb
    refine Item.lt_of_not_lt (fun hlt => ?_) fun he => hnew (he ▸ List.mem_append_right _ hb)
    rw [← z.before_iff, hsuf x hx] at hlt
    cases hlt
  refine List.pairwise_append.mpr ⟨hs1, List.pairwise_cons.mpr ⟨hhigh, hs2⟩, fun a ha b hb => ?_⟩
  rcases List.mem_cons.mp hb with rfl | hb
  · exact hlow a ha
  · exact hs3 a ha b hb

/-! ### Deleting -/

theorem lowerLevel_spec (forward : Nat → Nat → Option Nat) {level : Nat} (h : 0 < level) :
    0 < lowerLevel forward level ∧ lowerLevel forward level ≤ level ∧
      ∀ i, lowerLevel forward level ≤ i → i < level → forward i header = none := by
  induction level with
  | zero => cases h
  | succ level ih =>
    rw [lowerLevel]
    split
    next hlow =>
      obtain ⟨hpos, hle, hnone⟩ := ih (by omega)
      refine ⟨hpos, by omega, fun i hi hlt => ?_⟩
      rcases Nat.lt_succ_iff_lt_or_eq.mp hlt with hlt | rfl
      · exact hnone i hi hlt
      · exact Option.isNone_iff_eq_none.mp hlow.2
    next => exact ⟨h, le_rfl, fun i hi hlt => absurd hlt (not_lt.mpr hi)⟩

section Delete
variable {x : Nat}

theorem forward_eq_some_iff (h : z.Wf height (pre ++ x :: suf)) (i : Nat) :
    z.forward i (stop height pre i) = some x ↔ i < height x := by
  have hx : x ∉ suf :=
    (List.nodup_cons.mp (List.nodup_append.mp (List.nodup_cons.mp h.nodup).2).2.1).1
  rw [forward_stop h, List.filter_cons]
  by_cases hi : i < height x
  · simp [hi]
  · rw [if_neg (by simpa using hi)]
    exact iff_of_false (fun he => hx (List.mem_of_mem_filter (List.mem_of_mem_head? he))) hi

theorem delete_links (h : z.Wf height (pre ++ x :: suf)) (i : Nat) :
    Chain.Links (if i < z.level ∧ z.forward i (stop height pre i) = some x
        then Chain.unsplice (z.forward i) (stop height pre i) x else z.forward i) header
      ((pre ++ suf).filter fun y => i < height y) := by
  have hx := h.height x (List.mem_append_right _ (List.mem_cons_self ..))
  have hlinks := h.links i
  rw [List.filter_append, List.filter_cons] at hlinks
  simp only [forward_eq_some_iff h]
  rw [List.filter_append]
  by_cases hi : i < height x
  · have hsub : (header :: (pre ++ x :: suf).filter fun y => i < height y).Sublist
        (header :: (pre ++ x :: suf)) := List.filter_sublist.cons_cons _
    rw [List.filter_append, List.filter_cons] at hsub
    rw [if_pos ⟨by omega, hi⟩]
    rw [if_pos (decide_eq_true hi)] at hlinks hsub
    exact Chain.links_unsplice hlinks (h.nodup.sublist hsub)
  · rw [if_neg fun hc => hi hc.2]
    rw [if_neg (by simpa using hi)] at hlinks
    exact hlinks

/-- **Deleting takes the node out.** -/
theorem deleteNode_wf (h : z.Wf height (pre ++ x :: suf)) :
    (z.deleteNode x (stop height pre)).Wf height (pre ++ suf) := by
  have hx := h.height x (List.mem_append_right _ (List.mem_cons_self ..))
  have hsub : (header :: (pre ++ suf)).Sublist (header :: (pre ++ x :: suf)) :=
    ((List.sublist_cons_self x suf).append_left pre).cons_cons _
  have hstop : x ≠ stop height pre 0 := by
    intro he
    have hnd := h.nodup
    rw [← List.cons_append] at hnd
    refine (List.nodup_append.mp hnd).2.2 x ?_ x (List.mem_cons_self ..) rfl
    rw [he, stop]
    exact List.cons_subset_cons _ (List.filter_subset_self _) (Chain.last_mem ..)
  have hnext : z.forward 0 x = suf.head? := by
    have hlinks := h.links 0
    rw [List.filter_append, (filter_level_zero h).1, (filter_level_zero h).2, ← List.singleton_append,
      ← List.append_assoc] at hlinks
    have := hlinks.next_last
    rwa [Chain.last_append_singleton] at this
  obtain ⟨hprev, hbacks⟩ := h.backs.unsplice (List.nodup_cons.mp h.nodup).2
  rw [Option.or_none] at hprev
  have hlevel := lowerLevel_spec (fun i => if i < z.level ∧ z.forward i (stop height pre i) = some x
        then Chain.unsplice (z.forward i) (stop height pre i) x else z.forward i) h.level.1
  have hnext' : (if 0 < z.level ∧ z.forward 0 (stop height pre 0) = some x
      then Chain.unsplice (z.forward 0) (stop height pre 0) x else z.forward 0) x = suf.head? := by
    split
    next => rw [Chain.unsplice, if_neg hstop, hnext]
    next => exact hnext
  simp only [deleteNode, hnext']
  refine ⟨h.nodup.sublist hsub, fun y hy => h.fresh y (hsub.subset hy), delete_links h, fun y hy => ?_,
    ⟨hlevel.1, hlevel.2.1.trans h.level.2⟩, hbacks, ?_, ?_⟩
  · have hy' := h.height y (((List.sublist_cons_self x suf).append_left pre).subset hy)
    refine ⟨hy'.1, ?_⟩
    by_contra hlt
    have hnone := hlevel.2.2 (height y - 1) (by simp only at hlt ⊢; omega) (by omega)
    have hlinks := (delete_links h (height y - 1)).next_eq
    rw [hnone, eq_comm, List.head?_eq_none_iff, List.filter_eq_nil_iff] at hlinks
    exact hlinks y hy (decide_eq_true (by omega))
  · simp only [h.tail, hprev]
    cases suf with
    | nil => simp
    | cons y ys => simp [List.getLast?_append]
  · simp only [h.length, List.length_append, List.length_cons]
    omega

end Delete

/-- **Deleting takes the item out, if it is there.** -/
theorem delete_represents {items : List Item} (h : z.Represents items) (score : Int) (member : Bytes) :
    ∃ items', (z.delete score member).1.Represents items' ∧ items'.Perm (items.erase (score, member)) ∧
      (z.delete score member).2 = decide ((score, member) ∈ items) := by
  obtain ⟨height, ids, hwf, rfl, hs⟩ := h
  obtain ⟨pre, suf, rfl, hpre, hsuf⟩ := exists_split_before hs score member
  have hlow : ∀ x ∈ pre, z.item x ≠ (score, member) := fun x hx =>
    ((z.before_iff ..).mp (hpre x hx)).ne
  simp only [delete, search_header hwf hpre hsuf, forward_stop_zero hwf]
  cases suf with
  | nil =>
    have hnot : (score, member) ∉ (pre ++ []).map z.item := by
      intro hm
      obtain ⟨x, hx, he⟩ := List.mem_map.mp hm
      exact hlow x (by simpa using hx) he
    rw [List.erase_of_not_mem hnot]
    exact ⟨_, ⟨height, _, hwf, rfl, hs⟩, .refl _, (decide_eq_false hnot).symm⟩
  | cons x suf =>
    have hiff : (score = z.score x ∧ stringCompare (z.member x) member = .eq) ↔ z.item x = (score, member) := by
      rw [stringCompare_eq_iff, item, Prod.mk.injEq, eq_comm (a := score)]
    simp only [List.head?_cons, hiff]
    by_cases hx : z.item x = (score, member)
    · rw [if_pos hx]
      have hitems : (pre ++ suf).map z.item = ((pre ++ x :: suf).map z.item).erase (score, member) := by
        have hnot : (score, member) ∉ pre.map z.item := by
          intro hm
          obtain ⟨y, hy, he⟩ := List.mem_map.mp hm
          exact hlow y hy he
        rw [List.map_append, List.map_append, List.erase_append_right _ hnot, List.map_cons, hx,
          List.erase_cons_head]
      refine ⟨_, ⟨height, _, deleteNode_wf hwf, rfl, ?_⟩, ?_, ?_⟩
      · exact hs.sublist (((List.sublist_cons_self x suf).append_left pre).map _)
      · exact hitems ▸ .refl _
      · refine (decide_eq_true ?_).symm
        exact hx ▸ List.mem_map_of_mem (List.mem_append_right pre (List.mem_cons_self ..))
    · rw [if_neg hx]
      have hhigh : Item.Lt (score, member) (z.item x) := by
        refine Item.lt_of_not_lt (fun hlt => ?_) hx
        rw [← z.before_iff, hsuf x (List.mem_cons_self ..)] at hlt
        cases hlt
      have hnot : (score, member) ∉ (pre ++ x :: suf).map z.item := by
        intro hm
        obtain ⟨y, hy, he⟩ := List.mem_map.mp hm
        rcases List.mem_append.mp hy with hy | hy
        · exact hlow y hy he
        · rcases List.mem_cons.mp hy with rfl | hy
          · exact hx he
          · rw [List.map_append, List.map_cons] at hs
            have hlt := (List.pairwise_cons.mp (List.pairwise_append.mp hs).2.1).1 _ (List.mem_map_of_mem hy)
            exact (hhigh.trans hlt).ne he.symm
      rw [List.erase_of_not_mem hnot]
      exact ⟨_, ⟨height, _, hwf, rfl, hs⟩, .refl _, (decide_eq_false hnot).symm⟩

/-! ### Ranges -/

theorem gteMin_mono {range : ZRangeSpec} {a b : Int} (h : a ≤ b) (ha : range.gteMin a = true) :
    range.gteMin b = true := by
  simp only [ZRangeSpec.gteMin] at ha ⊢
  split at ha <;> simp_all <;> omega

theorem lteMax_mono {range : ZRangeSpec} {a b : Int} (h : a ≤ b) (hb : range.lteMax b = true) :
    range.lteMax a = true := by
  simp only [ZRangeSpec.lteMax] at hb ⊢
  split at hb <;> simp_all <;> omega

/-- The scores do not fall along the list. -/
theorem score_le {ids : List Nat} (hs : (ids.map z.item).Pairwise Item.Lt) :
    ids.Pairwise fun x y => z.score x ≤ z.score y :=
  (List.pairwise_map.mp hs).imp fun h => h.fst_le

/-- Outside the range of a list nothing is both high and low enough. -/
theorem isInRange_false {ids : List Nat} (h : z.Wf height ids) (hs : (ids.map z.item).Pairwise Item.Lt)
    {range : ZRangeSpec} (hr : z.isInRange range = false) {x : Nat} (hx : x ∈ ids)
    (hmin : range.gteMin (z.score x) = true) : range.lteMax (z.score x) = false := by
  by_contra hmax
  rw [Bool.not_eq_false] at hmax
  rw [isInRange] at hr
  split at hr
  next hempty =>
    simp only [ZRangeSpec.gteMin, ZRangeSpec.lteMax] at hmin hmax
    split at hmin <;> split at hmax <;> simp_all <;> omega
  next =>
    rw [h.tail, (h.links 0).next_eq, (@filter_level_zero _ _ [] ids h).2] at hr
    obtain ⟨y, hy⟩ : ∃ y, ids.getLast? = some y := by
      cases hl : ids.getLast? with
      | none => rw [List.getLast?_eq_none_iff.mp hl] at hx; cases hx
      | some y => exact ⟨y, rfl⟩
    obtain ⟨v, ids', rfl⟩ : ∃ v ids', ids = v :: ids' := List.exists_cons_of_ne_nil (List.ne_nil_of_mem hx)
    have hfirst : z.score v ≤ z.score x := by
      rcases List.mem_cons.mp hx with rfl | hx
      · exact le_rfl
      · exact (List.pairwise_cons.mp (score_le hs)).1 x hx
    have hlast : z.score x ≤ z.score y := by
      obtain ⟨init, hinit⟩ := List.getLast?_eq_some_iff.mp hy
      have hsc := score_le hs
      rw [hinit] at hx hsc
      rcases List.mem_append.mp hx with hx | hx
      · exact (List.pairwise_append.mp hsc).2.2 x hx y (List.mem_singleton_self y)
      · rw [List.mem_singleton.mp hx]
    rw [hy] at hr
    simp [gteMin_mono hlast hmin, lteMax_mono hfirst hmax] at hr

theorem firstNotBelow_eq (h : z.Wf height (pre ++ suf)) {range : ZRangeSpec}
    (hpre : ∀ x ∈ pre, range.gteMin (z.score x) = false) (hsuf : ∀ x ∈ suf, range.gteMin (z.score x) = true) :
    z.firstNotBelow range = suf.head? := by
  have hsearch := @search_header _ _ _ _ h (fun x => !range.gteMin (z.score x)) (by simpa using hpre)
    (by simpa using hsuf)
  simp only [firstNotBelow, hsearch, forward_stop_zero h]

/-- **The assertion of `m_zslFirstInRange` holds**: if the last node is high enough, some node is. -/
theorem firstNotBelow_isSome (h : z.Wf height (pre ++ suf)) {range : ZRangeSpec}
    (hpre : ∀ x ∈ pre, range.gteMin (z.score x) = false) (hsuf : ∀ x ∈ suf, range.gteMin (z.score x) = true)
    (hr : z.isInRange range = true) : (z.firstNotBelow range).isSome = true := by
  rw [firstNotBelow_eq h hpre hsuf]
  cases suf with
  | cons x suf => rfl
  | nil =>
    rw [List.append_nil] at h
    unfold isInRange at hr
    split at hr
    next => cases hr
    next =>
      rw [h.tail] at hr
      split at hr
      next => cases hr
      next x hx =>
        rw [hpre x (List.mem_of_getLast? hx)] at hr
        cases hr

/-- The first node in range is the first that is high enough, if it is low enough. -/
theorem firstInRange_spec (h : z.Wf height (pre ++ suf)) (hs : ((pre ++ suf).map z.item).Pairwise Item.Lt)
    {range : ZRangeSpec} (hpre : ∀ x ∈ pre, range.gteMin (z.score x) = false)
    (hsuf : ∀ x ∈ suf, range.gteMin (z.score x) = true) :
    z.firstInRange range = suf.head?.filter fun x => range.lteMax (z.score x) := by
  rw [firstInRange]
  split
  next hr =>
    cases suf with
    | nil => rfl
    | cons x suf =>
      have := isInRange_false h hs (by simpa using hr) (List.mem_append_right _ (List.mem_cons_self ..))
        (hsuf x (List.mem_cons_self ..))
      simp [Option.filter, this]
  next =>
    rw [firstNotBelow_eq h hpre hsuf]
    cases suf with
    | nil => rfl
    | cons x suf => simp [Option.filter]

end Skiplist
end RedisXSlot
