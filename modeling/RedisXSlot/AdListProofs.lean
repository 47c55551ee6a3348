import RedisXSlot.AdListRing

/-! What the operations on a doubly linked list do to its nodes. -/
namespace RedisXSlot.AdList
variable {V : Type}

/-! ### Operations -/

section Operations
variable {l : AdList V} {xs pre suf : List (Nat × V)} {x : Nat} {val : V}

theorem linkNext_spec {u : Option Nat} (hu : ∀ p, u = some p → ∃ w, l.shape.vals p = some w) (v : Option Nat) :
    ∃ l', l.linkNext u v = some l' ∧ l'.shape = { l.shape with next := Function.update l.shape.next u v } ∧
      l'.len = l.len ∧ l'.made = l.made := by
  cases u with
  | none => exact ⟨_, rfl, shape_head l v, rfl, rfl⟩
  | some p =>
    obtain ⟨w, hw⟩ := hu p rfl
    exact setNext_spec hw v

theorem linkPrev_spec {v : Option Nat} (hv : ∀ q, v = some q → ∃ w, l.shape.vals q = some w) (u : Option Nat) :
    ∃ l', l.linkPrev v u = some l' ∧ l'.shape = { l.shape with prev := Function.update l.shape.prev v u } ∧
      l'.len = l.len ∧ l'.made = l.made := by
  cases v with
  | none => exact ⟨_, rfl, shape_tail l u, rfl, rfl⟩
  | some q =>
    obtain ⟨w, hw⟩ := hv q rfl
    exact setPrev_spec hw u

theorem shape_alloc (l : AdList V) (n : ListNode V) : (l.alloc n).shape =
    ⟨Function.update l.shape.next (some l.made) n.next, Function.update l.shape.prev (some l.made) n.prev,
      Function.update l.shape.vals l.made (some n.value)⟩ := shape_node l l.made (some n)

theorem Represents.fresh (h : l.Represents xs) : l.made ∉ xs.map Prod.fst := fun hin => Nat.lt_irrefl _ (h.made _ hin)

/-- What holds of the neighbours of a place. -/
theorem Shape.Holds.live_getLast {s : Shape V} (h : s.Holds (pre ++ suf)) :
    ∀ p, (pre.map Prod.fst).getLast? = some p → ∃ w, s.vals p = some w := by
  intro p hp
  apply h.isSome
  rw [List.map_append]
  exact List.mem_append_left _ (List.mem_of_getLast? hp)

theorem Shape.Holds.live_head {s : Shape V} (h : s.Holds (pre ++ suf)) :
    ∀ q, (suf.map Prod.fst).head? = some q → ∃ w, s.vals q = some w := by
  intro q hq
  apply h.isSome
  rw [List.map_append]
  exact List.mem_append_right _ (List.mem_of_mem_head? hq)

/-- A list with a node put in is the list with the node. -/
theorem Represents.of_put {l' : AdList V} (h : l.Represents (pre ++ suf)) {val : V}
    (hshape : l'.shape = l.shape.put (pre.map Prod.fst).getLast? (suf.map Prod.fst).head? l.made val)
    (hlen : l'.len = l.len + 1) (hmade : l'.made = l.made + 1) : l'.Represents (pre ++ (l.made, val) :: suf) := by
  refine ⟨?_, ?_, ?_⟩
  · rw [hshape]
    exact h.holds.put pre suf h.fresh val
  · rw [hlen, h.len, List.length_append, List.length_append, List.length_cons]
    rfl
  · intro y hy
    rw [List.map_append, List.map_cons, List.mem_append, List.mem_cons] at hy
    have hmade' := h.made y
    rw [List.map_append, List.mem_append] at hmade'
    rw [hmade]
    by_cases hym : y = l.made
    · omega
    · have hlt := hmade' (by tauto)
      omega

/-- **Deleting a node.** -/
theorem delNode_spec (h : l.Represents (pre ++ (x, val) :: suf)) : ∃ l', l.delNode x = some l' ∧ l'.Represents (pre ++ suf) := by
  obtain ⟨hnext, hprev⟩ := h.holds.neighbours
  have hx : l.shape.vals x = some val := (h.holds.vals x val).mpr (by simp)
  have hnode := exists_node hx
  rw [hnext, hprev] at hnode
  have hd := h.holds.nodup
  rw [List.map_append, List.map_cons, List.nodup_middle, List.nodup_cons, List.mem_append, not_or] at hd
  have hux : (pre.map Prod.fst).getLast? ≠ some x := fun he => hd.1.1 (List.mem_of_getLast? he)
  have hvx : (suf.map Prod.fst).head? ≠ some x := fun he => hd.1.2 (List.mem_of_mem_head? he)
  obtain ⟨l₁, h₁, hshape₁, hlen₁, hmade₁⟩ := linkNext_spec (v := (suf.map Prod.fst).head?) h.holds.live_getLast
  have hx₁ : l₁.shape.vals x = some val := by rw [hshape₁]; exact hx
  have hnode₁ := exists_node hx₁
  have hsame : l₁.shape.next (some x) = (suf.map Prod.fst).head? ∧ l₁.shape.prev (some x) = (pre.map Prod.fst).getLast? := by
    rw [hshape₁]
    exact ⟨(Function.update_of_ne hux.symm ..).trans hnext, hprev⟩
  rw [hsame.1, hsame.2] at hnode₁
  have hlive : ∀ q, (suf.map Prod.fst).head? = some q → ∃ w, l₁.shape.vals q = some w := by
    rw [hshape₁]
    intro q hq
    apply h.holds.isSome
    rw [List.map_append, List.map_cons]
    exact List.mem_append_right _ (List.mem_cons_of_mem _ (List.mem_of_mem_head? hq))
  obtain ⟨l₂, h₂, hshape₂, hlen₂, hmade₂⟩ := linkPrev_spec hlive (pre.map Prod.fst).getLast?
  refine ⟨{ l₂.free x with len := l₂.len - 1 }, ?_, ?_, ?_, ?_⟩
  · simp only [delNode, hnode, hnode₁, h₁, h₂, Option.bind_eq_bind, Option.bind_some, Option.pure_def]
  · have hshape : shape { l₂.free x with len := l₂.len - 1 } =
        l.shape.cut (pre.map Prod.fst).getLast? (suf.map Prod.fst).head? x := by
      have hfree := shape_node l₂ x none
      rw [hshape₂, hshape₁] at hfree
      exact hfree
    rw [hshape]
    exact h.holds.cut
  · show l₂.len - 1 = _
    rw [hlen₂, hlen₁, h.len, List.length_append, List.length_cons, List.length_append]
    rfl
  · intro y hy
    show y < l₂.made
    rw [hmade₂, hmade₁]
    apply h.made
    rw [List.map_append, List.mem_append] at hy
    rw [List.map_append, List.map_cons, List.mem_append, List.mem_cons]
    tauto

/-- A new node between `u` and `v`, which adding and inserting come to. -/
def putBetween (l : AdList V) (u v : Option Nat) (value : V) : Option (AdList V) := do
  let l₁ ← (l.alloc ⟨u, v, value⟩).linkNext u (some l.made)
  let l₂ ← l₁.linkPrev v (some l.made)
  return { l₂ with len := l₂.len + 1 }

theorem putBetween_spec (pre suf : List (Nat × V)) (h : l.Represents (pre ++ suf)) (value : V) :
    ∃ l', l.putBetween (pre.map Prod.fst).getLast? (suf.map Prod.fst).head? value = some l' ∧
      l'.Represents (pre ++ (l.made, value) :: suf) := by
  have hfresh := h.fresh
  rw [List.map_append, List.mem_append, not_or] at hfresh
  have hu : (pre.map Prod.fst).getLast? ≠ some l.made := fun he => hfresh.1 (List.mem_of_getLast? he)
  have hlive : ∀ p w, l.shape.vals p = some w → ∃ w, Function.update l.shape.vals l.made (some value) p = some w := by
    intro p w hw
    by_cases hp : p = l.made
    · exact ⟨value, by rw [hp, Function.update_self]⟩
    · exact ⟨w, by rw [Function.update_of_ne hp]; exact hw⟩
  have hshape₀ := shape_alloc l ⟨(pre.map Prod.fst).getLast?, (suf.map Prod.fst).head?, value⟩
  have hlive₀ : ∀ p, (pre.map Prod.fst).getLast? = some p →
      ∃ w, (l.alloc ⟨(pre.map Prod.fst).getLast?, (suf.map Prod.fst).head?, value⟩).shape.vals p = some w := by
    intro p hp
    obtain ⟨w, hw⟩ := h.holds.live_getLast p hp
    rw [hshape₀]
    exact hlive p w hw
  obtain ⟨l₁, h₁, hshape₁, hlen₁, hmade₁⟩ := linkNext_spec hlive₀ (some l.made)
  have hlive₁ : ∀ q, (suf.map Prod.fst).head? = some q → ∃ w, l₁.shape.vals q = some w := by
    intro q hq
    obtain ⟨w, hw⟩ := h.holds.live_head q hq
    rw [hshape₁, hshape₀]
    exact hlive q w hw
  obtain ⟨l₂, h₂, hshape₂, hlen₂, hmade₂⟩ := linkPrev_spec hlive₁ (some l.made)
  refine ⟨{ l₂ with len := l₂.len + 1 }, ?_, ?_⟩
  · simp only [putBetween, h₁, h₂, Option.bind_eq_bind, Option.bind_some, Option.pure_def]
  · refine h.of_put ?_ (congrArg (· + 1) (hlen₂.trans hlen₁)) (hmade₂.trans hmade₁)
    rw [hshape₁, hshape₀] at hshape₂
    refine Eq.trans hshape₂ ?_
    unfold Shape.put
    rw [Function.update_comm hu]

theorem addNodeHead_eq (h : l.Represents xs) (value : V) :
    l.addNodeHead value = l.putBetween none (xs.map Prod.fst).head? value := by
  have hhead : l.head = (xs.map Prod.fst).head? := h.holds.ends.1
  have hlen := h.len
  cases xs with
  | nil => simp [addNodeHead, putBetween, linkNext, linkPrev, alloc, hlen]
  | cons e xs =>
    rw [List.length_cons] at hlen
    have hne : l.len ≠ 0 := by omega
    rw [List.map_cons, List.head?_cons] at hhead
    simp only [addNodeHead, putBetween, linkNext, linkPrev, setPrev, if_neg hne, hhead, List.map_cons, List.head?_cons,
      Option.bind_eq_bind, Option.bind_some, Option.pure_def]
    cases hn : (l.alloc ⟨none, some e.1, value⟩).node e.1 <;> rfl

theorem addNodeHead_spec (h : l.Represents xs) (value : V) :
    ∃ l', l.addNodeHead value = some l' ∧ l'.Represents ((l.made, value) :: xs) := by
  rw [addNodeHead_eq h]
  exact putBetween_spec [] xs h value

theorem addNodeTail_eq (h : l.Represents xs) (value : V) :
    l.addNodeTail value = l.putBetween (xs.map Prod.fst).getLast? none value := by
  have htail : l.tail = (xs.map Prod.fst).getLast? := h.holds.ends.2
  have hlen := h.len
  cases xs using List.reverseRecOn with
  | nil => simp [addNodeTail, putBetween, linkNext, linkPrev, alloc, hlen]
  | append_singleton xs e =>
    rw [List.length_append, List.length_singleton] at hlen
    have hne : l.len ≠ 0 := by omega
    rw [List.map_append, List.map_singleton, List.getLast?_concat] at htail
    simp only [addNodeTail, putBetween, linkNext, linkPrev, setNext, if_neg hne, htail, List.map_append, List.map_singleton,
      List.getLast?_concat, Option.bind_eq_bind, Option.bind_some, Option.pure_def]

theorem addNodeTail_spec (h : l.Represents xs) (value : V) :
    ∃ l', l.addNodeTail value = some l' ∧ l'.Represents (xs ++ [(l.made, value)]) := by
  rw [addNodeTail_eq h]
  rw [← List.append_nil xs] at h
  exact putBetween_spec xs [] h value

/-- The tail is the node that nothing follows. -/
theorem tail_iff (h : l.Represents (pre ++ (x, val) :: suf)) : l.tail = some x ↔ suf = [] := by
  have htail : l.tail = _ := h.holds.ends.2
  have hd := h.holds.nodup
  rw [List.map_append, List.map_cons, List.nodup_middle, List.nodup_cons, List.mem_append, not_or] at hd
  rw [htail, List.map_append, List.map_cons]
  constructor
  · intro heq
    cases suf using List.reverseRecOn with
    | nil => rfl
    | append_singleton suf e =>
      rw [List.map_append, List.map_singleton, ← List.cons_append, ← List.append_assoc, List.getLast?_concat] at heq
      exact absurd (by rw [← Option.some.inj heq]; simp) hd.1.2
  · rintro rfl
    simp

theorem head_iff (h : l.Represents (pre ++ (x, val) :: suf)) : l.head = some x ↔ pre = [] := by
  have hhead : l.head = _ := h.holds.ends.1
  have hd := h.holds.nodup
  rw [List.map_append, List.map_cons, List.nodup_middle, List.nodup_cons, List.mem_append, not_or] at hd
  rw [hhead, List.map_append, List.map_cons]
  constructor
  · intro heq
    cases pre with
    | nil => rfl
    | cons e pre =>
      rw [List.map_cons, List.cons_append, List.head?_cons] at heq
      exact absurd (by rw [← Option.some.inj heq]; simp) hd.1.1
  · rintro rfl
    simp

/-- **Inserting before or after a node.** -/
theorem insertNode_spec (h : l.Represents (pre ++ (x, val) :: suf)) (value : V) (after : Bool) :
    ∃ l', l.insertNode x value after = some l' ∧
      l'.Represents (if after then pre ++ (x, val) :: (l.made, value) :: suf else pre ++ (l.made, value) :: (x, val) :: suf) := by
  obtain ⟨hnext, hprev⟩ := h.holds.neighbours
  have hnode := exists_node ((h.holds.vals x val).mpr (by simp))
  rw [hnext, hprev] at hnode
  cases after with
  | true =>
    have htail := tail_iff h
    rw [show pre ++ (x, val) :: suf = (pre ++ [(x, val)]) ++ suf by simp] at h
    obtain ⟨l', hput, hl'⟩ := putBetween_spec _ _ h value
    rw [List.map_append, List.map_singleton, List.getLast?_concat] at hput
    refine ⟨l', ?_, by simpa using hl'⟩
    rw [← hput]
    cases suf with
    | nil =>
      have htail : (l.alloc ⟨some x, none, value⟩).tail = some x := htail.mpr rfl
      simp only [insertNode, putBetween, hnode, linkNext, linkPrev, setNext, htail, List.map_nil, List.head?_nil, if_true,
        Option.bind_eq_bind, Option.bind_some, Option.pure_def]
      cases hn : (l.alloc ⟨some x, none, value⟩).node x <;> rfl
    | cons e suf =>
      have htail : (l.alloc ⟨some x, some e.1, value⟩).tail ≠ some x := fun he => List.cons_ne_nil _ _ (htail.mp he)
      simp only [insertNode, putBetween, hnode, linkNext, linkPrev, if_neg htail, List.map_cons, List.head?_cons, if_true,
        Option.bind_eq_bind, Option.bind_some, Option.pure_def]
  | false =>
    have hhead := head_iff h
    obtain ⟨l', hput, hl'⟩ := putBetween_spec _ _ h value
    rw [List.map_cons, List.head?_cons] at hput
    refine ⟨l', ?_, hl'⟩
    rw [← hput]
    cases pre using List.reverseRecOn with
    | nil =>
      have hhead : (l.alloc ⟨none, some x, value⟩).head = some x := hhead.mpr rfl
      simp only [insertNode, putBetween, hnode, linkNext, linkPrev, setPrev, hhead, List.map_nil, List.getLast?_nil, if_true,
        Bool.false_eq_true, if_false, Option.bind_eq_bind, Option.bind_some, Option.pure_def]
    | append_singleton pre e =>
      have hhead : (l.alloc ⟨some e.1, some x, value⟩).head ≠ some x :=
        fun he => List.append_ne_nil_of_right_ne_nil _ (List.cons_ne_nil _ _) (hhead.mp he)
      simp only [insertNode, putBetween, hnode, linkNext, linkPrev, if_neg hhead, List.map_append, List.map_singleton,
        List.getLast?_concat, Bool.false_eq_true, if_false, Option.bind_eq_bind, Option.bind_some, Option.pure_def]

/-- A node taken out and put in front, as one change of the pointers. -/
theorem cut_put {s : Shape V} {p f : Nat} (hx : s.vals x = some val) (hf : f ≠ x) :
    (s.cut (some p) none x).put none (some f) x val =
      ⟨Function.update (Function.update (Function.update s.next (some p) none) (some x) (some f)) none (some x),
        Function.update (Function.update (Function.update s.prev none (some p)) (some f) (some x)) (some x) none, s.vals⟩ := by
  have hxf : some x ≠ some f := fun he => hf (Option.some.inj he).symm
  unfold Shape.put Shape.cut
  congr 1
  · rw [Function.update_comm (Option.some_ne_none x), Function.update_idem, Function.update_comm (Option.some_ne_none x)]
  · rw [Function.update_idem, Function.update_comm hxf]
  · rw [Function.update_idem, ← hx, Function.update_eq_self]

theorem rotate_last {p : Nat × V} (h : l.Represents (pre ++ [p] ++ [(x, val)])) :
    ∃ l', l.rotate = some l' ∧ l'.Represents ((x, val) :: (pre ++ [p])) := by
  obtain ⟨f, suf, hsuf⟩ : ∃ f suf, pre ++ [p] = f :: suf := List.exists_cons_of_ne_nil (by simp)
  obtain ⟨hnext, hprev⟩ := h.holds.neighbours
  rw [List.map_append, List.map_singleton, List.getLast?_concat] at hprev
  have hx : l.shape.vals x = some val := (h.holds.vals x val).mpr (by simp)
  have hp : l.shape.vals p.1 = some p.2 := (h.holds.vals p.1 p.2).mpr (by simp)
  have hf : l.shape.vals f.1 = some f.2 := (h.holds.vals f.1 f.2).mpr (by rw [hsuf]; simp)
  have hnode := exists_node hx
  rw [hnext, hprev] at hnode
  have hlen : ¬ l.len ≤ 1 := by
    rw [h.len]
    simp
  have hhead : l.head = some f.1 := by
    have hhead : l.head = _ := h.holds.ends.1
    rw [hhead, hsuf]
    rfl
  have htail : l.tail = some x := by
    have htail : l.tail = _ := h.holds.ends.2
    rw [htail, List.map_append, List.map_singleton, List.getLast?_concat]
  have hd := h.holds.nodup
  have hfx : f.1 ≠ x := by
    rw [hsuf] at hd
    intro he
    simp [he] at hd
  -- The writes, one after another.
  have hshape₀ := shape_tail l (some p.1)
  obtain ⟨l₁, h₁, hshape₁, hlen₁, hmade₁⟩ :=
    setNext_spec (l := { l with tail := some p.1 }) (x := p.1) (w := p.2) (by rw [hshape₀]; exact hp) none
  rw [hshape₀] at hshape₁
  have hhead₁ : l₁.head = some f.1 := by
    show l₁.shape.next none = _
    rw [hshape₁]
    show Function.update l.shape.next (some p.1) none none = _
    rw [Function.update_of_ne (Option.some_ne_none p.1).symm]
    exact hhead
  obtain ⟨l₂, h₂, hshape₂, hlen₂, hmade₂⟩ := setPrev_spec (l := l₁) (x := f.1) (w := f.2) (by rw [hshape₁]; exact hf) (some x)
  obtain ⟨l₃, h₃, hshape₃, hlen₃, hmade₃⟩ :=
    setPrev_spec (l := l₂) (x := x) (w := val) (by rw [hshape₂, hshape₁]; exact hx) none
  have hhead₃ : l₃.head = some f.1 := by
    show l₃.shape.next none = _
    rw [hshape₃, hshape₂]
    exact hhead₁
  obtain ⟨l₄, h₄, hshape₄, hlen₄, hmade₄⟩ :=
    setNext_spec (l := l₃) (x := x) (w := val) (by rw [hshape₃, hshape₂, hshape₁]; exact hx) l₃.head
  refine ⟨{ l₄ with head := some x }, ?_, ?_, ?_, ?_⟩
  · simp only [rotate, if_neg hlen, htail, hnode, h₁, hhead₁, h₂, h₃, h₄, Option.bind_eq_bind, Option.bind_some, Option.pure_def]
  · have hshape : shape { l₄ with head := some x } = (l.shape.cut (some p.1) none x).put none (some f.1) x val := by
      rw [cut_put hx hfx, shape_head, hshape₄, hshape₃, hshape₂, hshape₁, hhead₃]
    have hlast : ((pre ++ [p]).map Prod.fst).getLast? = some p.1 := by
      rw [List.map_append, List.map_singleton, List.getLast?_concat]
    have hcut := h.holds.cut
    rw [List.append_nil, hlast, hsuf] at hcut
    rw [hsuf, List.map_append, List.map_singleton, List.nodup_middle, List.nodup_cons, List.append_nil] at hd
    rw [hshape, hsuf]
    exact hcut.put [] (f :: suf) hd.1 val
  · show l₄.len = _
    rw [hlen₄, hlen₃, hlen₂, hlen₁]
    show l.len = _
    rw [h.len]
    simp
  · intro y hy
    show y < l₄.made
    rw [hmade₄, hmade₃, hmade₂, hmade₁]
    apply h.made
    simp at hy ⊢
    tauto

/-- **Rotating** takes the tail out and puts it in front. -/
theorem rotate_spec (h : l.Represents xs) : ∃ l', l.rotate = some l' ∧ l'.Represents (xs.getLast?.toList ++ xs.dropLast) := by
  cases xs using List.reverseRecOn with
  | nil =>
    have hlen := h.len
    rw [List.length_nil] at hlen
    refine ⟨l, ?_, h⟩
    unfold rotate
    rw [if_pos (by omega)]
    rfl
  | append_singleton pre e =>
    rw [List.getLast?_concat, List.dropLast_concat]
    cases pre using List.reverseRecOn with
    | nil =>
      have hlen := h.len
      refine ⟨l, ?_, h⟩
      unfold rotate
      rw [if_pos (by simpa using Nat.le_of_eq hlen)]
      rfl
    | append_singleton pre p =>
      exact rotate_last (by simpa using h)

/-! ### Finding nodes -/

/-- An index counted from the head, if there is a value at it. Those below 0 count from the tail. -/
def position (n : Nat) (index : Int) : Option Nat :=
  let i := if index < 0 then index + n else index
  if 0 ≤ i ∧ i < n then some i.toNat else none

theorem walk_next (i : Nat) : ∀ pre suf : List (Nat × V), l.shape.Holds (pre ++ suf) →
    l.walk ListNode.next i (suf.map Prod.fst).head? = some ((suf.map Prod.fst)[i]?) := by
  induction i with
  | zero =>
    intro pre suf h
    rw [List.head?_eq_getElem?]
    rfl
  | succ i ih =>
    intro pre suf h
    cases suf with
    | nil => rfl
    | cons e suf =>
      have hnode := exists_node ((h.vals e.1 e.2).mpr (by simp))
      rw [h.neighbours.1] at hnode
      rw [List.append_cons] at h
      rw [List.map_cons, List.head?_cons, walk, hnode]
      exact ih (pre ++ [e]) suf h

theorem walk_prev (i : Nat) : ∀ pre suf : List (Nat × V), l.shape.Holds (pre ++ suf) →
    l.walk ListNode.prev i (pre.map Prod.fst).getLast? = some ((pre.map Prod.fst).reverse[i]?) := by
  induction i with
  | zero =>
    intro pre suf h
    rw [← List.head?_eq_getElem?, List.head?_reverse]
    rfl
  | succ i ih =>
    intro pre suf h
    cases pre using List.reverseRecOn with
    | nil => rfl
    | append_singleton pre e =>
      rw [List.append_assoc, List.singleton_append] at h
      have hnode := exists_node ((h.vals e.1 e.2).mpr (by simp))
      rw [h.neighbours.2] at hnode
      rw [List.map_append, List.map_singleton, List.getLast?_concat, walk, hnode, List.reverse_concat]
      exact ih pre (e :: suf) h

theorem listIndex_spec (h : l.Represents xs) (index : Index) :
    l.listIndex index = some ((position xs.length index.val).bind fun i => (xs.map Prod.fst)[i]?) := by
  obtain ⟨index, -⟩ := index
  unfold listIndex position
  dsimp only
  by_cases hneg : index < 0
  · simp only [if_pos hneg]
    have htail : l.tail = _ := h.holds.ends.2
    have hwalk := walk_prev (l := l) (-index - 1).toNat xs [] (by rw [List.append_nil]; exact h.holds)
    rw [htail, hwalk]
    by_cases hi : 0 ≤ index + xs.length
    · rw [if_pos ⟨hi, by omega⟩, Option.bind_some, List.getElem?_reverse (by rw [List.length_map]; omega), List.length_map]
      congr 2
      omega
    · rw [if_neg (fun hn => hi hn.1), Option.bind_none, List.getElem?_eq_none]
      rw [List.length_reverse, List.length_map]
      omega
  · simp only [if_neg hneg]
    have hhead : l.head = _ := h.holds.ends.1
    have hwalk := walk_next index.toNat [] xs h.holds
    rw [hhead, hwalk]
    by_cases hi : index < xs.length
    · rw [if_pos ⟨by omega, hi⟩, Option.bind_some]
    · rw [if_neg (fun hn => hi hn.2), Option.bind_none, List.getElem?_eq_none]
      rw [List.length_map]
      omega

theorem nodeAt_spec (h : l.Represents xs) (index : Index) :
    l.nodeAt index = some ((position xs.length index.val).bind fun i => xs[i]?) := by
  unfold nodeAt
  rw [listIndex_spec h]
  cases hp : position xs.length index.val with
  | none => rfl
  | some i =>
    rw [Option.bind_some, Option.bind_some, List.getElem?_map]
    cases hi : xs[i]? with
    | none => rfl
    | some e =>
      have hnode := exists_node ((h.holds.vals e.1 e.2).mpr (List.mem_of_getElem? hi))
      simp only [Option.map_some, Option.bind_eq_bind, Option.bind_some, hnode]
      rfl

theorem searchFrom_spec [DecidableEq V] (key : V) : ∀ (fuel : Nat) (pre suf : List (Nat × V)), l.shape.Holds (pre ++ suf) →
    suf.length ≤ fuel → l.searchFrom key fuel (suf.map Prod.fst).head? = some ((suf.find? fun e => key = e.2).map Prod.fst) := by
  intro fuel pre suf h hfuel
  induction suf generalizing pre fuel with
  | nil =>
    cases fuel <;> rfl
  | cons e suf ih =>
    rw [List.length_cons] at hfuel
    obtain ⟨fuel, rfl⟩ : ∃ k, fuel = k + 1 := ⟨fuel - 1, by omega⟩
    have hnode := exists_node ((h.vals e.1 e.2).mpr (by simp))
    rw [h.neighbours.1] at hnode
    rw [List.map_cons, List.head?_cons, searchFrom, hnode, List.find?_cons]
    by_cases hkey : key = e.2
    · simp [hkey]
    · rw [List.append_cons] at h
      simp only [Option.bind_eq_bind, Option.bind_some, hkey, decide_false]
      exact ih fuel (pre ++ [e]) h (by omega)

/-! ### Going over the list -/

theorem iterate_next (del : V → Bool) : ∀ (fuel : Nat) (l : AdList V) (pre suf : List (Nat × V)), l.Represents (pre ++ suf) →
    suf.length ≤ fuel → ∃ l', iterate false del fuel (suf.map Prod.fst).head? l = some (l', suf.map Prod.snd) ∧
      l'.Represents (pre ++ suf.filter fun e => !del e.2) := by
  intro fuel l pre suf h hfuel
  induction suf generalizing pre fuel l with
  | nil =>
    refine ⟨l, ?_, h⟩
    cases fuel <;> rfl
  | cons e suf ih =>
    rw [List.length_cons] at hfuel
    obtain ⟨fuel, rfl⟩ : ∃ k, fuel = k + 1 := ⟨fuel - 1, by omega⟩
    have hnode := exists_node ((h.holds.vals e.1 e.2).mpr (by simp))
    rw [h.holds.neighbours.1] at hnode
    rw [List.map_cons, List.head?_cons, iterate, hnode]
    cases hdel : del e.2 with
    | true =>
      obtain ⟨l₁, h₁, hl₁⟩ := delNode_spec h
      obtain ⟨l', hl', hrep⟩ := ih fuel l₁ pre hl₁ (by omega)
      refine ⟨l', ?_, ?_⟩
      · simp only [hdel, h₁, hl', if_true, Bool.false_eq_true, if_false, Option.bind_eq_bind, Option.bind_some, Option.pure_def,
          List.map_cons]
      · simpa [hdel] using hrep
    | false =>
      rw [List.append_cons] at h
      obtain ⟨l', hl', hrep⟩ := ih fuel l (pre ++ [e]) h (by omega)
      refine ⟨l', ?_, ?_⟩
      · simp only [hdel, hl', Bool.false_eq_true, if_false, Option.bind_eq_bind, Option.bind_some, Option.pure_def,
          List.map_cons]
      · simpa [hdel] using hrep

theorem iterate_prev (del : V → Bool) : ∀ (fuel : Nat) (l : AdList V) (pre suf : List (Nat × V)), l.Represents (pre ++ suf) →
    pre.length ≤ fuel → ∃ l', iterate true del fuel (pre.map Prod.fst).getLast? l = some (l', (pre.map Prod.snd).reverse) ∧
      l'.Represents ((pre.filter fun e => !del e.2) ++ suf) := by
  intro fuel l pre suf h hfuel
  induction pre using List.reverseRecOn generalizing suf fuel l with
  | nil =>
    refine ⟨l, ?_, h⟩
    cases fuel <;> rfl
  | append_singleton pre e ih =>
    rw [List.length_append, List.length_singleton] at hfuel
    obtain ⟨fuel, rfl⟩ : ∃ k, fuel = k + 1 := ⟨fuel - 1, by omega⟩
    rw [List.append_assoc, List.singleton_append] at h
    have hnode := exists_node ((h.holds.vals e.1 e.2).mpr (by simp))
    rw [h.holds.neighbours.2] at hnode
    rw [List.map_append, List.map_singleton, List.getLast?_concat, iterate, hnode]
    cases hdel : del e.2 with
    | true =>
      obtain ⟨l₁, h₁, hl₁⟩ := delNode_spec h
      obtain ⟨l', hl', hrep⟩ := ih fuel l₁ suf hl₁ (by omega)
      refine ⟨l', ?_, ?_⟩
      · simp only [hdel, h₁, hl', if_true, Option.bind_eq_bind, Option.bind_some, Option.pure_def, List.map_append,
          List.map_singleton, List.reverse_concat]
      · simpa [hdel] using hrep
    | false =>
      obtain ⟨l', hl', hrep⟩ := ih fuel l (e :: suf) h (by omega)
      refine ⟨l', ?_, ?_⟩
      · simp only [hdel, hl', if_true, Bool.false_eq_true, if_false, Option.bind_eq_bind, Option.bind_some, Option.pure_def,
          List.map_append, List.map_singleton, List.reverse_concat]
      · simpa [hdel] using hrep

/-- The nodes that are yet to be freed, of which each points to the next one. -/
def Trail (l : AdList V) : List (Nat × V) → Prop
  | [] => True
  | e :: suf => (∃ p, l.node e.1 = some ⟨p, (suf.map Prod.fst).head?, e.2⟩) ∧ l.Trail suf

theorem Shape.Holds.trail (pre suf : List (Nat × V)) (h : l.shape.Holds (pre ++ suf)) : l.Trail suf := by
  induction suf generalizing pre with
  | nil => trivial
  | cons e suf ih =>
    have hnode := exists_node ((h.vals e.1 e.2).mpr (by simp))
    rw [h.neighbours.1] at hnode
    rw [List.append_cons] at h
    exact ⟨⟨_, hnode⟩, ih (pre ++ [e]) h⟩

theorem Trail.free (h : l.Trail suf) (hx : x ∉ suf.map Prod.fst) : (l.free x).Trail suf := by
  induction suf with
  | nil => trivial
  | cons e suf ih =>
    rw [List.map_cons, List.mem_cons, not_or] at hx
    obtain ⟨⟨p, hp⟩, hsuf⟩ := h
    exact ⟨⟨p, (Function.update_of_ne (Ne.symm hx.1) ..).trans hp⟩, ih hsuf hx.2⟩

theorem freeFrom_spec : ∀ {suf : List (Nat × V)} {l : AdList V}, l.Trail suf → (suf.map Prod.fst).Nodup →
    ∃ l', freeFrom suf.length (suf.map Prod.fst).head? l = some l' ∧ l'.made = l.made ∧
      ∀ y, l'.node y = if y ∈ suf.map Prod.fst then none else l.node y := by
  intro suf
  induction suf with
  | nil =>
    intro l _ _
    exact ⟨l, rfl, rfl, fun y => rfl⟩
  | cons e suf ih =>
    intro l h hd
    obtain ⟨⟨p, hp⟩, hsuf⟩ := h
    rw [List.map_cons, List.nodup_cons] at hd
    obtain ⟨l', hl', hmade, hnode⟩ := ih (hsuf.free hd.1) hd.2
    refine ⟨l', ?_, hmade, fun y => ?_⟩
    · simp only [List.length_cons, List.map_cons, List.head?_cons, freeFrom, Option.bind_eq_bind, Option.bind_some, hp]
      exact hl'
    · rw [hnode, List.map_cons]
      show (if _ then none else Function.update l.node e.1 none y) = _
      by_cases hy : y = e.1
      · simp [hy]
      · simp only [List.mem_cons, hy, false_or, ne_eq, not_false_eq_true, Function.update_of_ne]

theorem empty_spec (h : l.Represents xs) : ∃ l', l.empty = some l' ∧ l'.Represents [] := by
  obtain ⟨l', hl', -, hnode⟩ := freeFrom_spec (h.holds.trail [] xs) h.holds.nodup
  have hhead : l.head = _ := h.holds.ends.1
  have hnone : ∀ y, l'.node y = none := by
    intro y
    rw [hnode]
    by_cases hy : y ∈ xs.map Prod.fst
    · rw [if_pos hy]
    · rw [if_neg hy]
      cases hn : l.node y with
      | none => rfl
      | some n =>
        have hval : l.shape.vals y = some n.value := by
          show (l.node y).map _ = _
          rw [hn]
          rfl
        exact absurd (List.mem_map_of_mem ((h.holds.vals _ _).mp hval)) hy
  refine ⟨{ l' with head := none, tail := none, len := 0 }, ?_, ⟨?_, List.nodup_nil, ?_⟩, rfl, ?_⟩
  · unfold empty
    rw [h.len, hhead, hl']
    rfl
  · exact List.isChain_cons_cons.mpr ⟨⟨rfl, rfl⟩, List.isChain_singleton _⟩
  · intro y w
    show (l'.node y).map _ = some w ↔ _
    rw [hnone]
    simp
  · simp

end Operations

end RedisXSlot.AdList
