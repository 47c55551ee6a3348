import RedisXSlot.AdList
import RedisXSlot.Lib.Ring
import Mathlib.Data.List.Nodup

/-! A doubly linked list is a ring.

With the head and the tail of the list as the pointers of a header, `none`, every operation
links nodes in a ring, and the pointers it writes are those of one or two steps of `Ring`. -/
namespace RedisXSlot.AdList
variable {V : Type}

/-! ### The pointers -/

/-- The pointers of a list, those of the header included, and the values. -/
structure Shape (V : Type) where
  next : Option Nat → Option Nat
  prev : Option Nat → Option Nat
  vals : Nat → Option V

/-- Where a node points to; the header points to an end of the list. -/
def follow (header : Option Nat) (node : Nat → Option (ListNode V)) (f : ListNode V → Option Nat) : Option Nat → Option Nat
  | none => header
  | some x => (node x).bind f

def shape (l : AdList V) : Shape V :=
  ⟨follow l.head l.node ListNode.next, follow l.tail l.node ListNode.prev, fun x => (l.node x).map ListNode.value⟩

section Writes
variable {l : AdList V} {x : Nat} {u v : Option Nat}

theorem follow_header (header : Option Nat) (node : Nat → Option (ListNode V)) (f : ListNode V → Option Nat) (v : Option Nat) :
    follow v node f = Function.update (follow header node f) none v := by
  funext y
  cases y with
  | none =>
    rw [Function.update_self]
    rfl
  | some y =>
    rw [Function.update_of_ne (by simp)]
    rfl

theorem follow_update (header : Option Nat) (node : Nat → Option (ListNode V)) (f : ListNode V → Option Nat) (x : Nat)
    (n : Option (ListNode V)) :
    follow header (Function.update node x n) f = Function.update (follow header node f) (some x) (n.bind f) := by
  funext y
  cases y with
  | none =>
    rw [Function.update_of_ne (by simp)]
    rfl
  | some y =>
    show (Function.update node x n y).bind f = _
    by_cases hy : y = x
    · rw [hy, Function.update_self, Function.update_self]
    · rw [Function.update_of_ne hy, Function.update_of_ne (by simpa using hy)]
      rfl

theorem shape_head (l : AdList V) (v : Option Nat) :
    shape { l with head := v } = { l.shape with next := Function.update l.shape.next none v } := by
  unfold shape
  rw [← follow_header]

theorem shape_tail (l : AdList V) (v : Option Nat) :
    shape { l with tail := v } = { l.shape with prev := Function.update l.shape.prev none v } := by
  unfold shape
  rw [← follow_header]

/-- Writing a node writes its pointers and its value. -/
theorem shape_node (l : AdList V) (x : Nat) (n : Option (ListNode V)) : shape { l with node := Function.update l.node x n } =
    ⟨Function.update l.shape.next (some x) (n.bind ListNode.next), Function.update l.shape.prev (some x) (n.bind ListNode.prev),
      Function.update l.shape.vals x (n.map ListNode.value)⟩ := by
  unfold shape
  rw [follow_update, follow_update]
  congr 1
  funext y
  show (Function.update l.node x n y).map _ = _
  by_cases hy : y = x
  · rw [hy, Function.update_self, Function.update_self]
  · rw [Function.update_of_ne hy, Function.update_of_ne hy]

/-- A node that is there, from its pointers and its value. -/
theorem exists_node {w : V} (hx : l.shape.vals x = some w) :
    l.node x = some ⟨l.shape.prev (some x), l.shape.next (some x), w⟩ := by
  obtain ⟨n, hn, hw⟩ := Option.map_eq_some_iff.mp hx
  show l.node x = some ⟨(l.node x).bind _, (l.node x).bind _, w⟩
  rw [hn, ← hw]
  rfl

theorem setNext_spec {w : V} (hx : l.shape.vals x = some w) (v : Option Nat) :
    ∃ l', l.setNext x v = some l' ∧ l'.shape = { l.shape with next := Function.update l.shape.next (some x) v } ∧
      l'.len = l.len ∧ l'.made = l.made := by
  have hn := exists_node hx
  have heq : l.setNext x v = some { l with node := Function.update l.node x (some ⟨l.shape.prev (some x), v, w⟩) } := by
    unfold setNext
    rw [hn]
    rfl
  refine ⟨_, heq, ?_, rfl, rfl⟩
  rw [shape_node]
  simp only [Option.bind_some, Option.map_some, Function.update_eq_self]
  rw [← hx, Function.update_eq_self]

theorem setPrev_spec {w : V} (hx : l.shape.vals x = some w) (v : Option Nat) :
    ∃ l', l.setPrev x v = some l' ∧ l'.shape = { l.shape with prev := Function.update l.shape.prev (some x) v } ∧
      l'.len = l.len ∧ l'.made = l.made := by
  have hn := exists_node hx
  have heq : l.setPrev x v = some { l with node := Function.update l.node x (some ⟨v, l.shape.next (some x), w⟩) } := by
    unfold setPrev
    rw [hn]
    rfl
  refine ⟨_, heq, ?_, rfl, rfl⟩
  rw [shape_node]
  simp only [Option.bind_some, Option.map_some, Function.update_eq_self]
  rw [← hx, Function.update_eq_self]

end Writes

/-! ### Sequences -/

/-- The ring of the nodes `ids`, from the header to the header. -/
def ring (ids : List Nat) : List (Option Nat) := none :: (ids.map some ++ [none])

/-- A place in a ring: it is between two neighbours, and what is put there comes between them. -/
theorem exists_place (pre suf : List Nat) : ∃ a b, ring (pre ++ suf) = a ++ pre.getLast? :: suf.head? :: b ∧
    ∀ x, ring (pre ++ x :: suf) = a ++ pre.getLast? :: some x :: suf.head? :: b := by
  have hbehind : ∃ b, suf.map some ++ [none] = suf.head? :: b := by
    cases suf with
    | nil => exact ⟨[], rfl⟩
    | cons y suf => exact ⟨_, rfl⟩
  have hbefore : ∃ a, none :: pre.map some = a ++ [pre.getLast?] := by
    cases pre using List.reverseRecOn with
    | nil => exact ⟨[], rfl⟩
    | append_singleton pre y =>
      refine ⟨none :: pre.map some, ?_⟩
      rw [List.map_append, List.getLast?_concat]
      rfl
  obtain ⟨b, hb⟩ := hbehind
  obtain ⟨a, ha⟩ := hbefore
  refine ⟨a, b, ?_, fun x => ?_⟩
  · unfold ring
    rw [List.map_append, List.append_assoc, hb, ← List.cons_append, ha, List.append_assoc]
    rfl
  · unfold ring
    rw [List.map_append, List.map_cons, List.append_assoc, List.cons_append, hb, ← List.cons_append, ha, List.append_assoc]
    rfl

/-- The nodes of a ring are told apart. -/
theorem apart_ring {ids : List Nat} (hd : ids.Nodup) {a b : List (Option Nat)} {u v : Option Nat}
    (h : ring ids = a ++ u :: v :: b) : Ring.Apart a u v b := by
  have hmap : (ids.map some).Nodup := List.Nodup.map (fun _ _ h => Option.some.inj h) hd
  have hnone : none ∉ ids.map some := by simp
  have hfirst : (ring ids).dropLast.Nodup := by
    unfold ring
    rw [← List.cons_append, List.dropLast_concat]
    exact List.nodup_cons.mpr ⟨hnone, hmap⟩
  have hlast : (ring ids).tail.Nodup := by
    unfold ring
    rw [List.tail_cons]
    exact List.nodup_append.mpr ⟨hmap, by simp, by simp⟩
  rw [h] at hfirst hlast
  have hdrop : (a ++ u :: v :: b).dropLast = a ++ u :: (v :: b).dropLast := by
    rw [List.dropLast_append_of_ne_nil (by simp)]
    rfl
  have htail : (a ++ u :: v :: b).tail = (a ++ [u]).tail ++ v :: b := by
    cases a <;> simp
  rw [hdrop] at hfirst
  rw [htail] at hlast
  obtain ⟨-, hu, hau⟩ := List.nodup_append.mp hfirst
  obtain ⟨-, hv, hav⟩ := List.nodup_append.mp hlast
  refine ⟨?_, (List.nodup_cons.mp hu).1, ?_, (List.nodup_cons.mp hv).1⟩
  · exact fun hin => hau u hin u (List.mem_cons_self ..) rfl
  · exact fun hin => hav v hin v (List.mem_cons_self ..) rfl

/-- A place in a ring that a node is put in or taken out of. -/
theorem exists_gap {pre suf : List Nat} {x : Nat} (hd : (pre ++ suf).Nodup) (hx : x ∉ pre ++ suf) :
    ∃ a b, ring (pre ++ suf) = a ++ pre.getLast? :: suf.head? :: b ∧
      ring (pre ++ x :: suf) = a ++ pre.getLast? :: some x :: suf.head? :: b ∧
      Ring.Apart a pre.getLast? suf.head? b ∧ some x ∉ ring (pre ++ suf) := by
  obtain ⟨a, b, hring, hmore⟩ := exists_place pre suf
  refine ⟨a, b, hring, hmore x, apart_ring hd hring, ?_⟩
  unfold ring
  rw [List.mem_cons, List.mem_append]
  simpa using hx

theorem not_mem_of_key {xs : List (Nat × V)} {x : Nat} (hx : x ∉ xs.map Prod.fst) (w : V) : (x, w) ∉ xs :=
  fun hin => hx (List.mem_map_of_mem hin)

/-- The pointers and the values are those of the nodes `xs`, and no node is left over. -/
structure Shape.Holds (s : Shape V) (xs : List (Nat × V)) : Prop where
  chained : Ring.Chained s.next s.prev (ring (xs.map Prod.fst))
  nodup : (xs.map Prod.fst).Nodup
  vals : ∀ x w, s.vals x = some w ↔ (x, w) ∈ xs

/-- A list has these nodes, with their values. -/
structure Represents (l : AdList V) (xs : List (Nat × V)) : Prop where
  holds : l.shape.Holds xs
  len : l.len = xs.length
  made : ∀ x ∈ xs.map Prod.fst, x < l.made

/-- The shape with a node put in between `u` and `v`. -/
def Shape.put (s : Shape V) (u v : Option Nat) (x : Nat) (val : V) : Shape V :=
  ⟨Function.update (Function.update s.next u (some x)) (some x) v,
    Function.update (Function.update s.prev (some x) u) v (some x), Function.update s.vals x (some val)⟩

/-- The shape with a node taken out from between `u` and `v`. -/
def Shape.cut (s : Shape V) (u v : Option Nat) (x : Nat) : Shape V :=
  ⟨Function.update (Function.update s.next u v) (some x) none, Function.update (Function.update s.prev v u) (some x) none,
    Function.update s.vals x none⟩

namespace Shape.Holds
variable {s : Shape V} {xs pre suf : List (Nat × V)} {x : Nat} {val : V}

theorem isSome (h : s.Holds xs) (hx : x ∈ xs.map Prod.fst) : ∃ w, s.vals x = some w := by
  obtain ⟨e, he, rfl⟩ := List.mem_map.mp hx
  exact ⟨e.2, (h.vals e.1 e.2).mpr he⟩

/-- The header points to the ends. -/
theorem ends (h : s.Holds xs) : s.next none = (xs.map Prod.fst).head? ∧ s.prev none = (xs.map Prod.fst).getLast? := by
  have hc := h.chained
  constructor
  · obtain ⟨a, b, hring, -⟩ := exists_place [] (xs.map Prod.fst)
    rw [List.nil_append] at hring
    rw [hring] at hc
    exact (Ring.chained_split.mp hc).2.1.1
  · obtain ⟨a, b, hring, -⟩ := exists_place (xs.map Prod.fst) []
    rw [List.append_nil] at hring
    rw [hring] at hc
    exact (Ring.chained_split.mp hc).2.1.2

/-- A node points to its neighbours. -/
theorem neighbours (h : s.Holds (pre ++ (x, val) :: suf)) :
    s.next (some x) = (suf.map Prod.fst).head? ∧ s.prev (some x) = (pre.map Prod.fst).getLast? := by
  have hc := h.chained
  obtain ⟨a, b, -, hring⟩ := exists_place (pre.map Prod.fst) (suf.map Prod.fst)
  rw [List.map_append, List.map_cons, hring] at hc
  obtain ⟨-, hux, hc⟩ := Ring.chained_split.mp hc
  exact ⟨(List.isChain_cons_cons.mp hc).1.1, hux.2⟩

/-- **A node is put in** between two neighbours. -/
theorem put (pre suf : List (Nat × V)) (h : s.Holds (pre ++ suf)) (hx : x ∉ (pre ++ suf).map Prod.fst) (val : V) :
    (s.put (pre.map Prod.fst).getLast? (suf.map Prod.fst).head? x val).Holds (pre ++ (x, val) :: suf) := by
  have hc := h.chained
  have hd := h.nodup
  have hfresh := not_mem_of_key hx
  rw [List.map_append] at hc hd hx
  obtain ⟨a, b, hring, hmore, hapart, hout⟩ := exists_gap hd hx
  refine ⟨?_, ?_, ?_⟩
  · rw [hring] at hc hout
    rw [List.map_append, List.map_cons, hmore]
    exact hc.insert hapart hout
  · rw [List.map_append, List.map_cons]
    exact List.nodup_middle.mpr (List.nodup_cons.mpr ⟨hx, hd⟩)
  · intro y w
    show Function.update s.vals x (some val) y = some w ↔ _
    rw [List.mem_append, List.mem_cons]
    by_cases hy : y = x
    · have hw := hfresh w
      rw [List.mem_append, not_or] at hw
      rw [hy, Function.update_self]
      simp [hw.1, hw.2, eq_comm]
    · rw [Function.update_of_ne hy, h.vals, List.mem_append]
      simp [hy]

/-- **A node is taken out.** -/
theorem cut (h : s.Holds (pre ++ (x, val) :: suf)) :
    (s.cut (pre.map Prod.fst).getLast? (suf.map Prod.fst).head? x).Holds (pre ++ suf) := by
  have hc := h.chained
  have hd := h.nodup
  rw [List.map_append, List.map_cons] at hc hd
  obtain ⟨hx, hd⟩ := List.nodup_cons.mp (List.nodup_middle.mp hd)
  obtain ⟨a, b, hring, hmore, hapart, hout⟩ := exists_gap hd hx
  rw [← List.map_append] at hx hd
  refine ⟨?_, hd, ?_⟩
  · rw [hmore] at hc
    have hremoved := hc.remove hapart
    rw [← hring] at hremoved
    rw [List.map_append]
    apply hremoved.congr
    · intro y hy
      exact Function.update_of_ne (ne_of_mem_of_not_mem (List.dropLast_subset _ hy) hout) ..
    · intro y hy
      exact Function.update_of_ne (ne_of_mem_of_not_mem (List.mem_of_mem_tail hy) hout) ..
  · intro y w
    show Function.update s.vals x none y = some w ↔ _
    by_cases hy : y = x
    · rw [hy, Function.update_self]
      simp [not_mem_of_key hx w]
    · rw [Function.update_of_ne hy, h.vals, List.mem_append, List.mem_append, List.mem_cons]
      simp [hy]

end Shape.Holds

end RedisXSlot.AdList
