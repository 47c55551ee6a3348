import RedisXSlot.AdListProofs

/-! A doubly linked list is a sequence.

The commands collect keys in such a list and take them from its head, which is to delete the
node at index 0; their models have the sequence in its place. -/
namespace RedisXSlot.AdList
variable {V : Type}

section Sequence
variable [DecidableEq V]

/-- What an operation does to the sequence of the values. -/
def seqPerform (vs : List V) : Op V → List V × Result V
  | .addNodeHead value => (value :: vs, .done)
  | .addNodeTail value => (vs ++ [value], .done)
  | .insertNode index value after =>
    match position vs.length index.val with
    | some i => (vs.insertIdx (if after then i + 1 else i) value, .value vs[i]?)
    | none => (vs, .value none)
  | .delNode index =>
    match position vs.length index.val with
    | some i => (vs.eraseIdx i, .value vs[i]?)
    | none => (vs, .value none)
  | .delKey key => (vs.erase key, .value (if key ∈ vs then some key else none))
  | .rotate => (vs.getLast?.toList ++ vs.dropLast, .done)
  | .value index => (vs, .value ((position vs.length index.val).bind fun i => vs[i]?))
  | .length => (vs, .length vs.length)
  | .iterate fromTail del => (vs.filter fun v => !del v, .values (if fromTail then vs.reverse else vs))
  | .empty => ([], .done)

def seqRun (vs : List V) : List (Op V) → List V × List (Result V)
  | [] => (vs, [])
  | op :: ops =>
    let (vs, r) := seqPerform vs op
    let (vs, rs) := seqRun vs ops
    (vs, r :: rs)

end Sequence

section Runs
variable {l : AdList V} {xs : List (Nat × V)}

theorem position_lt {n i : Nat} {index : Int} (h : position n index = some i) : i < n := by
  simp only [position] at h
  split_ifs at h with hneg hi hi
  · have heq := Option.some.inj h
    omega
  · have heq := Option.some.inj h
    omega

theorem insertIdx_length_append (value : V) (vs ws : List V) : (vs ++ ws).insertIdx vs.length value = vs ++ value :: ws := by
  induction vs with
  | nil => rfl
  | cons v vs ih =>
    rw [List.cons_append, List.length_cons, List.insertIdx_succ_cons, ih]
    rfl

theorem exists_split {i : Nat} (h : i < xs.length) : ∃ pre e suf, xs = pre ++ e :: suf ∧ pre.length = i :=
  ⟨xs.take i, xs[i], xs.drop (i + 1), by simp, by rw [List.length_take]; omega⟩

/-- The node at the place that the index names. -/
theorem nodeAt_place {pre suf : List (Nat × V)} {e : Nat × V} {index : Index} (h : l.Represents (pre ++ e :: suf))
    (hp : position (pre ++ e :: suf).length index.val = some pre.length) : l.nodeAt index = some (some e) := by
  rw [nodeAt_spec h, hp, Option.bind_some, List.getElem?_append_right (Nat.le_refl _), Nat.sub_self, List.getElem?_cons_zero]

theorem represents_create : (create : AdList V).Represents [] := by
  refine ⟨⟨?_, List.nodup_nil, ?_⟩, rfl, by simp⟩
  · exact List.isChain_cons_cons.mpr ⟨⟨rfl, rfl⟩, List.isChain_singleton _⟩
  · intro x w
    simp [shape, create]

variable [DecidableEq V]

/-- An operation does to the nodes what it does to the sequence of their values. -/
def Follows (l : AdList V) (xs : List (Nat × V)) (op : Op V) : Prop :=
  ∃ l' ys, l.perform op = some (l', (seqPerform (xs.map Prod.snd) op).2) ∧ l'.Represents ys ∧
    ys.map Prod.snd = (seqPerform (xs.map Prod.snd) op).1

theorem follows_insertNode (h : l.Represents xs) (index : Index) (value : V) (after : Bool) :
    l.Follows xs (.insertNode index value after) := by
  simp only [Follows, perform, seqPerform, List.length_map]
  cases hp : position xs.length index.val with
  | none =>
    refine ⟨l, xs, ?_, h, rfl⟩
    simp only [nodeAt_spec h, hp, Option.bind_eq_bind, Option.bind_some, Option.bind_none, Option.pure_def]
  | some i =>
    obtain ⟨pre, e, suf, rfl, rfl⟩ := exists_split (position_lt hp)
    obtain ⟨l', hl', hrep⟩ := insertNode_spec h value after
    refine ⟨l', _, ?_, hrep, ?_⟩
    · simp [nodeAt_place h hp, hl']
    · cases after with
      | true =>
        have hins := insertIdx_length_append value ((pre ++ [e]).map Prod.snd) (suf.map Prod.snd)
        simpa using hins.symm
      | false =>
        have hins := insertIdx_length_append value (pre.map Prod.snd) ((e :: suf).map Prod.snd)
        simpa using hins.symm

theorem follows_delNode (h : l.Represents xs) (index : Index) : l.Follows xs (.delNode index) := by
  simp only [Follows, perform, seqPerform, List.length_map]
  cases hp : position xs.length index.val with
  | none =>
    refine ⟨l, xs, ?_, h, rfl⟩
    simp only [nodeAt_spec h, hp, Option.bind_eq_bind, Option.bind_some, Option.bind_none, Option.pure_def]
  | some i =>
    obtain ⟨pre, e, suf, rfl, rfl⟩ := exists_split (position_lt hp)
    obtain ⟨l', hl', hrep⟩ := delNode_spec h
    refine ⟨l', _, ?_, hrep, ?_⟩
    · simp [nodeAt_place h hp, hl']
    · simp [List.eraseIdx_append_of_length_le]

theorem follows_delKey (h : l.Represents xs) (key : V) : l.Follows xs (.delKey key) := by
  have hsearch := searchFrom_spec key xs.length [] xs h.holds (Nat.le_refl _)
  have hhead : l.head = _ := h.holds.ends.1
  rw [← h.len, ← hhead] at hsearch
  simp only [Follows, perform, seqPerform, searchKey]
  cases hfind : xs.find? fun e => key = e.2 with
  | none =>
    rw [hfind] at hsearch
    rw [List.find?_eq_none] at hfind
    have hnot : key ∉ xs.map Prod.snd := by
      intro hin
      obtain ⟨e, he, hkey⟩ := List.mem_map.mp hin
      exact hfind e he (by simpa using hkey.symm)
    refine ⟨l, xs, ?_, h, (List.erase_of_not_mem hnot).symm⟩
    simp only [hsearch, hnot, Option.bind_eq_bind, Option.bind_some, Option.map_none, Option.pure_def, if_false]
  | some e =>
    rw [hfind] at hsearch
    obtain ⟨hkey, pre, suf, rfl, hpre⟩ := List.find?_eq_some_iff_append.mp hfind
    have hkey : key = e.2 := by simpa using hkey
    obtain ⟨l', hl', hrep⟩ := delNode_spec h
    have hnot : key ∉ pre.map Prod.snd := by
      intro hin
      obtain ⟨f, hf, heq⟩ := List.mem_map.mp hin
      have hne := hpre f hf
      simp [heq] at hne
    have hin : key ∈ (pre ++ e :: suf).map Prod.snd := by simp [hkey]
    refine ⟨l', _, ?_, hrep, ?_⟩
    · simp only [hsearch, hin, hl', Option.bind_eq_bind, Option.bind_some, Option.map_some, Option.pure_def, if_true]
    · rw [List.map_append, List.map_append, List.map_cons, List.erase_append_right _ hnot, hkey, List.erase_cons_head]

theorem follows_rotate (h : l.Represents xs) : l.Follows xs .rotate := by
  obtain ⟨l', hl', hrep⟩ := rotate_spec h
  refine ⟨l', _, ?_, hrep, ?_⟩
  · rw [perform, hl']
    rfl
  · simp only [seqPerform]
    rw [List.map_append, List.map_dropLast, List.getLast?_map]
    cases xs.getLast? <;> rfl

theorem follows_iterate (h : l.Represents xs) (fromTail : Bool) (del : V → Bool) : l.Follows xs (.iterate fromTail del) := by
  have hfilter : (xs.filter fun e => !del e.2).map Prod.snd = (xs.map Prod.snd).filter fun v => !del v := by
    rw [List.filter_map]
    rfl
  cases fromTail with
  | true =>
    have htail : l.tail = _ := h.holds.ends.2
    rw [← List.append_nil xs] at h
    obtain ⟨l', hl', hrep⟩ := iterate_prev del xs.length l xs [] h (Nat.le_refl _)
    have hlen := h.len
    rw [List.append_nil] at h hrep hlen
    refine ⟨l', _, ?_, hrep, hfilter⟩
    rw [← htail, ← hlen] at hl'
    simp only [perform, seqPerform, if_true, hl', Option.bind_eq_bind, Option.bind_some, Option.pure_def]
  | false =>
    have hhead : l.head = _ := h.holds.ends.1
    obtain ⟨l', hl', hrep⟩ := iterate_next del xs.length l [] xs h (Nat.le_refl _)
    refine ⟨l', _, ?_, hrep, hfilter⟩
    rw [← hhead, ← h.len] at hl'
    simp only [perform, seqPerform, Bool.false_eq_true, if_false, hl', Option.bind_eq_bind, Option.bind_some, Option.pure_def]

theorem follows (h : l.Represents xs) (op : Op V) : l.Follows xs op := by
  cases op with
  | addNodeHead value =>
    obtain ⟨l', hl', hrep⟩ := addNodeHead_spec h value
    refine ⟨l', _, ?_, hrep, rfl⟩
    rw [perform, hl']
    rfl
  | addNodeTail value =>
    obtain ⟨l', hl', hrep⟩ := addNodeTail_spec h value
    refine ⟨l', _, ?_, hrep, List.map_append⟩
    rw [perform, hl']
    rfl
  | insertNode index value after => exact follows_insertNode h index value after
  | delNode index => exact follows_delNode h index
  | delKey key => exact follows_delKey h key
  | rotate => exact follows_rotate h
  | value index =>
    refine ⟨l, xs, ?_, h, rfl⟩
    simp only [perform, seqPerform, nodeAt_spec h, List.length_map, List.getElem?_map, Option.bind_eq_bind, Option.bind_some,
      Option.pure_def, Option.map_bind]
    rfl
  | length =>
    refine ⟨l, xs, ?_, h, rfl⟩
    simp only [perform, seqPerform, h.len, List.length_map]
  | iterate fromTail del => exact follows_iterate h fromTail del
  | empty =>
    obtain ⟨l', hl', hrep⟩ := empty_spec h
    refine ⟨l', [], ?_, hrep, rfl⟩
    rw [perform, hl']
    rfl

theorem run_spec (ops : List (Op V)) : ∀ {l : AdList V} {xs : List (Nat × V)}, l.Represents xs →
    ∃ l' ys, l.run ops = some (l', (seqRun (xs.map Prod.snd) ops).2) ∧ l'.Represents ys ∧
      ys.map Prod.snd = (seqRun (xs.map Prod.snd) ops).1 := by
  induction ops with
  | nil => exact fun h => ⟨_, _, rfl, h, rfl⟩
  | cons op ops ih =>
    intro l xs h
    obtain ⟨l₁, ys, h₁, hrep, hys⟩ := follows h op
    obtain ⟨l₂, zs, h₂, hrep, hzs⟩ := ih hrep
    rw [hys] at h₂ hzs
    refine ⟨l₂, zs, ?_, hrep, hzs⟩
    simp only [run, h₁, h₂, Option.bind_eq_bind, Option.bind_some, Option.pure_def, seqRun]

/-- **A doubly linked list is a sequence**: no operation follows a pointer to a node that is
not there, and what comes of the operations is what comes of them on the sequence of the
values, whose nodes the list has in its order. -/
theorem list_is_sequence (ops : List (Op V)) : ∃ l, (create : AdList V).run ops = some (l, (seqRun [] ops).2) ∧
    ∃ xs, l.Represents xs ∧ xs.map Prod.snd = (seqRun [] ops).1 := by
  obtain ⟨l, xs, hrun, hrep, hxs⟩ := run_spec ops represents_create
  exact ⟨l, hrun, xs, hrep, hxs⟩

end Runs

end RedisXSlot.AdList
