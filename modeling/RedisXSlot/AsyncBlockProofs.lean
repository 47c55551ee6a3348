import RedisXSlot.AsyncBlock

/-! Commands in threads give back what they take.

Each function of a call is given the references it runs from and leaves the rest to what
follows it; the pool of all calls then is as sound as they are, in whatever order their
threads go on. The one exception is a migration whose thread cannot be started: it reads
`arg->bc` when it has freed `arg`. -/
namespace RedisXSlot.AsyncBlock
variable {c : Nat}

/-- The process runs to its end from references of the call to these. -/
def Runs (c : Nat) (k : Proc Ref) (held : List Kind) : Prop := k.Owns ((held.map (Ref.mk c) : List Ref) : Multiset Ref)

section Rules
variable {k p : Proc Ref} {held held' kinds : List Kind} {kind : Kind}

theorem Runs.perm (h : Runs c k held) (hp : held'.Perm held) : Runs c k held' := by
  unfold Runs at h ⊢
  rw [Multiset.coe_eq_coe.mpr (hp.map (Ref.mk c))]
  exact h

theorem Runs.touch (h : Runs c k held) (hkinds : ∀ x ∈ kinds, x ∈ held) : Runs c (touch c kinds k) held := by
  apply Proc.owns_touchAll _ h
  intro r hr
  obtain ⟨x, hx, rfl⟩ := List.mem_map.mp hr
  exact Multiset.mem_coe.mpr (List.mem_map_of_mem (hkinds x hx))

theorem Runs.take (h : Runs c k (kind :: held)) : Runs c (take c kind k) held := h

theorem Runs.give (h : Runs c k held) (hp : held'.Perm (kind :: held)) : Runs c (give c kind k) held' := by
  apply Runs.perm _ hp
  exact ⟨_, rfl, h⟩

theorem Runs.fork (h : Runs c k held) (hfork : Runs c p kinds) (hp : held'.Perm (kinds ++ held)) : Runs c (.fork p k) held' := by
  apply Runs.perm _ hp
  refine ⟨_, _, ?_, hfork, h⟩
  rw [List.map_append, Multiset.coe_add]

theorem runs_done : Runs c .done [] := rfl

end Rules

section Functions
variable {k : Proc Ref} {held : List Kind}

theorem runs_retain {is : List Nat} (hstrings : ∀ i ∈ is, Kind.string i ∈ held)
    (hargs : ∀ x ∈ [Kind.params, .argv, .caller, .callerArgv], x ∈ held) (h : Runs c k (is.map .string ++ held)) :
    Runs c (retain c is k) held := by
  induction is generalizing held with
  | nil => exact h
  | cons i is ih =>
    apply Runs.touch
    · apply Runs.take
      apply ih
      · exact fun j hj => List.mem_cons_of_mem _ (hstrings j (List.mem_cons_of_mem _ hj))
      · exact fun x hx => List.mem_cons_of_mem _ (hargs x hx)
      · exact h.perm List.perm_middle
    · intro x hx
      have hstring := hstrings i (List.mem_cons_self ..)
      simp only [List.mem_cons, List.not_mem_nil, or_false] at hargs hx
      obtain rfl | rfl | rfl | rfl | rfl := hx <;> simp_all

theorem runs_freeArguments {ctx : Kind} (hctx : ctx ∈ held) (h : Runs c k held) (is : List Nat) :
    Runs c (freeArguments c ctx is k) (is.map .string ++ .argv :: .params :: held) := by
  induction is with
  | nil =>
    apply Runs.touch
    · exact (h.give (.refl _)).give (.refl _)
    · simp
  | cons i is ih =>
    apply Runs.touch
    · exact ih.give (.refl _)
    · simp [hctx]

/-- What the objects in the array hold. -/
def dumped (is : List Nat) : List Kind := is.flatMap fun i => [.string (i * 3 + 3), .obj i]

theorem runs_freeDumpObjs {v : View} (hctx : v.ctx ∈ held) (h : Runs c k held) (is : List Nat) :
    Runs c (freeDumpObjs c v is k) (dumped is ++ .objs :: held) := by
  induction is with
  | nil => exact h.give (.refl _)
  | cons i is ih =>
    apply Runs.touch
    · exact (ih.give (.refl _)).give (.refl _)
    · simp [dumped, hctx]

theorem runs_restoreMutli {v : View} (h : Runs c k held) {is : List Nat} (hctx : v.ctx ∈ held) (hobjs : Kind.objs ∈ held)
    (his : ∀ i ∈ is, Kind.obj i ∈ held ∧ Kind.string (i * 3 + 1) ∈ held ∧ Kind.string (i * 3 + 3) ∈ held) :
    Runs c (restoreMutli c v is k) held := by
  induction is with
  | nil => exact h
  | cons i is ih =>
    have ih := ih fun j hj => his j (List.mem_cons_of_mem _ hj)
    obtain ⟨hobj, hkey, hval⟩ := his i (List.mem_cons_self ..)
    apply Runs.touch
    · intro error
      cases error with
      | true => exact h
      | false =>
        intro nothing
        cases nothing with
        | true => exact ih
        | false =>
          apply ih.touch
          simp [hkey, hctx]
    · simp [hobj, hkey, hval, hctx, hobjs]

theorem runs_slotsRestoreLoop {v : View} {argv : List Bytes} (h : Runs c k held) (hctx : v.ctx ∈ held) (hargv : v.argv ∈ held)
    (hstrings : ∀ i < argv.length, Kind.string i ∈ held) {m i : Nat} (hm : (i + m) * 3 < argv.length) :
    Runs c (slotsRestoreLoop c v argv m i k) (dumped (List.range i) ++ .objs :: held) := by
  have hheld : ∀ x ∈ held, x ∈ dumped (List.range i) ++ .objs :: held := fun x hx =>
    List.mem_append_right _ (List.mem_cons_of_mem _ hx)
  induction m generalizing i with
  | zero =>
    apply runs_restoreMutli
    · exact runs_freeDumpObjs hctx h _
    · exact hheld _ hctx
    · simp
    · intro j hj
      have hlt := List.mem_range.mp hj
      refine ⟨?_, hheld _ (hstrings _ (by omega)), hheld _ (hstrings _ (by omega))⟩
      apply List.mem_append_left
      exact List.mem_flatMap.mpr ⟨j, hj, by simp⟩
  | succ m ih =>
    have hval : Kind.string (i * 3 + 3) ∈ held := hstrings _ (by omega)
    have httl : Kind.string (i * 3 + 2) ∈ held := hstrings _ (by omega)
    apply Runs.touch
    · cases string2ll (argv.getD (i * 3 + 2) []) with
      | none => exact runs_freeDumpObjs hctx h _
      | some ttlms =>
        have hloop := ih (i := i + 1) (by omega) fun x hx => List.mem_append_right _ (List.mem_cons_of_mem _ hx)
        have hmore : (Kind.string (i * 3 + 3) :: .obj i :: (dumped (List.range i) ++ .objs :: held)).Perm
            (dumped (List.range (i + 1)) ++ .objs :: held) := by
          unfold dumped
          rw [List.range_succ, List.flatMap_append, List.append_assoc]
          exact (List.perm_append_comm_assoc [Kind.string (i * 3 + 3), .obj i] _ _)
        apply Runs.take
        apply Runs.touch
        · apply Runs.touch
          · apply Runs.take
            apply Runs.touch
            · exact hloop.perm hmore
            · simp
          · simp [hctx, hval]
        · simp [hargv]
    · simp [hargv, httl]

theorem runs_slotsRestoreCmd {v : View} {argv : List Bytes} (h : Runs c k held) (hctx : v.ctx ∈ held) (hargv : v.argv ∈ held)
    (hstrings : ∀ i < argv.length, Kind.string i ∈ held) (harity : badArity argv = false) :
    Runs c (slotsRestoreCmd c v argv k) held := by
  have hlen : 4 ≤ argv.length := by
    unfold badArity at harity
    simp at harity
    omega
  apply Runs.take
  exact runs_slotsRestoreLoop h hctx hargv hstrings (by omega)

/-- The strings of the arguments. -/
theorem mem_strings {n i : Nat} : Kind.string i ∈ (List.range n).map Kind.string ↔ i < n := by
  rw [List.mem_map]
  constructor
  · intro h
    obtain ⟨j, hj, heq⟩ := h
    cases heq
    exact List.mem_range.mp hj
  · intro h
    exact ⟨i, List.mem_range.mpr h, rfl⟩

theorem mem_reads {n : Nat} {reads : List (Fin n)} (hstrings : ∀ i < n, Kind.string i ∈ held) :
    ∀ x ∈ reads.map (fun i => Kind.string i.val), x ∈ held := by
  intro x hx
  obtain ⟨j, -, rfl⟩ := List.mem_map.mp hx
  exact hstrings j j.isLt

theorem runs_mgrtThread {n : Nat} (reads : List (Fin n)) :
    Runs c (mgrtThread c n reads) ((List.range n).map .string ++ [.argv, .params, .client]) := by
  have hfree : Runs c (freeArguments c .context (List.range n) (give c .context .done))
      ((List.range n).map .string ++ [.argv, .params, .context]) :=
    runs_freeArguments (List.mem_singleton_self _) (runs_done.give (.refl _)) _
  have hunblock : Runs c (give c .client (freeArguments c .context (List.range n) (give c .context .done)))
      (.context :: ((List.range n).map .string ++ [.argv, .params, .client])) := by
    apply hfree.give
    rw [List.perm_iff_count]
    intro x
    simp only [List.count_cons, List.count_append, List.count_nil]
    omega
  apply Runs.touch
  · apply Runs.take
    apply Runs.touch
    · apply Runs.touch
      · apply hunblock.touch
        simp
      · apply mem_reads
        intro i hi
        apply List.mem_cons_of_mem
        apply List.mem_append_left
        exact mem_strings.mpr hi
    · simp
  · simp

theorem runs_mgrtAsyncBlock {n : Nat} {reads : List (Fin n)} (h : Runs c k held) (hcaller : Kind.caller ∈ held)
    (hargv : Kind.callerArgv ∈ held) (hstrings : ∀ i < n, Kind.string i ∈ held) :
    Runs c (mgrtAsyncBlock c n reads true k) held := by
  have hfork : Runs c (.fork (mgrtThread c n reads) k)
      ((List.range n).map .string ++ .argv :: .client :: .params :: held) := by
    apply h.fork (runs_mgrtThread reads)
    rw [List.perm_iff_count]
    intro x
    simp only [List.count_cons, List.count_append, List.count_nil]
    omega
  apply Runs.take
  apply Runs.touch
  · apply Runs.take
    apply Runs.touch
    · apply Runs.take
      apply Runs.touch
      · apply runs_retain
        · intro i hi
          simp [hstrings i (List.mem_range.mp hi)]
        · simp [hcaller, hargv]
        · exact hfork
      · simp
    · simp
  · simp [hcaller]

theorem runs_restoreReply : Runs c (restoreReply c) [.result] := by
  intro gone
  have hgive : Runs c (give c .result .done) [.result] := runs_done.give (.refl _)
  cases gone with
  | true => exact hgive
  | false =>
    apply hgive.touch
    simp

theorem runs_restoreThread {argv : List Bytes} (harity : badArity argv = false) :
    Runs c (restoreThread c argv) ((List.range argv.length).map .string ++ [.argv, .params, .client]) := by
  have hfree : Runs c (freeArguments c .context (List.range argv.length) (give c .context .done))
      ((List.range argv.length).map .string ++ [.argv, .params, .context]) :=
    runs_freeArguments (List.mem_singleton_self _) (runs_done.give (.refl _)) _
  have hend : Runs c (touch c [.result] <| touch c [.params] <| give c .client <| .fork (restoreReply c) <|
      freeArguments c .context (List.range argv.length) (give c .context .done))
      (.result :: .context :: ((List.range argv.length).map .string ++ [.argv, .params, .client])) := by
    have hreply := hfree.fork (runs_restoreReply (c := c)) (List.Perm.refl _)
    apply Runs.touch
    · apply Runs.touch
      · apply hreply.give
        · rw [List.perm_iff_count]
          intro x
          simp only [List.count_cons, List.count_append, List.count_nil]
          omega
      · simp
    · simp
  apply Runs.touch
  · apply Runs.take
    apply Runs.take
    apply Runs.touch
    · apply runs_slotsRestoreCmd hend
      · simp [View.thread]
      · simp [View.thread]
      · intro i hi
        apply List.mem_cons_of_mem
        apply List.mem_cons_of_mem
        apply List.mem_append_left
        exact mem_strings.mpr hi
      · exact harity
    · simp
  · simp

theorem runs_restoreAsyncBlock {argv : List Bytes} {created : Bool} (h : Runs c k held) (hcaller : Kind.caller ∈ held)
    (hargv : Kind.callerArgv ∈ held) (hstrings : ∀ i < argv.length, Kind.string i ∈ held) :
    Runs c (restoreAsyncBlock c argv created k) held := by
  have hreply : Runs c (touch c [.caller] k) held := by
    apply h.touch
    simp [hcaller]
  unfold restoreAsyncBlock
  cases harity : badArity argv with
  | true => exact hreply
  | false =>
    have hstart : Runs c (if created then .fork (restoreThread c argv) k
        else freeArguments c .caller (List.range argv.length) (give c .client (touch c [.caller] k)))
        ((List.range argv.length).map .string ++ .argv :: .params :: .client :: held) := by
      cases created with
      | true =>
        apply h.fork (runs_restoreThread harity)
        simp
      | false =>
        apply runs_freeArguments
        · exact List.mem_cons_of_mem _ hcaller
        · exact hreply.give (.refl _)
    apply Runs.touch
    · apply Runs.take
      apply Runs.touch
      · apply Runs.take
        apply Runs.touch
        · apply Runs.take
          apply Runs.touch
          · apply runs_retain
            · intro i hi
              simp [hstrings i (List.mem_range.mp hi)]
            · simp [hcaller, hargv]
            · exact hstart
          · simp
        · simp
      · simp
    · simp [hcaller]

theorem runs_hostCall {n : Nat} {body : Proc Ref → Proc Ref}
    (h : ∀ k held, Runs c k held → Kind.caller ∈ held → Kind.callerArgv ∈ held →
      (∀ i < n, Kind.string i ∈ held) → Runs c (body k) held) : Runs c (hostCall c n body) [] := by
  apply Proc.owns_takeAll
  have hend : Runs c (Proc.giveAll ((.caller :: .callerArgv :: (List.range n).map .string).map (Ref.mk c)) .done)
      (.caller :: .callerArgv :: (List.range n).map .string) := by
    unfold Runs
    rw [← add_zero (Multiset.ofList _)]
    exact Proc.owns_giveAll rfl
  have hbody := h _ _ hend (by simp) (by simp) fun i hi => by simp [hi]
  unfold Runs at hbody
  rw [List.map_nil, Multiset.coe_nil, add_zero]
  exact hbody

end Functions

/-- **A call whose thread can be started** has what it needs and gives back what it takes. -/
theorem runs_proc {call : Command} (h : ¬ call.Unstarted) : Runs c (call.proc c) [] := by
  cases call with
  | dispatch argv reads async created =>
    unfold Command.proc
    apply runs_hostCall
    intro k held hk hcaller hargv hstrings
    cases async with
    | true =>
      have hcreated : created = true := by
        rw [← Bool.not_eq_false]
        exact fun hc => h ⟨rfl, hc⟩
      rw [hcreated]
      exact runs_mgrtAsyncBlock hk hcaller hargv hstrings
    | false =>
      apply Runs.touch
      · exact hk.touch (mem_reads hstrings)
      · simp [hcaller, hargv]
  | restore argv async created =>
    unfold Command.proc
    apply runs_hostCall
    intro k held hk hcaller hargv hstrings
    have hreply : Runs c (touch c [.caller] k) held := by
      apply hk.touch
      simp [hcaller]
    cases async with
    | true => exact runs_restoreAsyncBlock hk hcaller hargv hstrings
    | false =>
      rw [if_neg (by simp)]
      split
      next => exact hreply
      next harity => exact runs_slotsRestoreCmd hreply hcaller hargv hstrings (by simpa using harity)

/-! ### References of one call -/

section Within
variable {k : Proc Ref} {P : Ref → Prop}

/-- The process uses references of the call only. -/
def Ours (c : Nat) (k : Proc Ref) : Prop := k.Within fun r => r.call = c

theorem Ours.touch (h : Ours c k) (kinds : List Kind) : Ours c (touch c kinds k) := by
  induction kinds with
  | nil => exact h
  | cons kind kinds ih => exact ⟨rfl, ih⟩

theorem Ours.take (h : Ours c k) (kind : Kind) : Ours c (take c kind k) := ⟨rfl, h⟩

theorem Ours.give (h : Ours c k) (kind : Kind) : Ours c (give c kind k) := ⟨rfl, h⟩

theorem Ours.retain (h : Ours c k) (is : List Nat) : Ours c (retain c is k) := by
  induction is with
  | nil => exact h
  | cons i is ih => exact (ih.take _).touch _

theorem Ours.freeArguments (h : Ours c k) (ctx : Kind) (is : List Nat) : Ours c (freeArguments c ctx is k) := by
  induction is with
  | nil => exact ((h.give _).give _).touch _
  | cons i is ih => exact (ih.give _).touch _

theorem Ours.freeDumpObjs (h : Ours c k) (v : View) (is : List Nat) : Ours c (freeDumpObjs c v is k) := by
  induction is with
  | nil => exact h.give _
  | cons i is ih => exact ((ih.give _).give _).touch _

theorem Ours.restoreMutli (h : Ours c k) (v : View) (is : List Nat) : Ours c (restoreMutli c v is k) := by
  induction is with
  | nil => exact h
  | cons i is ih =>
    apply Ours.touch
    intro error
    cases error with
    | true => exact h
    | false =>
      intro nothing
      cases nothing with
      | true => exact ih
      | false => exact ih.touch _

theorem Ours.slotsRestoreLoop (h : Ours c k) (v : View) (argv : List Bytes) (m i : Nat) :
    Ours c (slotsRestoreLoop c v argv m i k) := by
  induction m generalizing i with
  | zero => exact (h.freeDumpObjs v _).restoreMutli v _
  | succ m ih =>
    apply Ours.touch
    cases string2ll (argv.getD (i * 3 + 2) []) with
    | none => exact h.freeDumpObjs v _
    | some ttlms => exact ((((((ih _).touch _).take _).touch _).touch _).take _)

theorem Ours.slotsRestoreCmd (h : Ours c k) (v : View) (argv : List Bytes) : Ours c (slotsRestoreCmd c v argv k) :=
  (h.slotsRestoreLoop v argv _ 0).take _

theorem ours_done : Ours c .done := trivial

theorem Ours.mgrtAsyncBlock (h : Ours c k) (n : Nat) (reads : List (Fin n)) (created : Bool) :
    Ours c (mgrtAsyncBlock c n reads created k) := by
  have hthread : Ours c (mgrtThread c n reads) :=
    (((((((ours_done.give _).freeArguments _ _).give _).touch _).touch _).touch _).take _).touch _
  have hstart : Ours c (if created then .fork (mgrtThread c n reads) k
      else AsyncBlock.freeArguments c .caller (List.range n) <| AsyncBlock.touch c [.params] <|
        AsyncBlock.give c .client <| AsyncBlock.touch c [.caller] k) := by
    cases created with
    | true => exact ⟨hthread, h⟩
    | false => exact (((h.touch _).give _).touch _).freeArguments _ _
  exact ((((((hstart.retain _).touch _).take _).touch _).take _).touch _).take _

theorem Ours.restoreAsyncBlock (h : Ours c k) (argv : List Bytes) (created : Bool) :
    Ours c (restoreAsyncBlock c argv created k) := by
  have hreply : Ours c (restoreReply c) := by
    intro gone
    cases gone with
    | true => exact ours_done.give _
    | false => exact (ours_done.give _).touch _
  have hfork : Ours c (.fork (restoreReply c) (AsyncBlock.freeArguments c .context (List.range argv.length)
      (AsyncBlock.give c .context .done))) := ⟨hreply, (ours_done.give _).freeArguments _ _⟩
  have hthread : Ours c (restoreThread c argv) :=
    ((((((((Ours.give hfork _).touch _).touch _).slotsRestoreCmd _ _).touch _).take _).take _).touch _)
  have hstart : Ours c (if created then .fork (restoreThread c argv) k
      else AsyncBlock.freeArguments c .caller (List.range argv.length) <|
        AsyncBlock.give c .client <| AsyncBlock.touch c [.caller] k) := by
    cases created with
    | true => exact ⟨hthread, h⟩
    | false => exact ((h.touch _).give _).freeArguments _ _
  unfold AsyncBlock.restoreAsyncBlock
  split
  next => exact h.touch _
  next => exact (((((((hstart.retain _).touch _).take _).touch _).take _).touch _).take _).touch _

theorem Ours.hostCall {n : Nat} {body : Proc Ref → Proc Ref} (h : ∀ k, Ours c k → Ours c (body k)) :
    Ours c (hostCall c n body) := by
  have hgive : ∀ kinds : List Kind, Ours c (Proc.giveAll (kinds.map (Ref.mk c)) .done) := by
    intro kinds
    induction kinds with
    | nil => exact ours_done
    | cons kind kinds ih => exact ih.give kind
  have htake : ∀ (kinds : List Kind) (k : Proc Ref), Ours c k → Ours c (Proc.takeAll (kinds.map (Ref.mk c)) k) := by
    intro kinds k hk
    induction kinds with
    | nil => exact hk
    | cons kind kinds ih => exact ih.take kind
  exact htake _ _ (h _ (hgive _))

theorem ours_proc (call : Command) : Ours c (call.proc c) := by
  cases call with
  | dispatch argv reads async created =>
    unfold Command.proc
    apply Ours.hostCall
    intro k hk
    cases async with
    | true => exact hk.mgrtAsyncBlock _ _ _
    | false => exact (hk.touch _).touch _
  | restore argv async created =>
    unfold Command.proc
    apply Ours.hostCall
    intro k hk
    split
    next => exact hk.restoreAsyncBlock _ _
    next =>
      split
      next => exact hk.touch _
      next => exact (hk.touch _).slotsRestoreCmd _ _

end Within

/-! ### The thread that cannot be started -/

section Doomed
variable {k : Proc Ref} {n : Nat}

/-- The process comes to read the parameters when they are freed; it has them `n` times. -/
def ReadsFreed (c : Nat) (k : Proc Ref) (n : Nat) : Prop := k.Doomed ⟨c, .params⟩ n

theorem ReadsFreed.touch (h : ReadsFreed c k n) (kinds : List Kind) : ReadsFreed c (touch c kinds k) n := by
  induction kinds with
  | nil => exact h
  | cons kind kinds ih => exact Or.inr ih

theorem ReadsFreed.take (h : ReadsFreed c k n) {kind : Kind} (hkind : kind ≠ .params) : ReadsFreed c (take c kind k) n := by
  show k.Doomed _ (if _ then _ else _)
  rw [if_neg]
  · exact h
  · intro he
    cases he
    exact hkind rfl

theorem ReadsFreed.give (h : ReadsFreed c k n) {kind : Kind} (hkind : kind ≠ .params) : ReadsFreed c (give c kind k) n := by
  show if _ then _ else _
  rw [if_neg]
  · exact h
  · intro he
    cases he
    exact hkind rfl

theorem ReadsFreed.takeParams (h : ReadsFreed c k (n + 1)) : ReadsFreed c (AsyncBlock.take c .params k) n := by
  show k.Doomed _ (if _ then _ else _)
  rw [if_pos rfl]
  exact h

theorem ReadsFreed.giveParams (h : ReadsFreed c k n) : ReadsFreed c (AsyncBlock.give c .params k) (n + 1) := by
  show if _ then _ else _
  rw [if_pos rfl]
  exact Or.inr h

/-- Reading the parameters when there are none. -/
theorem readsFreed_touch (k : Proc Ref) : ReadsFreed c (touch c [.params] k) 0 := Or.inl ⟨rfl, rfl⟩

theorem ReadsFreed.retain (h : ReadsFreed c k n) (is : List Nat) : ReadsFreed c (retain c is k) n := by
  induction is with
  | nil => exact h
  | cons i is ih => exact ReadsFreed.touch (ih.take (by simp)) _

/-- The parameters are freed. -/
theorem ReadsFreed.freeArguments (h : ReadsFreed c k 0) (ctx : Kind) (is : List Nat) :
    ReadsFreed c (freeArguments c ctx is k) 1 := by
  induction is with
  | nil =>
    apply ReadsFreed.touch
    exact h.giveParams.give (by simp)
  | cons i is ih => exact ReadsFreed.touch (ih.give (by simp)) _

theorem ReadsFreed.takeAll (h : ReadsFreed c k n) {kinds : List Kind} (hkinds : Kind.params ∉ kinds) :
    ReadsFreed c (Proc.takeAll (kinds.map (Ref.mk c)) k) n := by
  induction kinds with
  | nil => exact h
  | cons kind kinds ih =>
    rw [List.mem_cons, not_or] at hkinds
    exact (ih hkinds.2).take (Ne.symm hkinds.1)

theorem readsFreed_proc {call : Command} (h : call.Unstarted) : ReadsFreed c (call.proc c) 0 := by
  cases call with
  | restore argv async created => exact h.elim
  | dispatch argv reads async created =>
    obtain ⟨rfl, rfl⟩ := h
    apply ReadsFreed.takeAll
    · apply ReadsFreed.takeParams
      apply ReadsFreed.touch
      apply ReadsFreed.take _ (by simp)
      apply ReadsFreed.touch
      apply ReadsFreed.take _ (by simp)
      apply ReadsFreed.touch
      apply ReadsFreed.retain
      apply ReadsFreed.freeArguments
      exact readsFreed_touch _
    · simp

end Doomed

/-! ### Every run -/

/-- **Commands in threads give back what they take.** Any number of commands of any kind,
their threads and replies running in any interleaving: as long as the thread of no migration
fails to start, nothing is read or freed that is not held, and whenever all have ended
nothing is held, so that every client was unblocked or aborted once and every argument freed
as often as it was retained. Once all have ended, that is so exactly if no thread of a
migration failed to start; and from wherever they are, all can come to their ends. -/
theorem async_commands_balanced {s : Pool Command Ref} (h : Pool.Reachable Command.proc s) :
    ((∀ call ∈ s.calls, ¬ call.Unstarted) → s.ledger.fault = false ∧ (s.Idle → s.ledger.held = [])) ∧
      (s.Idle → (s.ledger.fault = false ↔ ∀ call ∈ s.calls, ¬ call.Unstarted)) ∧
      ∃ s', Relation.ReflTransGen (Pool.Step Command.proc) s s' ∧ s'.Idle ∧ s'.calls = s.calls := by
  have hsound : (∀ call ∈ s.calls, ¬ call.Unstarted) → s.ledger.fault = false ∧ (s.Idle → s.ledger.held = []) :=
    fun hall => h.sound fun call hcall i => runs_proc (hall call hcall)
  refine ⟨hsound, fun hidle => ⟨fun hok call hcall hun => ?_, fun hall => (hsound hall).1⟩, Pool.exists_idle _ s⟩
  obtain ⟨i, hi, hget⟩ := List.mem_iff_getElem.mp hcall
  have hcall := List.getElem?_eq_some_iff.mpr ⟨hi, hget⟩
  have howner : Ref.call ⟨i, .params⟩ = i := rfl
  have hfault := h.doomed (fun i call => ours_proc call) hidle hcall howner (readsFreed_proc hun)
  rw [hok] at hfault
  cases hfault

/-- A blocking restore, one whose thread cannot be started, and a migration in a thread. -/
def threeCommands : List Command :=
  [.restore [[115], [107], [48], [118]] true true, .restore [[115], [107], [48], [118]] true false,
    .dispatch [[109], [104], [49], [51, 48], [107]] [4] true true]

/-- They come one after the other and run to their ends, with nothing left. -/
theorem async_commands_balanced_three : ∃ s : Pool Command Ref, Pool.Reachable Command.proc s ∧ s.calls = threeCommands ∧
    s.Idle ∧ s.ledger.fault = false ∧ s.ledger.held = [] := by
  have hcome : Pool.Reachable Command.proc ⟨.init, _, threeCommands⟩ :=
    ((Relation.ReflTransGen.single (.call .init _)).tail (.call _ _)).tail (.call _ _)
  obtain ⟨s, hrun, hidle, hcalls⟩ := (async_commands_balanced hcome).2.2
  have hreach : Pool.Reachable Command.proc s := hcome.trans hrun
  have hstarted : ∀ call ∈ s.calls, ¬ call.Unstarted := by
    rw [hcalls]
    decide
  obtain ⟨hok, hheld⟩ := (async_commands_balanced hreach).1 hstarted
  exact ⟨s, hreach, hcalls, hidle, hok, hheld hidle⟩

end RedisXSlot.AsyncBlock
