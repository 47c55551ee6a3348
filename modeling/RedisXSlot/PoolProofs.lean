import RedisXSlot.SendProofs

/-! The thread-pool path.

Workers run tasks while the loop still fills the shared array and adds tasks, in an
order nobody fixes. `PoolInv` is what holds at every moment of that: the tasks added are
those of the batches cut so far, the array holds the arguments of these and of the open
batch, and what has been tried and what is queued make up the commands of the batches.
Every step keeps it, so after the wait it gives what `batchSendSlotsRestore` gives. -/
namespace RedisXSlot
open Interaction

/-- Start and end of each batch, the first one starting at `start`. -/
def bounds (start : Nat) : List (List DumpObj) → List (Nat × Nat)
  | [] => []
  | b :: bs => (start, start + b.length) :: bounds (start + b.length) bs

theorem bounds_append_singleton (start : Nat) (bs : List (List DumpObj)) (b : List DumpObj) :
    bounds start (bs ++ [b]) =
      bounds start bs ++ [(start + bs.flatten.length, start + bs.flatten.length + b.length)] := by
  induction bs generalizing start with
  | nil => simp [bounds]
  | cons c bs ih => simp [bounds, ih, Nat.add_assoc]

theorem bounds_length (start : Nat) (bs : List (List DumpObj)) : (bounds start bs).length = bs.length := by
  induction bs generalizing start with
  | nil => rfl
  | cons c bs ih => simp [bounds, ih]

/-- The bounds at an index are those of the batch at that index. -/
theorem bounds_get {start k : Nat} {bs : List (List DumpObj)} {x : Nat × Nat}
    (h : (bounds start bs)[k]? = some x) :
    ∃ pre b post, bs = pre ++ b :: post ∧ pre.length = k ∧
      x = (start + pre.flatten.length, start + pre.flatten.length + b.length) := by
  induction bs generalizing start k with
  | nil => simp [bounds] at h
  | cons c bs ih =>
    cases k with
    | zero =>
      simp only [bounds, List.getElem?_cons_zero, Option.some.injEq] at h
      exact ⟨[], c, bs, rfl, rfl, by simp [← h]⟩
    | succ k =>
      simp only [bounds, List.getElem?_cons_succ] at h
      obtain ⟨pre, b, post, rfl, rfl, hx⟩ := ih h
      exact ⟨c :: pre, b, post, rfl, rfl, by simp [hx, Nat.add_assoc]⟩

/-! ### One task -/

theorem exchange_of_ok {e : Event} {ok : Bool} (hnet : e.call.isNet = true) (hfits : e.overruns = false)
    (hok : ok = !e.failed) (hi : issued [e] = []) (hr : replies [e] = []) : Exchange [] [e] ok :=
  .quiet (by simpa using hnet) (by simpa [Fits] using hfits) (by simp [Clean, hok]) hi hr

/-- Getting a connection ends with it or without, or in a text that is too long for `errLog`. -/
theorem slotsmgrtGetConnCtx_spec (conf : MgrtConf) :
    Ends (slotsmgrtGetConnCtx conf) (fun t ok => Exchange [] t ok) (Overran []) := by
  simp only [slotsmgrtGetConnCtx]
  refine .call fun (tid : Tid) => .call fun (cached : Bool) => ?_
  generalize getConnName ⟨conf.host, conf.port⟩ tid = name
  have hcached : Exchange [] [(⟨.getTid, tid⟩ : Event), ⟨.cachedConn name, cached⟩] true :=
    (exchange_of_ok rfl rfl rfl rfl rfl).append (exchange_of_ok (e := ⟨.cachedConn name, cached⟩) rfl rfl rfl rfl rfl)
  cases cached with
  | true => exact .ret hcached
  | false =>
    refine .call fun (c : ConnectAnswer) => ?_
    show Ends (if c.overruns name then .fault else .ret (decide (c = .connected))) _ _
    cases hover : c.overruns name with
    | true =>
      have hconn : Overran [] [(⟨.connect conf.host conf.port name, c⟩ : Event)] :=
        ⟨by simp [Call.isNet], ⟨_, List.mem_singleton.mpr rfl, hover⟩, .refl _, le_rfl⟩
      rw [if_pos rfl]
      exact .fault (hconn.behind hcached)
    | false =>
      have hconn : Exchange [] [(⟨.connect conf.host conf.port name, c⟩ : Event)] (c = .connected) :=
        exchange_of_ok rfl hover (by simp [Event.failed]) rfl rfl
      rw [if_neg Bool.false_ne_true]
      exact .ret (by simpa using hcached.append hconn)

theorem exchange_select (db : Nat) (a : NetAnswer) :
    Exchange [] [(⟨.select db, a⟩ : Event)] a.ok :=
  exchange_of_ok rfl rfl (by simp [Event.failed]) rfl rfl

theorem exchange_closeConn (host port : Bytes) (u : Unit) :
    Exchange [] [(⟨.closeConn host port, u⟩ : Event)] true :=
  exchange_of_ok rfl rfl rfl rfl rfl

/-- A task is its split behind a connection of its own. -/
theorem doSplitRestoreCmdTask_spec (conf : MgrtConf) {argv : List Bytes} {done objs rest : List DumpObj}
    (hargv : argv = (done ++ objs ++ rest).flatMap DumpObj.args) (hne : objs ≠ []) :
    Ends (doSplitRestoreCmdTask conf argv done.length (done.length + objs.length))
      (Sends objs.length [restoreCommand objs]) (Overran []) := by
  simp only [doSplitRestoreCmdTask]
  refine (slotsmgrtGetConnCtx_spec conf).bind fun t ok hconn => ?_
  have hfail {t : Trace} (h : Exchange [] t false) :
      Sends objs.length [restoreCommand objs] t SLOTS_MGRT_ERR :=
    .of_ok (by simpa using h.stop [restoreCommand objs])
  refine Spec.ends ?_ _
  cases ok with
  | false => exact .ret (by simpa using hfail hconn)
  | true =>
    simp only [if_true, Prog.perform_bind]
    refine .call fun a => ?_
    have hsel := hconn.append (exchange_select conf.db a)
    cases a with
    | failed => exact .ret (hfail hsel)
    | missing => exact .ret (hfail hsel)
    | reply r =>
      cases r with
      | error => exact .ret (hfail hsel)
      | integer | status =>
        refine (doSplitRestoreCommand_spec rest hargv hne).bind fun t' r hs => .call fun u => .ret ?_
        have hx := (hsel.append hs.exchange).append (exchange_closeConn conf.host conf.port u)
        exact ⟨by simpa [NetAnswer.ok] using hx, hs.count⟩

/-! ### The invariant -/

/-- `done` are the batches cut so far, `cur` the open one, `t` the traffic up to now. -/
structure PoolInv (done : List (List DumpObj)) (cur : List DumpObj) (pool : Pool) (t : Trace) : Prop where
  argv : pool.argv = (done.flatten ++ cur).flatMap DumpObj.args
  bounds : pool.params.map (fun p => (p.start_pos, p.end_pos)) = bounds 0 done
  ne : ∀ b ∈ done, b ≠ []
  nodup : pool.queued.Nodup
  lt : ∀ k ∈ pool.queued, k < done.length
  fresh : ∀ k ∈ pool.queued, ∀ p, pool.params[k]? = some p → p.result_code ≠ SLOTS_MGRT_ERR
  work : ∃ tried, (tried ++ pool.queued.map fun k => restoreCommand (done.getD k [])).Perm
      (done.map restoreCommand) ∧
    Exchange tried t (pool.params.all (·.result_code != SLOTS_MGRT_ERR))

namespace PoolInv
variable {done : List (List DumpObj)} {cur : List DumpObj} {pool : Pool} {t : Trace}

theorem init : PoolInv [] [] ⟨[], [], []⟩ [] where
  argv := rfl
  bounds := rfl
  ne := by simp
  nodup := .nil
  lt := by simp
  fresh := by simp
  work := ⟨[], .refl _, .nil⟩

theorem params_length (h : PoolInv done cur pool t) : pool.params.length = done.length := by
  have := congrArg List.length h.bounds
  rwa [List.length_map, bounds_length] at this

theorem schedule (h : PoolInv done cur pool t) (picks : List Nat) :
    PoolInv done cur pool (t ++ [⟨.schedule pool.queued, picks⟩]) :=
  { h with
    work := by
      obtain ⟨tried, hp, hx⟩ := h.work
      have hs : Exchange [] [(⟨.schedule pool.queued, picks⟩ : Event)] true :=
        exchange_of_ok rfl rfl rfl rfl rfl
      exact ⟨tried, hp, by simpa using hx.append hs⟩ }

theorem put (h : PoolInv done cur pool t) (obj : DumpObj) :
    PoolInv done (cur ++ [obj]) { pool with argv := pool.argv ++ obj.args } t :=
  { h with
    argv := by
      rw [h.argv, ← List.append_assoc, List.flatMap_append]
      simp }

/-- Whatever goes wrong in a task, only commands of the batches have been sent. -/
theorem overran (h : PoolInv done cur pool t) {t' : Trace} (ht : Overran [] t') :
    Overran (done.map restoreCommand) (t ++ t') := by
  obtain ⟨tried, hp, hx⟩ := h.work
  refine (ht.behind hx).subperm ?_
  rw [List.append_nil]
  exact (List.sublist_append_left tried _).subperm.trans hp.subperm

/-- The open batch becomes a task. -/
theorem addWork (h : PoolInv done cur pool t) (hcur : cur ≠ []) :
    PoolInv (done ++ [cur]) [] (pool.addWork done.flatten.length (done.flatten.length + cur.length)) t where
  argv := by
    rw [Pool.addWork, h.argv]
    simp
  bounds := by
    rw [Pool.addWork, List.map_append, h.bounds, bounds_append_singleton]
    simp
  ne := by
    intro b hb
    rcases List.mem_append.mp hb with hb | hb
    · exact h.ne b hb
    · rw [List.mem_singleton.mp hb]
      exact hcur
  nodup := by
    refine List.nodup_append.mpr ⟨h.nodup, List.nodup_singleton _, ?_⟩
    rintro k hk j hj rfl
    have := h.lt k hk
    rw [List.mem_singleton.mp hj, h.params_length] at this
    omega
  lt := by
    intro k hk
    rw [List.length_append, List.length_singleton]
    rcases List.mem_append.mp hk with hk | hk
    · exact Nat.lt_succ_of_lt (h.lt k hk)
    · rw [List.mem_singleton.mp hk, h.params_length]
      exact Nat.lt_succ_self _
  fresh := by
    intro k hk p hp
    simp only [Pool.addWork, List.getElem?_append] at hp
    split at hp
    next hlt =>
      rcases List.mem_append.mp hk with hk | hk
      · exact h.fresh k hk p hp
      · rw [List.mem_singleton.mp hk] at hlt
        omega
    next =>
      obtain rfl : p = ⟨done.flatten.length, done.flatten.length + cur.length, 0⟩ := by
        have := List.mem_of_getElem? hp
        simpa using this
      exact natCast_ne_err 0
  work := by
    obtain ⟨tried, hp, hx⟩ := h.work
    refine ⟨tried, ?_, ?_⟩
    · have hmap : pool.queued.map (fun k => restoreCommand ((done ++ [cur]).getD k [])) =
          pool.queued.map fun k => restoreCommand (done.getD k []) :=
        List.map_congr_left fun k hk => by rw [List.getD_append _ _ _ _ (h.lt k hk)]
      have hlast : (done ++ [cur]).getD pool.params.length [] = cur := by
        rw [h.params_length]
        simp
      rw [Pool.addWork, List.map_append, hmap, List.map_append, List.map_singleton, List.map_singleton,
        hlast, ← List.append_assoc]
      exact hp.append_right _
    · have : ((0 : Int) != SLOTS_MGRT_ERR) = true := by decide
      simpa [Pool.addWork, this] using hx

end PoolInv

theorem all_set {α : Type} {f : α → Bool} {xs : List α} {k : Nat} {a b : α} (h : xs[k]? = some a)
    (ha : f a = true) : (xs.set k b).all f = (xs.all f && f b) := by
  induction xs generalizing k with
  | nil => simp at h
  | cons x xs ih =>
    cases k with
    | zero =>
      obtain rfl : x = a := by simpa using h
      simp [ha, Bool.and_comm]
    | succ k =>
      rw [List.set_cons_succ, List.all_cons, List.all_cons, ih (by simpa using h), Bool.and_assoc]

theorem set_self {α : Type} {xs : List α} {k : Nat} {a : α} (h : xs[k]? = some a) : xs.set k a = xs := by
  obtain ⟨hk, rfl⟩ := List.getElem?_eq_some_iff.mp h
  exact List.set_getElem_self hk

/-- A queued task runs: its command has been tried and its result code says how it went. -/
theorem PoolInv.run {done : List (List DumpObj)} {cur : List DumpObj} {pool : Pool} {t t' : Trace}
    (h : PoolInv done cur pool t) {k : Nat} {p : SplitParams} (hk : k ∈ pool.queued)
    (hp : pool.params[k]? = some p) {n : Nat} {r : Int}
    (hs : Sends n [restoreCommand (done.getD k [])] t' r) :
    PoolInv done cur
      { pool with params := pool.params.set k { p with result_code := r }, queued := pool.queued.erase k }
      (t ++ t') where
  argv := h.argv
  bounds := by
    rw [← h.bounds, List.map_set]
    exact set_self (by rw [List.getElem?_map, hp]; rfl)
  ne := h.ne
  nodup := h.nodup.erase k
  lt := fun j hj => h.lt j (List.mem_of_mem_erase hj)
  fresh := by
    intro j hj q hq
    have hj' := (h.nodup.mem_erase_iff.mp hj)
    rw [List.getElem?_set_ne (Ne.symm hj'.1)] at hq
    exact h.fresh j hj'.2 q hq
  work := by
    obtain ⟨tried, hperm, hx⟩ := h.work
    refine ⟨tried ++ [restoreCommand (done.getD k [])], ?_, ?_⟩
    · rw [List.append_assoc]
      refine List.Perm.trans (List.Perm.append_left tried ?_) hperm
      exact ((List.perm_cons_erase hk).map fun k => restoreCommand (done.getD k [])).symm
    · rw [all_set hp (by simpa using h.fresh k hk p hp)]
      exact hx.append hs.exchange

/-! ### The workers -/

section
variable (conf : MgrtConf) {done : List (List DumpObj)} {cur : List DumpObj} {pool : Pool} {t : Trace}

/-- A worker that takes task `k` keeps the invariant, and `k` is queued no longer. -/
theorem runTask_spec (h : PoolInv done cur pool t) (k : Nat) :
    Ends (pool.runTask conf k) (fun t' pool' => PoolInv done cur pool' (t ++ t') ∧
      ∀ j ∈ pool'.queued, j ∈ pool.queued ∧ j ≠ k) fun t' => Overran (done.map restoreCommand) (t ++ t') := by
  simp only [Pool.runTask]
  cases hp : pool.params[k]? with
  | none =>
    refine .ret ⟨by simpa using h, fun j hj => ⟨hj, ?_⟩⟩
    rintro rfl
    have := h.lt j hj
    rw [← h.params_length] at this
    exact absurd (List.getElem?_eq_none_iff.mp hp) (by omega)
  | some p =>
    by_cases hk : k ∈ pool.queued
    · have hb : (bounds 0 done)[k]? = some (p.start_pos, p.end_pos) := by
        rw [← h.bounds, List.getElem?_map, hp]
        rfl
      obtain ⟨pre, b, post, hd, hpre, hpos⟩ := bounds_get hb
      obtain ⟨hstart, hend⟩ := Prod.mk.inj hpos
      rw [Nat.zero_add] at hstart hend
      have hblk : done.getD k [] = b := by
        rw [hd, ← hpre]
        simp
      have hargv : pool.argv = (pre.flatten ++ b ++ (post.flatten ++ cur)).flatMap DumpObj.args := by
        rw [h.argv, hd]
        simp
      simp only [if_pos hk, hstart, hend]
      have htask := (doSplitRestoreCmdTask_spec conf hargv (h.ne b (by rw [hd]; simp))).mono
        (fun _ _ => id) fun t' => h.overran
      refine htask.bind fun t' r hs => .ret ?_
      rw [← hblk] at hs
      have hrun := h.run hk hp hs
      rw [hstart, hend] at hrun
      refine ⟨by simpa using hrun, fun j hj => ?_⟩
      exact (h.nodup.mem_erase_iff.mp hj).symm
    · simp only [if_neg hk]
      refine .ret ⟨by simpa using h, fun j hj => ⟨hj, ?_⟩⟩
      rintro rfl
      exact hk hj

theorem runTasks_spec (h : PoolInv done cur pool t) (ks : List Nat) :
    Ends (Pool.runTasks conf ks pool) (fun t' pool' => PoolInv done cur pool' (t ++ t') ∧
      ∀ j ∈ pool'.queued, j ∈ pool.queued ∧ j ∉ ks) fun t' => Overran (done.map restoreCommand) (t ++ t') := by
  induction ks generalizing pool t with
  | nil => exact .ret ⟨by simpa using h, fun j hj => ⟨hj, List.not_mem_nil⟩⟩
  | cons k ks ih =>
    simp only [Pool.runTasks]
    refine (runTask_spec conf h k).bind ?_
    rintro t₁ pool₁ ⟨h₁, hq₁⟩
    refine (ih h₁).mono ?_ fun t₂ ht₂ => by rwa [List.append_assoc] at ht₂
    rintro t₂ pool₂ ⟨h₂, hq₂⟩
    refine ⟨by rwa [← List.append_assoc], fun j hj => ?_⟩
    obtain ⟨hj₁, hks⟩ := hq₂ j hj
    obtain ⟨hj₀, hk⟩ := hq₁ j hj₁
    exact ⟨hj₀, by simp [hk, hks]⟩

theorem yield_spec (h : PoolInv done cur pool t) :
    Ends (pool.yield conf) (fun t' pool' => PoolInv done cur pool' (t ++ t'))
      fun t' => Overran (done.map restoreCommand) (t ++ t') := by
  simp only [Pool.yield, Prog.perform_bind]
  refine .call fun (picks : List Nat) => (runTasks_spec conf (h.schedule picks) picks).mono ?_ fun t' ht' => ?_
  · rintro t' pool' ⟨h', -⟩
    rwa [List.append_assoc] at h'
  · rwa [List.append_assoc] at ht'

/-- After the wait nothing is queued. -/
theorem wait_spec (h : PoolInv done cur pool t) :
    Ends (pool.wait conf) (fun t' pool' => PoolInv done cur pool' (t ++ t') ∧ pool'.queued = [])
      fun t' => Overran (done.map restoreCommand) (t ++ t') := by
  simp only [Pool.wait]
  refine (yield_spec conf h).bind fun t₁ pool₁ h₁ => (runTasks_spec conf h₁ pool₁.queued).mono ?_
    fun t₂ ht₂ => by rwa [List.append_assoc] at ht₂
  rintro t₂ pool₂ ⟨h₂, hq⟩
  refine ⟨by rwa [← List.append_assoc], List.eq_nil_iff_forall_not_mem.mpr fun j hj => ?_⟩
  exact (hq j hj).2 (hq j hj).1

/-! ### The loop that fills the array -/

theorem putAll_spec (objs : List DumpObj) (h : PoolInv done cur pool t) :
    Ends (Batch.putAll (Pool.put conf) objs pool) (fun t' pool' => PoolInv done (cur ++ objs) pool' (t ++ t'))
      fun t' => Overran (done.map restoreCommand) (t ++ t') := by
  induction objs generalizing cur pool t with
  | nil => exact .ret (by simpa using h)
  | cons obj objs ih =>
    simp only [Batch.putAll, Pool.put, bind_assoc]
    refine (yield_spec conf h).bind fun t₁ pool₁ h₁ => (ih (h₁.put obj)).mono (fun t₂ pool₂ h₂ => ?_)
      fun t₂ ht₂ => by rwa [List.append_assoc] at ht₂
    rwa [List.append_assoc cur, List.append_assoc t] at h₂

theorem eachBatch_pool (bs : List (List DumpObj)) (hne : ∀ b ∈ bs, b ≠ []) (h : PoolInv done [] pool t) :
    Ends (Batch.eachBatch (Pool.put conf) (fun pool start_pos i => return some (pool.addWork start_pos i))
      bs done.flatten.length pool)
      (fun t' out => ∃ pool', out = some pool' ∧ PoolInv (done ++ bs) [] pool' (t ++ t'))
      fun t' => Overran ((done ++ bs).map restoreCommand) (t ++ t') := by
  induction bs generalizing done pool t with
  | nil => exact .ret ⟨pool, rfl, by simpa using h⟩
  | cons b bs ih =>
    simp only [Batch.eachBatch]
    have hput := (putAll_spec conf b h).mono (fun _ _ => id) fun t₁ ht₁ =>
      ht₁.subperm (((List.sublist_append_left done (b :: bs)).map restoreCommand).subperm)
    refine hput.bind fun t₁ pool₁ h₁ => ?_
    have hadd := h₁.addWork (by simpa using hne b (List.mem_cons_self ..))
    simp only [List.nil_append] at hadd
    have hrec := ih (fun c hc => hne c (List.mem_cons_of_mem b hc)) hadd
    simp only [List.flatten_append, List.flatten_singleton, List.length_append] at hrec
    refine hrec.mono ?_ fun t₂ ht₂ => by simpa using ht₂
    rintro t₂ out ⟨pool₂, rfl, h₂⟩
    exact ⟨pool₂, rfl, by simpa using h₂⟩

theorem fill_spec {objs : List DumpObj} (hne : objs ≠ []) :
    Ends (Pool.fill conf objs) (fun t out => ∃ pool, out = some pool ∧ PoolInv (splits objs) [] pool t)
      (Overran ((splits objs).map restoreCommand)) := by
  rw [Pool.fill, Batch.batchLoop_eq]
  exact eachBatch_pool conf (splits objs) (Batch.greedy_ne_nil _ _ hne) .init

end

/-- **The pool sends what `batchSendSlotsRestore` sends**, whichever tasks run when. -/
theorem batchSendWithThreadPoolSlotsRestore_spec (conf : MgrtConf) {objs : List DumpObj} (hne : objs ≠ []) :
    Ends (batchSendWithThreadPoolSlotsRestore conf objs) (Sends objs.length ((splits objs).map restoreCommand))
      (Overran ((splits objs).map restoreCommand)) := by
  dsimp only [batchSendWithThreadPoolSlotsRestore]
  refine (fill_spec conf hne).bind ?_
  rintro t out ⟨pool, rfl, h⟩
  refine (wait_spec conf h).bind ?_
  rintro t' pool' ⟨h', hq⟩
  obtain ⟨tried, hperm, hx⟩ := h'.work
  rw [hq, List.map_nil, List.append_nil] at hperm
  have hsends := Sends.of_ok (n := objs.length) (hx.perm hperm)
  have hany : pool'.params.any (·.result_code == SLOTS_MGRT_ERR) =
      !pool'.params.all (·.result_code != SLOTS_MGRT_ERR) := by
    simp only [List.not_all_eq_any_not, bne, Bool.not_not]
  rw [hany]
  cases hall : pool'.params.all (·.result_code != SLOTS_MGRT_ERR) with
  | true =>
    rw [hall] at hsends
    exact .ret (by simpa using hsends)
  | false =>
    rw [hall] at hsends
    exact .ret (by simpa using hsends)

end RedisXSlot
