import RedisXSlot.PoolProofs

/-! `MGRT` as a whole: one connection for the two sequential paths, one for each task on
the pool path, and in each case the result of the path. -/
namespace RedisXSlot
open Interaction

/-- The pool is used as soon as it has threads. -/
def MgrtConf.usesPool (conf : MgrtConf) : Bool := conf.slots_mgrt_threads > 0

def MgrtConf.usesPipeline (conf : MgrtConf) : Bool :=
  !conf.usesPool && conf.mgrtType.any isWithPipeline && !conf.async

/-- The commands `MGRT` has to send. -/
def mgrtCommands (conf : MgrtConf) (objs : List DumpObj) : List (List Bytes) :=
  if conf.usesPipeline then objs.map fun obj => restoreCommand [obj]
  else (splits objs).map restoreCommand

/-- **MGRT tells the truth**: it ends in SLOTS_MGRT_ERR exactly if something on the way
failed, and else with the number of objects and all its commands acknowledged; unless a
connect fails with a text that is too long for `errLog`. -/
theorem mgrt_spec (conf : MgrtConf) {objs : List DumpObj} (hne : objs ≠ []) :
    Ends (mgrt conf objs) (Sends objs.length (mgrtCommands conf objs)) (Overran (mgrtCommands conf objs)) := by
  simp only [mgrt]
  split
  next hthreads =>
    have hpipe : conf.usesPipeline = false := by
      simp [MgrtConf.usesPipeline, MgrtConf.usesPool, hthreads]
    rw [mgrtCommands, hpipe]
    exact batchSendWithThreadPoolSlotsRestore_spec conf hne
  next hthreads =>
    have hpool : conf.usesPool = false := by simpa [MgrtConf.usesPool] using hthreads
    have hfail {t : Trace} (h : Exchange [] t false) :
        Sends objs.length (mgrtCommands conf objs) t SLOTS_MGRT_ERR :=
      .of_ok (by simpa using h.stop (mgrtCommands conf objs))
    have hget := (slotsmgrtGetConnCtx_spec conf).mono (fun _ _ => id) fun t ht =>
      ht.subperm (List.nil_subperm (l := mgrtCommands conf objs))
    refine hget.bind fun t ok hconn => Spec.ends ?_ _
    cases ok with
    | false => exact .ret (by simpa using hfail hconn)
    | true =>
      simp only [if_true, Prog.perform_bind]
      refine .call fun a => ?_
      have hsel := hconn.append (exchange_select conf.db a)
      have hclose : a.ok = false →
          Spec (do ask (.closeConn conf.host conf.port); return SLOTS_MGRT_ERR : Act Int) fun t' r =>
            Sends objs.length (mgrtCommands conf objs) (t ++ ⟨.select conf.db, a⟩ :: t') r := by
        intro ha
        rw [ha] at hsel
        refine .call fun u => .ret ?_
        have hx := hsel.append (exchange_closeConn conf.host conf.port u)
        exact hfail (by simpa using hx)
      have hfinish {cmds : List (List Bytes)} {path : Act Int} (hpath : Spec path (Sends objs.length cmds))
          (ha : a.ok = true) :
          Spec (do let ret ← path; ask (.closeConn conf.host conf.port); return ret) fun t' =>
            Sends objs.length cmds (t ++ ⟨.select conf.db, a⟩ :: t') := by
        refine hpath.bind fun t' r hs => .call fun u => .ret ?_
        have hx := (hsel.append hs.exchange).append (exchange_closeConn conf.host conf.port u)
        exact ⟨by simpa [ha] using hx, hs.count⟩
      simp only [mgrtCommands, MgrtConf.usesPipeline, hpool, Bool.not_false, Bool.true_and] at hclose ⊢
      cases a with
      | failed => exact hclose rfl
      | missing => exact hclose rfl
      | reply r =>
        cases r with
        | error => exact hclose rfl
        | integer | status =>
          by_cases hpipe : (conf.mgrtType.any isWithPipeline && !conf.async) = true
          · simp only [if_pos hpipe]
            exact hfinish (pipelineSlotsRestore_spec hne) rfl
          · simp only [if_neg hpipe]
            exact hfinish (batchSendSlotsRestore_spec hne) rfl

end RedisXSlot
