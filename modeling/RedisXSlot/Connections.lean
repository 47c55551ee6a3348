import RedisXSlot.Connect
import RedisXSlot.UtilProofs

/-! The cached connections.

A worker looks its connection up under a name that ends in its thread id, opens one if there
is none, and stamps it with the time it came with; it stamps it again when all splits have
been sent. In between the cron closes every connection whose stamp is older than
`MGRT_BATCH_KEY_TIMEOUT`, in use or not. So a connection in use is safe as long as no sweep
finds its worker at it for longer than that (`in_use_kept_iff`). -/
namespace RedisXSlot

/-- In seconds. -/
def MGRT_BATCH_KEY_TIMEOUT : Nat := 30

/-- `db_slot_mgrt_connect`; `id` says which one was opened. -/
structure MgrtConnect where
  id : Nat
  last_time : Nat

/-- What a worker that has a connection is at. -/
inductive Stage where
  /-- `SELECT` comes next. -/
  | connected
  /-- Another split can be sent. -/
  | sending
  /-- A split has been sent. -/
  | waiting
  /-- The one split of a task is over. -/
  | finished
  /-- `SlotsMGRT_CloseConn` comes next. -/
  | closing
  deriving DecidableEq

/-- The connection a worker has got, and when it last looked at the clock for it. -/
structure Lease where
  target : Target
  id : Nat
  since : Nat

inductive Phase where
  | idle
  /-- In `SlotsMGRT_GetConnCtx`, having looked at the clock. -/
  | entered (target : Target) (unixtime : Nat)
  | holding (lease : Lease) (stage : Stage)

structure Conns where
  /-- In milliseconds. -/
  clock : Nat
  slotsmgrt_cached_ctx_connects : Bytes → Option MgrtConnect
  /-- How many connections have been opened. -/
  opened : Nat
  phase : Tid → Phase

inductive ConnStep where
  | advance (ms : Nat)
  /-- `SlotsMGRT_GetConnCtx` is called. -/
  | enter (w : Tid) (target : Target)
  /-- It looks the connection up, or opens one if the target lets it. -/
  | getConn (w : Tid) (c : ConnectAnswer)
  | select (w : Tid) (ok : Bool)
  | send (w : Tid)
  | reply (w : Tid) (ok : Bool)
  /-- The final update of `last_time`. -/
  | update (w : Tid)
  | closeConn (w : Tid)
  | closeTimedoutConns

namespace Conns

def init : Conns := ⟨0, fun _ => none, 0, fun _ => .idle⟩

variable (s : Conns)

/-- `get_unixtime`. -/
def unixtime : Nat := s.clock / 1000

def setPhase (w : Tid) (p : Phase) : Conns := { s with phase := Function.update s.phase w p }

def setConn (name : Bytes) (conn : Option MgrtConnect) : Conns :=
  { s with slotsmgrt_cached_ctx_connects := Function.update s.slotsmgrt_cached_ctx_connects name conn }

def timedOut (conn : MgrtConnect) : Bool := s.unixtime - conn.last_time > MGRT_BATCH_KEY_TIMEOUT

/-- A worker of a thread pool (`pooled`) runs `doSplitRestoreCmdTask` for a single split; else it
runs `MGRT`. A step that is not its worker's next does nothing; `none` is a connect that fails with
a text that overruns `errLog`. -/
def step (pooled : Bool) : ConnStep → Option Conns
  | .advance ms => some { s with clock := s.clock + ms }
  | .enter w target =>
    match s.phase w with
    | .idle => some (s.setPhase w (.entered target s.unixtime))
    | _ => some s
  | .getConn w c =>
    match s.phase w with
    | .entered target unixtime =>
      let name := getConnName target w
      match s.slotsmgrt_cached_ctx_connects name with
      | some conn =>
        some ((s.setConn name (some { conn with last_time := unixtime })).setPhase w
          (.holding ⟨target, conn.id, unixtime⟩ .connected))
      | none =>
        if c.overruns name then none
        else if c = .connected then
          some (({ s with opened := s.opened + 1 }.setConn name (some ⟨s.opened, unixtime⟩)).setPhase w
            (.holding ⟨target, s.opened, unixtime⟩ .connected))
        else some (s.setPhase w .idle)
    | _ => some s
  | .select w ok =>
    match s.phase w with
    | .holding lease .connected =>
      if ok then some (s.setPhase w (.holding lease .sending))
      -- A task returns without closing its connection.
      else if pooled then some (s.setPhase w .idle)
      else some (s.setPhase w (.holding lease .closing))
    | _ => some s
  | .send w =>
    match s.phase w with
    | .holding lease .sending => some (s.setPhase w (.holding lease .waiting))
    | _ => some s
  | .reply w ok =>
    match s.phase w with
    | .holding lease .waiting =>
      some (s.setPhase w (.holding lease (if pooled then .finished else if ok then .sending else .closing)))
    | _ => some s
  | .update w =>
    match s.phase w with
    | .holding lease stage =>
      if stage = .sending ∨ stage = .finished then
        let name := getConnName lease.target w
        some ((s.setConn name ((s.slotsmgrt_cached_ctx_connects name).map fun conn =>
          if conn.id = lease.id then { conn with last_time := s.unixtime } else conn)).setPhase w
          (.holding { lease with since := s.unixtime } .closing))
      else some s
    | _ => some s
  | .closeConn w =>
    match s.phase w with
    | .holding lease .closing => some ((s.setConn (getConnName lease.target w) none).setPhase w .idle)
    | _ => some s
  | .closeTimedoutConns =>
    some { s with slotsmgrt_cached_ctx_connects := fun name =>
        (s.slotsmgrt_cached_ctx_connects name).filter fun conn => !s.timedOut conn }

/-- The step closes the connection `id` for being timed out. -/
def SweepCloses (id : Nat) : ConnStep → Prop
  | .closeTimedoutConns => ∃ name conn, s.slotsmgrt_cached_ctx_connects name = some conn ∧ conn.id = id ∧ s.timedOut conn = true
  | _ => False

/-- No step closes a connection that a worker has got and not closed, for being timed out. Behind a
text that overruns `errLog` nothing more is asked. -/
def InUseKept (pooled : Bool) : Conns → List ConnStep → Prop
  | _, [] => True
  | s, st :: sts =>
    (∀ w lease stage, s.phase w = .holding lease stage → ¬ s.SweepCloses lease.id st) ∧
      ∀ s', s.step pooled st = some s' → InUseKept pooled s' sts

/-- No sweep comes when a worker has had its connection for too long: since it asked for it, or
since all its splits were sent. -/
def InTime (pooled : Bool) : Conns → List ConnStep → Prop
  | _, [] => True
  | s, st :: sts =>
    (st = .closeTimedoutConns → ∀ w lease stage, s.phase w = .holding lease stage →
      s.unixtime - lease.since ≤ MGRT_BATCH_KEY_TIMEOUT) ∧ ∀ s', s.step pooled st = some s' → InTime pooled s' sts

end Conns

/-! ### Names -/

/-- The thread ids of equal names are equal. -/
theorem getConnName_tid {t t' : Target} {w w' : Tid} (h : getConnName t w = getConnName t' w') : w = w' := by
  have hdigit (n : Nat) : ∀ c ∈ (decimal n).reverse, (c != 64) = true := by
    intro c hc
    have hc := decimal_digits n c (List.mem_reverse.mp hc)
    rw [bne_iff_ne]
    rintro rfl
    exact absurd hc.2 (by decide)
  have hrev (t : Target) (w : Tid) : (getConnName t w).reverse.takeWhile (· != 64) = (decimal w.id).reverse := by
    rw [getConnName, ll2string_natCast _ (List.length_replicate ..) w.le, List.reverse_append, List.reverse_append,
      List.takeWhile_append_of_pos (hdigit w.id)]
    simp
  have heq : decimal w.id = decimal w'.id := by
    rw [← List.reverse_inj, ← hrev t w, h, hrev t' w']
  have hid := congrArg (digitsValue 0) heq
  rw [digitsValue_decimal, digitsValue_decimal] at hid
  cases w
  cases w'
  cases hid
  rfl

/-! ### What a worker has got -/

namespace Conns

/-- What a worker has got is cached under its name with its stamp, and nowhere else. -/
structure Tended (s : Conns) : Prop where
  held : ∀ w lease stage, s.phase w = .holding lease stage →
    s.slotsmgrt_cached_ctx_connects (getConnName lease.target w) = some ⟨lease.id, lease.since⟩
  fresh : ∀ name conn, s.slotsmgrt_cached_ctx_connects name = some conn → conn.id < s.opened
  unique : ∀ name name' conn conn', s.slotsmgrt_cached_ctx_connects name = some conn →
    s.slotsmgrt_cached_ctx_connects name' = some conn' → conn.id = conn'.id → name = name'

theorem tended_init : init.Tended := ⟨nofun, nofun, nofun⟩

section
variable {s : Conns}

theorem phase_setPhase (s : Conns) (w w' : Tid) (p : Phase) :
    (s.setPhase w p).phase w' = if w' = w then p else s.phase w' := Function.update_apply ..

theorem Tended.setPhase (h : s.Tended) {w : Tid} {p : Phase}
    (hp : ∀ lease stage, p = .holding lease stage →
      s.slotsmgrt_cached_ctx_connects (getConnName lease.target w) = some ⟨lease.id, lease.since⟩) :
    (s.setPhase w p).Tended where
  held w' lease stage hphase := by
    rw [phase_setPhase] at hphase
    split at hphase
    next heq =>
      subst heq
      exact hp lease stage hphase
    next => exact h.held w' lease stage hphase
  fresh := h.fresh
  unique := h.unique

/-- A worker may change the connection under its name, if that stays the only one of its id. -/
theorem Tended.setOwn (h : s.Tended) {w : Tid} {target : Target} {conn : Option MgrtConnect} {p : Phase} {opened : Nat}
    (hopened : s.opened ≤ opened)
    (hp : ∀ lease stage, p = .holding lease stage → lease.target = target ∧ conn = some ⟨lease.id, lease.since⟩)
    (hconn : ∀ c, conn = some c → c.id < opened ∧ ∀ name c', s.slotsmgrt_cached_ctx_connects name = some c' →
      c'.id = c.id → name = getConnName target w) :
    (({ s with opened := opened }.setConn (getConnName target w) conn).setPhase w p).Tended := by
  have hcache (name : Bytes) : (({ s with opened := opened }.setConn (getConnName target w) conn).setPhase w
      p).slotsmgrt_cached_ctx_connects name =
        if name = getConnName target w then conn else s.slotsmgrt_cached_ctx_connects name := Function.update_apply ..
  constructor
  case held =>
    intro w' lease stage hphase
    rw [phase_setPhase] at hphase
    rw [hcache]
    split at hphase
    next heq =>
      subst heq
      obtain ⟨htarget, hsome⟩ := hp lease stage hphase
      rw [htarget, if_pos rfl]
      exact hsome
    next hne =>
      rw [if_neg fun hname => hne (getConnName_tid hname)]
      exact h.held w' lease stage hphase
  case fresh =>
    intro name c hc
    rw [hcache] at hc
    split at hc
    next => exact (hconn c hc).1
    next => exact (h.fresh name c hc).trans_le hopened
  case unique =>
    intro name name' c c' hc hc' hid
    rw [hcache] at hc hc'
    split at hc
    next hname =>
      split at hc'
      next hname' => rw [hname, hname']
      next => exact hname.trans ((hconn c hc).2 name' c' hc' hid.symm).symm
    next =>
      split at hc'
      next hname' => exact ((hconn c' hc').2 name c hc hid).trans hname'.symm
      next => exact h.unique name name' c c' hc hc' hid

/-- **Every step keeps what the workers have got in its place**, a sweep if it comes in time. -/
theorem Tended.step (h : s.Tended) (pooled : Bool) {st : ConnStep}
    (htime : st = .closeTimedoutConns → ∀ w lease stage, s.phase w = .holding lease stage →
      s.unixtime - lease.since ≤ MGRT_BATCH_KEY_TIMEOUT) {s' : Conns} (hstep : s.step pooled st = some s') :
    s'.Tended := by
  have hstay {w : Tid} {lease : Lease} {stage : Stage} (hw : s.phase w = .holding lease stage) (stage' : Stage) :
      (s.setPhase w (.holding lease stage')).Tended :=
    h.setPhase fun lease' _ heq => by
      cases heq
      exact h.held w lease stage hw
  have hidle (w : Tid) : (s.setPhase w .idle).Tended := h.setPhase fun _ _ heq => by cases heq
  cases st with
  | advance ms =>
    cases hstep
    exact ⟨h.held, h.fresh, h.unique⟩
  | enter w target =>
    rw [Conns.step] at hstep
    split at hstep
    next =>
      cases hstep
      exact h.setPhase fun _ _ heq => by cases heq
    next =>
      cases hstep
      exact h
  | getConn w c =>
    rw [Conns.step] at hstep
    split at hstep
    next target unixtime hw =>
      dsimp only at hstep
      split at hstep
      next conn hc =>
        cases hstep
        refine h.setOwn (Nat.le_refl s.opened) (fun lease stage heq => ?_) fun c heq => ?_
        · cases heq
          exact ⟨rfl, rfl⟩
        · cases heq
          exact ⟨h.fresh _ conn hc, fun name c' hc' hid => h.unique _ _ c' conn hc' hc hid⟩
      next hc =>
        split_ifs at hstep
        next =>
          cases hstep
          refine h.setOwn (Nat.le_succ _) (fun lease stage heq => ?_) fun c heq => ?_
          · cases heq
            exact ⟨rfl, rfl⟩
          · cases heq
            exact ⟨Nat.lt_succ_self _, fun name c' hc' hid => absurd hid (h.fresh name c' hc').ne⟩
        next =>
          cases hstep
          exact hidle w
    next =>
      cases hstep
      exact h
  | select w ok =>
    rw [Conns.step] at hstep
    split at hstep
    next lease hw =>
      split_ifs at hstep
      next =>
        cases hstep
        exact hstay hw _
      next =>
        cases hstep
        exact hidle w
      next =>
        cases hstep
        exact hstay hw _
    next =>
      cases hstep
      exact h
  | send w =>
    rw [Conns.step] at hstep
    split at hstep
    next lease hw =>
      cases hstep
      exact hstay hw _
    next =>
      cases hstep
      exact h
  | reply w ok =>
    rw [Conns.step] at hstep
    split at hstep
    next lease hw =>
      cases hstep
      exact hstay hw _
    next =>
      cases hstep
      exact h
  | update w =>
    rw [Conns.step] at hstep
    split at hstep
    next lease stage hw =>
      split at hstep
      next =>
        have hheld := h.held w lease stage hw
        dsimp only at hstep
        rw [hheld, Option.map_some, if_pos rfl] at hstep
        cases hstep
        refine h.setOwn (Nat.le_refl s.opened) (fun lease' stage' heq => ?_) fun c heq => ?_
        · cases heq
          exact ⟨rfl, rfl⟩
        · cases heq
          exact ⟨h.fresh _ ⟨lease.id, lease.since⟩ hheld, fun name c' hc' hid => h.unique _ _ c' _ hc' hheld hid⟩
      next =>
        cases hstep
        exact h
    next =>
      cases hstep
      exact h
  | closeConn w =>
    rw [Conns.step] at hstep
    split at hstep
    next lease hw =>
      cases hstep
      exact h.setOwn (Nat.le_refl s.opened) (fun _ _ heq => by cases heq) fun _ heq => by cases heq
    next =>
      cases hstep
      exact h
  | closeTimedoutConns =>
    cases hstep
    have hold {name : Bytes} {conn : MgrtConnect}
        (hc : (s.slotsmgrt_cached_ctx_connects name).filter (fun conn => !s.timedOut conn) = some conn) :
        s.slotsmgrt_cached_ctx_connects name = some conn := (Option.filter_eq_some_iff.mp hc).1
    refine ⟨fun w lease stage hw => ?_, fun name conn hc => h.fresh name conn (hold hc),
      fun name name' conn conn' hc hc' => h.unique name name' conn conn' (hold hc) (hold hc')⟩
    have hin := htime rfl w lease stage hw
    refine Option.filter_eq_some_iff.mpr ⟨h.held w lease stage hw, ?_⟩
    rw [timedOut, Bool.not_eq_true', decide_eq_false_iff_not, not_lt]
    exact hin

/-- A sweep closes none of what the workers have got if and only if it comes in time. -/
theorem Tended.sweep_iff (h : s.Tended) {w : Tid} {lease : Lease} {stage : Stage} (hw : s.phase w = .holding lease stage) :
    ¬ s.SweepCloses lease.id .closeTimedoutConns ↔ s.unixtime - lease.since ≤ MGRT_BATCH_KEY_TIMEOUT := by
  have hheld := h.held w lease stage hw
  constructor
  · intro hkept
    by_contra hlate
    exact hkept ⟨_, _, hheld, rfl, decide_eq_true (not_le.mp hlate)⟩
  · intro hin ⟨name, conn, hc, hid, hout⟩
    have hname := h.unique _ _ conn _ hc hheld hid
    rw [hname, hheld] at hc
    cases hc
    exact absurd (of_decide_eq_true hout) (not_lt.mpr hin)

theorem Tended.inUseKept_iff (h : s.Tended) (pooled : Bool) (sts : List ConnStep) :
    s.InUseKept pooled sts ↔ s.InTime pooled sts := by
  induction sts generalizing s with
  | nil => exact Iff.rfl
  | cons st sts ih =>
    have hfirst : (∀ w lease stage, s.phase w = .holding lease stage → ¬ s.SweepCloses lease.id st) ↔
        (st = .closeTimedoutConns → ∀ w lease stage, s.phase w = .holding lease stage →
          s.unixtime - lease.since ≤ MGRT_BATCH_KEY_TIMEOUT) := by
      cases st with
      | closeTimedoutConns =>
        rw [forall_prop_of_true rfl]
        exact forall_congr' fun w => forall_congr' fun lease => forall_congr' fun stage => forall_congr' fun hw =>
          h.sweep_iff hw
      | _ => exact iff_of_true (fun _ _ _ _ => id) nofun
    rw [InUseKept, InTime, hfirst]
    refine and_congr_right fun htime => forall_congr' fun s' => forall_congr' fun hstep => ?_
    exact ih (h.step pooled htime hstep)

end

/-- **When the cron leaves the connections in use alone**: over any run no sweep closes a connection
that a worker has got and not closed, if and only if no sweep finds a worker that asked for
its connection, or was done sending, more than `MGRT_BATCH_KEY_TIMEOUT` seconds before. -/
theorem in_use_kept_iff (pooled : Bool) (sts : List ConnStep) : init.InUseKept pooled sts ↔ init.InTime pooled sts :=
  tended_init.inUseKept_iff pooled sts

/-- One split that takes a second too long. -/
theorem not_in_use_kept : ¬ init.InUseKept false
    [.enter ⟨7, by decide⟩ ⟨[104], [49]⟩, .getConn ⟨7, by decide⟩ .connected, .select ⟨7, by decide⟩ true,
      .send ⟨7, by decide⟩, .advance 31000, .closeTimedoutConns] := by
  rw [tended_init.inUseKept_iff]
  intro h
  have hsweep := ((((h.2 _ rfl).2 _ rfl).2 _ rfl).2 _ rfl).2 _ rfl
  exact absurd (hsweep.1 rfl ⟨7, by decide⟩ ⟨⟨[104], [49]⟩, 0, 0⟩ .waiting rfl) (by decide)

end Conns
end RedisXSlot
