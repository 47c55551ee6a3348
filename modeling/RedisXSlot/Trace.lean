import RedisXSlot.Api

/-! What a trace says.

The commands sent on the connection (`issued`), those whose reply came back fine
(`acked`; the replies to appended commands come in their order), the failures of the
connection (`Event.failed`), and the keys dumped and unlinked on the server. Each is
read off event by event, so each distributes over concatenation. -/
namespace RedisXSlot

/-- A failed connect, or a transport error, a missing or an error reply. -/
def Event.failed (e : Event) : Bool :=
  match e with
  | ⟨.connect .., a⟩ => (show ConnectAnswer from a) ≠ .connected
  | ⟨.select _, a⟩ => !NetAnswer.ok a
  | ⟨.command _, a⟩ => !NetAnswer.ok a
  | ⟨.getReply, a⟩ => !NetAnswer.ok a
  | _ => false

/-- A connect that fails with a text that does not fit in `errLog`. -/
def Event.overruns (e : Event) : Bool :=
  match e with
  | ⟨.connect _ _ name, a⟩ => ConnectAnswer.overruns name a
  | _ => false

/-- The call goes to the connection, its cache or the pool, not to the server. -/
def Call.isNet : Call → Bool
  | .getTid | .cachedConn _ | .connect .. | .closeConn .. | .select _ | .command _ | .append _ | .getReply
  | .schedule _ => true
  | _ => false

/-- Commands sent and answered at once, with their answers. -/
def commands (t : Trace) : List (List Bytes × NetAnswer) :=
  t.filterMap fun e => match e with
    | ⟨.command argv, a⟩ => some (argv, a)
    | _ => none

/-- Commands appended to the pipeline. -/
def appended (t : Trace) : List (List Bytes) :=
  t.filterMap fun e => match e with
    | ⟨.append argv, _⟩ => some argv
    | _ => none

/-- The replies read from the pipeline. -/
def replies (t : Trace) : List NetAnswer :=
  t.filterMap fun e => match e with
    | ⟨.getReply, a⟩ => some a
    | _ => none

/-- Every command that went out. -/
def issued (t : Trace) : List (List Bytes) := (commands t).map Prod.fst ++ appended t

/-- The commands of a list of exchanges whose reply is fine. -/
def fine (xs : List (List Bytes × NetAnswer)) : List (List Bytes) :=
  (xs.filter fun x => x.2.ok).map Prod.fst

/-- Every command the target has acknowledged. -/
def acked (t : Trace) : List (List Bytes) :=
  fine (commands t) ++ fine ((appended t).zip (replies t))

/-- The keys unlinked, in order. -/
def unlinked (t : Trace) : List Bytes :=
  t.filterMap fun e => match e with
    | ⟨.unlink key, _⟩ => some key
    | _ => none

section
variable (t t' : Trace)

@[simp] theorem commands_append : commands (t ++ t') = commands t ++ commands t' := List.filterMap_append
@[simp] theorem appended_append : appended (t ++ t') = appended t ++ appended t' := List.filterMap_append
@[simp] theorem replies_append : replies (t ++ t') = replies t ++ replies t' := List.filterMap_append
@[simp] theorem unlinked_append : unlinked (t ++ t') = unlinked t ++ unlinked t' := List.filterMap_append

@[simp] theorem commands_nil : commands [] = [] := rfl
@[simp] theorem appended_nil : appended [] = [] := rfl
@[simp] theorem replies_nil : replies [] = [] := rfl
@[simp] theorem unlinked_nil : unlinked [] = [] := rfl

end

/-- Commands that went out on connections that answer at once, and nothing pipelined. -/
structure Direct (t : Trace) : Prop where
  appended : appended t = []
  replies : replies t = []

theorem Direct.nil : Direct [] := ⟨rfl, rfl⟩

theorem Direct.append {t t' : Trace} (h : Direct t) (h' : Direct t') : Direct (t ++ t') :=
  ⟨by rw [appended_append, h.appended, h'.appended]; rfl,
    by rw [replies_append, h.replies, h'.replies]; rfl⟩

theorem Direct.issued {t : Trace} (h : Direct t) : issued t = (commands t).map Prod.fst := by
  simp [RedisXSlot.issued, h.appended]

theorem Direct.acked {t : Trace} (h : Direct t) : acked t = fine (commands t) := by
  simp [RedisXSlot.acked, h.appended, fine]

/-- No exchange failed. -/
def Clean (t : Trace) : Prop := ∀ e ∈ t, e.failed = false

theorem clean_append {t t' : Trace} : Clean (t ++ t') ↔ Clean t ∧ Clean t' := by
  simp [Clean, or_imp, forall_and]

/-- Every connect that failed has found room for its text. -/
def Fits (t : Trace) : Prop := ∀ e ∈ t, e.overruns = false

theorem fits_nil : Fits [] := fun _ he => absurd he List.not_mem_nil

theorem fits_append {t t' : Trace} : Fits (t ++ t') ↔ Fits t ∧ Fits t' := by
  simp [Fits, or_imp, forall_and]

theorem not_fits_iff {t : Trace} : ¬ Fits t ↔ ∃ e ∈ t, e.overruns = true := by
  simp [Fits]

/-- Only a connect that fails writes to `errLog`. -/
theorem Event.overruns_of_ok {e : Event} (h : e.failed = false) : e.overruns = false := by
  unfold Event.overruns
  split
  next a =>
    have ha : (show ConnectAnswer from a) = .connected := by simpa [Event.failed] using h
    rw [ha]
    rfl
  next => rfl

theorem Clean.fits {t : Trace} (h : Clean t) : Fits t := fun e he => Event.overruns_of_ok (h e he)

theorem Clean.commands_ok {t : Trace} (h : Clean t) : ∀ x ∈ commands t, x.2.ok = true := by
  intro x hx
  obtain ⟨e, he, hx⟩ := List.mem_filterMap.mp hx
  have := h e he
  split at hx
  · cases hx
    simpa [Event.failed] using this
  · cases hx

theorem Clean.replies_ok {t : Trace} (h : Clean t) : ∀ a ∈ replies t, a.ok = true := by
  intro a ha
  obtain ⟨e, he, ha⟩ := List.mem_filterMap.mp ha
  have := h e he
  split at ha
  · cases ha
    simpa [Event.failed] using this
  · cases ha

theorem fine_of_ok {xs : List (List Bytes × NetAnswer)} (h : ∀ x ∈ xs, x.2.ok = true) :
    fine xs = xs.map Prod.fst := by
  rw [fine, List.filter_eq_self.mpr h]

/-- Without a failure, everything sent at once and everything whose reply was awaited
has been acknowledged. -/
theorem Clean.acked {t : Trace} (h : Clean t) (hlen : (replies t).length = (appended t).length) :
    acked t = issued t := by
  have hz : ∀ x ∈ (appended t).zip (replies t), x.2.ok = true := fun x hx =>
    h.replies_ok _ (List.of_mem_zip hx).2
  rw [RedisXSlot.acked, fine_of_ok h.commands_ok, fine_of_ok hz, List.map_fst_zip (by omega),
    RedisXSlot.issued]

/-- Connection traffic unlinks nothing. -/
theorem unlinked_of_net {t : Trace} (h : ∀ e ∈ t, e.call.isNet = true) : unlinked t = [] := by
  apply List.filterMap_eq_nil_iff.mpr
  intro e he
  have := h e he
  split
  · simp [Call.isNet] at this
  · rfl

end RedisXSlot
