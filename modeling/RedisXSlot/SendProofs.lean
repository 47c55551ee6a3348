import RedisXSlot.Send
import RedisXSlot.Trace
import RedisXSlot.UtilProofs

/-! What the three send paths send, and what they report.

An `Exchange` is a stretch of connection traffic that has to send certain commands and
reports success or failure. Exchanges compose, so each path is put together from those
of its steps: on the two batching paths one command for each batch that `Batch.greedy`
cuts, on the pipeline path one for each object. `mgrt_spec` is the sum of it: whatever
the network does, MGRT ends in SLOTS_MGRT_ERR exactly if something failed, and else with
the number of objects and every command acknowledged. -/
namespace RedisXSlot
open Interaction

/-- The SLOTSRESTORE command that carries `objs`. -/
def restoreCommand (objs : List DumpObj) : List Bytes := slotsrestoreName :: objs.flatMap DumpObj.args

/-- The cuts of the send loop. -/
def splits (objs : List DumpObj) : List (List DumpObj) :=
  Batch.greedy DumpObj.size REDIS_MGRT_CMD_PARAMS_SIZE objs

/-- Connection traffic that has to send `cmds` and reports `ok`. -/
structure Exchange (cmds : List (List Bytes)) (t : Trace) (ok : Bool) : Prop where
  net : ∀ e ∈ t, e.call.isNet = true
  fits : Fits t
  ok_iff : ok = true ↔ Clean t
  issued : ∃ unsent, (issued t ++ unsent).Perm cmds ∧ (ok = true → unsent = [])
  awaited : (replies t).length ≤ (appended t).length
  answered : ok = true → (replies t).length = (appended t).length

theorem issued_append_perm (t t' : Trace) : (issued (t ++ t')).Perm (issued t ++ issued t') := by
  simp only [issued, commands_append, appended_append, List.map_append, List.append_assoc]
  apply List.Perm.append_left
  rw [← List.append_assoc, ← List.append_assoc]
  exact List.Perm.append_right _ List.perm_append_comm

namespace Exchange
variable {cmds cmds' : List (List Bytes)} {t t' : Trace} {ok ok' : Bool}

/-- Traffic that neither sends a command nor waits for a reply. -/
theorem quiet (hnet : ∀ e ∈ t, e.call.isNet = true) (hfits : Fits t) (hok : ok = true ↔ Clean t)
    (hi : RedisXSlot.issued t = []) (hr : replies t = []) : Exchange [] t ok where
  net := hnet
  fits := hfits
  ok_iff := hok
  issued := ⟨[], by rw [hi]; exact .refl _, fun _ => rfl⟩
  awaited := by
    rw [hr]
    exact Nat.zero_le _
  answered := fun _ => by
    have happ : appended t = [] := (List.append_eq_nil_iff.mp hi).2
    rw [hr, happ]
    rfl

theorem nil : Exchange [] [] true :=
  quiet (fun _ he => absurd he (List.not_mem_nil)) fits_nil
    ⟨fun _ _ he => absurd he (List.not_mem_nil), fun _ => rfl⟩ rfl rfl

theorem append (h : Exchange cmds t ok) (h' : Exchange cmds' t' ok') :
    Exchange (cmds ++ cmds') (t ++ t') (ok && ok') where
  net := fun e he => (List.mem_append.mp he).elim (h.net e) (h'.net e)
  fits := fits_append.mpr ⟨h.fits, h'.fits⟩
  ok_iff := by rw [clean_append, Bool.and_eq_true, h.ok_iff, h'.ok_iff]
  issued := by
    obtain ⟨u, hu, hnil⟩ := h.issued
    obtain ⟨u', hu', hnil'⟩ := h'.issued
    refine ⟨u ++ u', ?_, fun hok => ?_⟩
    · have hmid : (RedisXSlot.issued t ++ RedisXSlot.issued t' ++ (u ++ u')).Perm
          (RedisXSlot.issued t ++ u ++ (RedisXSlot.issued t' ++ u')) := by
        simp only [List.append_assoc]
        apply List.Perm.append_left
        rw [← List.append_assoc, ← List.append_assoc]
        exact List.Perm.append_right _ List.perm_append_comm
      exact ((issued_append_perm t t').append_right _).trans (hmid.trans (hu.append hu'))
    · rw [Bool.and_eq_true] at hok
      rw [hnil hok.1, hnil' hok.2, List.append_nil]
  awaited := by
    rw [replies_append, appended_append, List.length_append, List.length_append]
    exact Nat.add_le_add h.awaited h'.awaited
  answered := fun hok => by
    rw [Bool.and_eq_true] at hok
    rw [replies_append, appended_append, List.length_append, List.length_append, h.answered hok.1,
      h'.answered hok.2]

/-- A failed exchange leaves later commands unsent. -/
theorem stop (h : Exchange cmds t false) (cmds' : List (List Bytes)) : Exchange (cmds ++ cmds') t false where
  net := h.net
  fits := h.fits
  ok_iff := h.ok_iff
  issued := by
    obtain ⟨u, hu, -⟩ := h.issued
    refine ⟨u ++ cmds', ?_, by simp⟩
    rw [← List.append_assoc]
    exact hu.append_right cmds'
  awaited := h.awaited
  answered := by simp

theorem perm (h : Exchange cmds t ok) (hp : cmds.Perm cmds') : Exchange cmds' t ok where
  net := h.net
  fits := h.fits
  ok_iff := h.ok_iff
  issued := by
    obtain ⟨u, hu, hnil⟩ := h.issued
    exact ⟨u, hu.trans hp, hnil⟩
  awaited := h.awaited
  answered := h.answered

/-- A successful exchange has sent everything. -/
theorem issued_perm (h : Exchange cmds t true) : (RedisXSlot.issued t).Perm cmds := by
  obtain ⟨u, hu, hnil⟩ := h.issued
  rwa [hnil rfl, List.append_nil] at hu

/-- A successful exchange has had everything acknowledged. -/
theorem acked_perm (h : Exchange cmds t true) : (acked t).Perm cmds := by
  rw [(h.ok_iff.mp rfl).acked (h.answered rfl)]
  exact h.issued_perm

/-- No exchange sends anything else. -/
theorem issued_subperm (h : Exchange cmds t ok) : (RedisXSlot.issued t).Subperm cmds := by
  obtain ⟨u, hu, -⟩ := h.issued
  exact (List.sublist_append_left _ u).subperm.trans hu.subperm

end Exchange

/-- One command, answered at once. -/
theorem exchange_command (argv : List Bytes) (a : NetAnswer) :
    Exchange [argv] [⟨.command argv, a⟩] a.ok where
  net := by simp [Call.isNet]
  fits := by simp [Fits, Event.overruns]
  ok_iff := by simp [Clean, Event.failed]
  issued := ⟨[], by simp [issued, commands, appended], fun _ => rfl⟩
  awaited := le_rfl
  answered := fun _ => rfl

/-- A path that has to send `cmds` for `n` objects and ends in `r`. -/
structure Sends (n : Nat) (cmds : List (List Bytes)) (t : Trace) (r : Int) : Prop where
  exchange : Exchange cmds t (r != SLOTS_MGRT_ERR)
  count : r ≠ SLOTS_MGRT_ERR → r = n

theorem natCast_ne_err (n : Nat) : (n : Int) ≠ SLOTS_MGRT_ERR := by
  rw [SLOTS_MGRT_ERR]
  omega

namespace Sends
variable {n : Nat} {cmds : List (List Bytes)} {t : Trace} {r : Int}

theorem of_ok {ok : Bool} (h : Exchange cmds t ok) :
    Sends n cmds t (if ok then (n : Int) else SLOTS_MGRT_ERR) := by
  cases ok with
  | true =>
    have hb : ((n : Int) != SLOTS_MGRT_ERR) = true := bne_iff_ne.mpr (natCast_ne_err n)
    exact ⟨hb.symm ▸ h, fun _ => rfl⟩
  | false => exact ⟨by simpa using h, fun hr => absurd rfl hr⟩

theorem error_iff (h : Sends n cmds t r) : r = SLOTS_MGRT_ERR ↔ ¬ Clean t := by
  rw [← h.exchange.ok_iff]
  simp

theorem exchange_true (h : Sends n cmds t r) (hr : r ≠ SLOTS_MGRT_ERR) : Exchange cmds t true := by
  have hb : (r != SLOTS_MGRT_ERR) = true := by simpa using hr
  exact hb ▸ h.exchange

end Sends

/-- Traffic on the way to sending `cmds` up to a connect that fails and overruns `errLog`. -/
structure Overran (cmds : List (List Bytes)) (t : Trace) : Prop where
  net : ∀ e ∈ t, e.call.isNet = true
  overruns : ∃ e ∈ t, e.overruns = true
  issued : (issued t).Subperm cmds
  awaited : (replies t).length ≤ (appended t).length

namespace Overran
variable {cmds cmds' : List (List Bytes)} {t t' : Trace} {ok : Bool}

theorem not_fits (h : Overran cmds t) : ¬ Fits t := not_fits_iff.mpr h.overruns

theorem subperm (h : Overran cmds t) (hs : cmds.Subperm cmds') : Overran cmds' t :=
  ⟨h.net, h.overruns, h.issued.trans hs, h.awaited⟩

/-- Traffic that goes wrong behind an exchange. -/
theorem behind (h : Overran cmds' t') (hx : Exchange cmds t ok) : Overran (cmds ++ cmds') (t ++ t') where
  net := fun e he => (List.mem_append.mp he).elim (hx.net e) (h.net e)
  overruns := by
    obtain ⟨e, he, hover⟩ := h.overruns
    exact ⟨e, List.mem_append_right t he, hover⟩
  issued := ((issued_append_perm t t').subperm).trans (hx.issued_subperm.append h.issued)
  awaited := by
    rw [replies_append, appended_append, List.length_append, List.length_append]
    exact Nat.add_le_add hx.awaited h.awaited

end Overran

/-! ### The text of a TTL -/

theorem ttlArg_toInt (obj : DumpObj) : obj.ttlArg.toInt = max obj.ttlms.toInt 0 := by
  simp only [DumpObj.ttlArg, gt_iff_lt, Int64.lt_iff_toInt_lt, Int64.toInt_zero]
  split
  · omega
  · rw [Int64.toInt_zero]
    omega

/-- The TTL sent is a non-negative `long long`. -/
theorem ttlArg_eq_natCast (obj : DumpObj) : ∃ n : Nat, obj.ttlArg.toInt = n ∧ n ≤ LLONG_MAX := by
  have hmax := obj.ttlArg.toInt_lt
  have hmin := ttlArg_toInt obj
  refine ⟨obj.ttlArg.toInt.toNat, by omega, ?_⟩
  simp only [LLONG_MAX]
  omega

theorem longstrBuf_length : longstrBuf.length = REDIS_LONGSTR_SIZE := List.length_replicate

/-- Both formatters write the same numeral. -/
theorem formatLong_ttlArg (obj : DumpObj) : formatLong obj.ttlArg.toInt = obj.ttlText := by
  obtain ⟨n, hn, hmax⟩ := ttlArg_eq_natCast obj
  rw [DumpObj.ttlText, hn, ll2string_natCast longstrBuf longstrBuf_length hmax, formatLong, decimal,
    show toString (n : Int) = toString n from rfl, Nat.toString_eq_repr, Nat.repr, String.toList_ofList]

/-- The target reads the TTL the source sent. -/
theorem string2ll_ttlText (obj : DumpObj) : string2ll obj.ttlText = some obj.ttlArg.toInt := by
  obtain ⟨n, hn, hmax⟩ := ttlArg_eq_natCast obj
  rw [DumpObj.ttlText, hn]
  exact string2ll_ll2string longstrBuf longstrBuf_length hmax

/-! ### The argument array -/

theorem args_length (obj : DumpObj) : obj.args.length = 3 := rfl

theorem flatMap_args_length (objs : List DumpObj) :
    (objs.flatMap DumpObj.args).length = objs.length * 3 := by
  rw [List.length_flatMap, List.map_congr_left (fun o _ => args_length o), List.map_const',
    List.sum_replicate, smul_eq_mul]

/-- The slice of the array between two cuts is the arguments of the objects between them,
whatever has been filled in behind. -/
theorem slice_args (done objs rest : List DumpObj) :
    (((done ++ objs ++ rest).flatMap DumpObj.args).drop (done.length * 3)).take (objs.length * 3) =
      objs.flatMap DumpObj.args := by
  rw [List.append_assoc, List.flatMap_append, List.flatMap_append,
    List.drop_left' (flatMap_args_length done), List.take_left' (flatMap_args_length objs)]

/-- One split is one command: it fails exactly if its answer is not fine. -/
theorem doSplitRestoreCommand_spec {argv : List Bytes} {done objs : List DumpObj} (rest : List DumpObj)
    (hargv : argv = (done ++ objs ++ rest).flatMap DumpObj.args) (hne : objs ≠ []) :
    Spec (doSplitRestoreCommand argv done.length (done.length + objs.length))
      (Sends objs.length [restoreCommand objs]) := by
  have hpos : 0 < objs.length := List.length_pos_iff.mpr hne
  have hcn : ((done.length + objs.length : Nat) : Int) - (done.length : Int) = objs.length := by
    push_cast
    omega
  have hslice := slice_args done objs rest
  rw [← hargv] at hslice
  dsimp only [doSplitRestoreCommand]
  rw [hcn, if_neg (by omega), Int.toNat_natCast, hslice, Prog.perform_bind]
  refine .call fun a => ?_
  have hcmd := Sends.of_ok (n := objs.length) (exchange_command (restoreCommand objs) a)
  cases a with
  | failed => exact .ret hcmd
  | missing => exact .ret hcmd
  | reply r => cases r <;> exact .ret hcmd

/-- **The loop rule of the send paths.** If handling a batch is an exchange of its
commands, then the loop over the batches is an exchange of all of them. -/
theorem eachBatch_spec {σ : Type} {put : σ → DumpObj → Act σ} {flush : σ → Nat → Nat → Act (Option σ)}
    {I : List DumpObj → σ → Prop} {cmds : List DumpObj → List (List Bytes)}
    (hstep : ∀ done b s, b ≠ [] → I done s →
      Spec (Batch.putAll put b s >>= fun s => flush s done.length (done.length + b.length))
        fun t out => Exchange (cmds b) t out.isSome ∧ ∀ s', out = some s' → I (done ++ b) s')
    (bs : List (List DumpObj)) (done : List DumpObj) {s : σ} (hne : ∀ b ∈ bs, b ≠ []) (hI : I done s) :
    Spec (Batch.eachBatch put flush bs done.length s)
      fun t out => Exchange (bs.flatMap cmds) t out.isSome := by
  induction bs generalizing done s with
  | nil => exact .ret .nil
  | cons b bs ih =>
    simp only [Batch.eachBatch]
    rw [← bind_assoc]
    refine (hstep done b s (hne b (List.mem_cons_self ..)) hI).bind ?_
    rintro t out ⟨hx, hI'⟩
    cases out with
    | none => exact .ret (by simpa using hx.stop _)
    | some s' =>
      have hrec := ih (done ++ b) (fun c hc => hne c (List.mem_cons_of_mem b hc)) (hI' s' rfl)
      rw [List.length_append] at hrec
      refine hrec.mono fun t' out' hx' => ?_
      simpa using hx.append hx'

/-! ### BatchSend -/

theorem putAll_putArgs (objs : List DumpObj) (argv : List Bytes) :
    Batch.putAll putArgs objs argv = .ret (argv ++ objs.flatMap DumpObj.args) := by
  induction objs generalizing argv with
  | nil => simp [Batch.putAll]
  | cons obj objs ih =>
    simp only [Batch.putAll, putArgs, Prog.pure_eq, Prog.ret_bind, ih, List.flatMap_cons,
      List.append_assoc]

/-- **BatchSend sends one command for each batch.** -/
theorem batchSendSlotsRestore_spec {objs : List DumpObj} (hne : objs ≠ []) :
    Spec (batchSendSlotsRestore objs) (Sends objs.length ((splits objs).map restoreCommand)) := by
  have hstep : ∀ (done b : List DumpObj) (argv : List Bytes), b ≠ [] →
      argv = done.flatMap DumpObj.args →
      Spec (Batch.putAll putArgs b argv >>= fun argv => sendSplit argv done.length (done.length + b.length))
        fun t out => Exchange [restoreCommand b] t out.isSome ∧
          ∀ argv', out = some argv' → argv' = (done ++ b).flatMap DumpObj.args := by
    rintro done b argv hb rfl
    rw [putAll_putArgs, Prog.ret_bind]
    simp only [sendSplit]
    refine (doSplitRestoreCommand_spec [] (by simp) hb).bind fun t r hs => ?_
    by_cases hr : r = SLOTS_MGRT_ERR
    · rw [if_pos hr]
      refine .ret ⟨?_, by simp⟩
      have := hs.exchange
      simpa [hr] using this
    · rw [if_neg hr]
      refine .ret ⟨?_, ?_⟩
      · simpa using hs.exchange_true hr
      · rintro argv' ⟨⟩
        rw [List.flatMap_append]
  have hloop := eachBatch_spec hstep (splits objs) [] (Batch.greedy_ne_nil _ _ hne) rfl
  dsimp only [batchSendSlotsRestore]
  rw [Batch.batchLoop_eq]
  refine Spec.bind hloop fun t out hx => ?_
  rw [← List.map_eq_flatMap] at hx
  have := Sends.of_ok (n := objs.length) hx
  cases out with
  | none => exact .ret (by simpa using this)
  | some argv => exact .ret (by simpa using this)

/-! ### Pipeline -/

/-- Filling the pipeline appends one command for each object and awaits nothing. -/
theorem putAll_appendObj (objs : List DumpObj) :
    Spec (Batch.putAll appendObj objs ()) fun t _ => (∀ e ∈ t, e.call.isNet = true) ∧ Clean t ∧
      commands t = [] ∧ appended t = objs.map (fun obj => restoreCommand [obj]) ∧ replies t = [] := by
  induction objs with
  | nil => exact .ret ⟨by simp, by simp [Clean], rfl, rfl, rfl⟩
  | cons obj objs ih =>
    simp only [Batch.putAll, appendObj]
    refine .call fun _ => ih.mono ?_
    rintro t _ ⟨hnet, hclean, hc, ha, hr⟩
    refine ⟨?_, ?_, ?_, ?_, ?_⟩
    · simpa [Call.isNet] using hnet
    · simpa [Clean, Event.failed] using hclean
    · simpa [commands] using hc
    · rw [formatLong_ttlArg]
      simp only [appended, List.filterMap_cons, List.map_cons] at ha ⊢
      rw [ha]
      rfl
    · simpa [replies] using hr

theorem getReplies_spec (n : Nat) :
    Spec (getReplies n) fun t ok => (∀ e ∈ t, e.call = .getReply) ∧ (ok = true ↔ Clean t) ∧
      commands t = [] ∧ appended t = [] ∧ (replies t).length ≤ n ∧
      (ok = true → (replies t).length = n) := by
  induction n with
  | zero => exact .ret ⟨by simp, by simp [Clean], rfl, rfl, le_rfl, fun _ => rfl⟩
  | succ n ih =>
    simp only [getReplies, Prog.perform_bind]
    refine .call fun a => ?_
    have hstop : a.ok = false → Spec (.ret false : Act Bool) fun t ok =>
        (∀ e ∈ (⟨.getReply, a⟩ : Event) :: t, e.call = .getReply) ∧
        (ok = true ↔ Clean (⟨.getReply, a⟩ :: t)) ∧ commands (⟨.getReply, a⟩ :: t) = [] ∧
        appended (⟨.getReply, a⟩ :: t) = [] ∧ (replies (⟨.getReply, a⟩ :: t)).length ≤ n + 1 ∧
        (ok = true → (replies (⟨.getReply, a⟩ :: t)).length = n + 1) := by
      intro ha
      refine .ret ⟨by simp, ?_, rfl, rfl, Nat.succ_le_succ (Nat.zero_le n), by simp⟩
      simp [Clean, Event.failed, ha]
    cases a with
    | failed => exact hstop rfl
    | missing => exact hstop rfl
    | reply r =>
      cases r with
      | error => exact hstop rfl
      | integer | status =>
        refine ih.mono ?_
        rintro t ok ⟨hcall, hok, hc, ha, hle, hr⟩
        refine ⟨by simpa using hcall, ?_, by simpa [commands] using hc,
          by simpa [appended] using ha, by simpa [replies] using hle, fun h => ?_⟩
        · simpa [Clean, Event.failed, NetAnswer.ok] using hok
        · simpa [replies] using hr h

/-- A stretch of the pipeline: commands appended, then as many replies awaited. -/
theorem exchange_pipeline {cmds : List (List Bytes)} {t t' : Trace} {ok : Bool}
    (hnet : ∀ e ∈ t, e.call.isNet = true) (hclean : Clean t) (hwait : ∀ e ∈ t', e.call = .getReply)
    (hok : ok = true ↔ Clean t') (hc : commands (t ++ t') = []) (ha : appended t = cmds) (ha' : appended t' = []) (hr : replies t = [])
    (hle : (replies t').length ≤ cmds.length) (hr' : ok = true → (replies t').length = cmds.length) : Exchange cmds (t ++ t') ok where
  net := fun e he => (List.mem_append.mp he).elim (hnet e) fun he => by rw [hwait e he]; rfl
  fits := fits_append.mpr ⟨hclean.fits, fun ⟨_, _⟩ he => by cases hwait _ he; rfl⟩
  ok_iff := by
    rw [clean_append, hok]
    exact ⟨fun h => ⟨hclean, h⟩, fun h => h.2⟩
  issued := ⟨[], by simp [issued, hc, ha, ha'], fun _ => rfl⟩
  awaited := by
    rw [replies_append, appended_append, hr, ha, ha', List.nil_append, List.append_nil]
    exact hle
  answered := fun h => by
    rw [replies_append, appended_append, hr, ha, ha', List.nil_append, List.append_nil]
    exact hr' h

/-- **The pipeline sends one command for each object and awaits a reply for each.** -/
theorem pipelineSlotsRestore_spec {objs : List DumpObj} (hne : objs ≠ []) :
    Spec (pipelineSlotsRestore objs)
      (Sends objs.length (objs.map fun obj => restoreCommand [obj])) := by
  have hstep : ∀ (done b : List DumpObj) (s : Unit), b ≠ [] → True →
      Spec (Batch.putAll appendObj b s >>= fun s => awaitSplit s done.length (done.length + b.length))
        fun t out => Exchange (b.map fun obj => restoreCommand [obj]) t out.isSome ∧
          ∀ s', out = some s' → True := by
    rintro done b ⟨⟩ hb -
    have hpos : 0 < b.length := List.length_pos_iff.mpr hb
    have hcn : ((done.length + b.length : Nat) : Int) - (done.length : Int) = b.length := by
      push_cast
      omega
    refine (putAll_appendObj b).bind ?_
    rintro t _ ⟨hnet, hclean, hc, ha, hr⟩
    simp only [awaitSplit, doSplitPipelineGetReply]
    rw [hcn, if_neg (by omega), Int.toNat_natCast, bind_assoc]
    refine (getReplies_spec b.length).bind ?_
    rintro t' ok ⟨hwait, hok, hc', ha', hle, hr'⟩
    have hx : Exchange (b.map fun obj => restoreCommand [obj]) (t ++ t') ok :=
      exchange_pipeline hnet hclean hwait hok
        (by rw [commands_append, hc, hc']; rfl) ha ha' hr (by rwa [List.length_map]) (fun h => by rw [hr' h, List.length_map])
    cases ok with
    | false => exact .ret ⟨by simpa using hx, fun _ _ => trivial⟩
    | true =>
      simp only [if_true, Prog.pure_eq, Prog.ret_bind, if_neg (natCast_ne_err b.length)]
      exact .ret ⟨by simpa using hx, fun _ _ => trivial⟩
  have hloop := eachBatch_spec (s := ()) (I := fun _ _ => True) hstep (splits objs) []
    (Batch.greedy_ne_nil _ _ hne) trivial
  dsimp only [pipelineSlotsRestore]
  rw [Batch.batchLoop_eq]
  refine Spec.bind hloop fun t out hx => ?_
  rw [List.flatMap_def, ← List.map_flatten, show (splits objs).flatten = objs from Batch.greedy_flatten ..] at hx
  have := Sends.of_ok (n := objs.length) hx
  cases out with
  | none => exact .ret (by simpa using this)
  | some _ => exact .ret (by simpa using this)

end RedisXSlot
