import RedisXSlot.MgrtProofs
import RedisXSlot.RestoreProofs

/-! From the source's objects to the target's keys.

On each of the three send paths the commands carry the objects in groups
(`SendPath.groups`), so together they carry exactly the objects, and a target that runs
them in any order ends with the same keys (`send_paths_agree`). Only the key loses
something on the way: RESTORE is called with its C string, so a transfer delivers what
it was given exactly if no key has a NUL in it (`binarySafe_iff`). -/
namespace RedisXSlot
open Interaction

inductive SendPath where
  | batchSend
  | withThreadPool (conf : MgrtConf)
  | pipeline

def SendPath.send : SendPath → List DumpObj → Act Int
  | .batchSend, objs => batchSendSlotsRestore objs
  | .withThreadPool conf, objs => batchSendWithThreadPoolSlotsRestore conf objs
  | .pipeline, objs => pipelineSlotsRestore objs

/-- The objects of each command of a path. -/
def SendPath.groups : SendPath → List DumpObj → List (List DumpObj)
  | .batchSend, objs | .withThreadPool _, objs => splits objs
  | .pipeline, objs => objs.map fun obj => [obj]

/-- The path `MGRT` takes. -/
def MgrtConf.path (conf : MgrtConf) : SendPath :=
  if conf.usesPool then .withThreadPool conf else if conf.usesPipeline then .pipeline else .batchSend

theorem groups_flatten (path : SendPath) (objs : List DumpObj) : (path.groups objs).flatten = objs := by
  cases path with
  | batchSend | withThreadPool => exact Batch.greedy_flatten ..
  | pipeline =>
    rw [SendPath.groups, ← List.flatMap_def]
    exact List.flatMap_singleton' objs

theorem groups_ne_nil (path : SendPath) {objs : List DumpObj} (hne : objs ≠ []) :
    ∀ g ∈ path.groups objs, g ≠ [] := by
  cases path with
  | batchSend | withThreadPool => exact Batch.greedy_ne_nil _ _ hne
  | pipeline =>
    intro g hg
    obtain ⟨obj, -, rfl⟩ := List.mem_map.mp hg
    exact List.cons_ne_nil obj []

theorem mgrtCommands_eq (conf : MgrtConf) (objs : List DumpObj) :
    mgrtCommands conf objs = (conf.path.groups objs).map restoreCommand := by
  rw [mgrtCommands, MgrtConf.path]
  cases hpool : conf.usesPool with
  | true => simp [MgrtConf.usesPipeline, hpool, SendPath.groups]
  | false =>
    cases conf.usesPipeline with
    | true => simp [SendPath.groups]
    | false => simp [SendPath.groups]

/-! ### What the commands carry -/

/-- The triples the target decodes from a command. -/
def triples (argv : List Bytes) : List (Bytes × Int × Bytes) :=
  ((decodeTriples argv.tail).getD []).map fun obj => (obj.key, obj.ttlms.toInt, obj.val)

/-- The triple an object is to arrive as. -/
def DumpObj.triple (obj : DumpObj) : Bytes × Int × Bytes := (obj.key, max obj.ttlms.toInt 0, obj.val)

theorem triples_restoreCommand (objs : List DumpObj) :
    triples (restoreCommand objs) = objs.map DumpObj.triple := by
  rw [triples, decodeTriples_restoreCommand, Option.getD_some, List.map_map]
  refine List.map_congr_left fun obj _ => ?_
  simp only [Function.comp_apply, DumpObj.sent, DumpObj.triple, ttlArg_toInt]

theorem flatMap_triples (gs : List (List DumpObj)) :
    (gs.map restoreCommand).flatMap triples = gs.flatten.map DumpObj.triple := by
  induction gs with
  | nil => rfl
  | cons g gs ih =>
    rw [List.map_cons, List.flatMap_cons, ih, triples_restoreCommand, List.flatten_cons, List.map_append]

theorem RestoreStep.eq {now : Int} {ks ks' : Keyspace} {argv : List Bytes} {objs : List DumpObj}
    (h : RestoreStep now ks argv ks') (hd : decodeTriples argv.tail = some objs) :
    ks' = restoreEach now objs ks := by
  obtain ⟨t, r, hrun, hr, hreply, rfl⟩ := h
  obtain ⟨objs', hd', heff⟩ := ((slotsRestoreCmd_spec argv).of_runs hrun).2 hreply hr
  obtain rfl : objs' = objs := Option.some.inj (hd'.symm.trans hd)
  exact heff now ks

theorem path_restoreStep {now : Int} {gs : List (List DumpObj)} {ks ks' : Keyspace}
    (h : Path (RestoreStep now) ks (gs.map restoreCommand) ks') :
    ks' = restoreEach now (gs.flatten.map DumpObj.sent) ks := by
  induction gs generalizing ks with
  | nil => exact h
  | cons g gs ih =>
    obtain ⟨m, hm, hrest⟩ := h
    rw [ih hrest, hm.eq (decodeTriples_restoreCommand g), List.flatten_cons, List.map_append, restoreEach,
      restoreEach, restoreEach, List.foldl_append]

/-- A reordering of the commands is the commands of a reordering. -/
theorem exists_perm_of_perm_map {α β : Type} {f : α → β} {ys : List β} {xs : List α}
    (h : ys.Perm (xs.map f)) : ∃ xs' : List α, xs'.Perm xs ∧ ys = xs'.map f := by
  have hf : List.Forall₂ (fun b a => b = f a) (xs.map f) xs :=
    List.forall₂_map_left_iff.mpr (List.forall₂_same.mpr fun _ _ => rfl)
  obtain ⟨xs', hys, hp⟩ := List.perm_comp_forall₂ h hf
  exact ⟨xs', hp, List.forall₂_eq_eq_eq ▸ List.forall₂_map_right_iff.mpr hys⟩

/-- **Whatever order the commands of a path are run in, the objects arrive.** -/
theorem holds_of_commands {path : SendPath} {objs : List DumpObj} {order : List (List Bytes)}
    (horder : order.Perm ((path.groups objs).map restoreCommand)) (hnul : ∀ obj ∈ objs, NulFree obj.key)
    (hd : (objs.map DumpObj.key).Nodup) {now : Int} {ks ks' : Keyspace}
    (h : Path (RestoreStep now) ks order ks') : Holds now ks objs ks' := by
  obtain ⟨gs, hgs, rfl⟩ := exists_perm_of_perm_map horder
  have hflat : gs.flatten.Perm objs := by
    have := hgs.flatten
    rwa [groups_flatten] at this
  rw [path_restoreStep h]
  refine (restoreEach_holds now (fun obj hobj => hnul obj (hflat.mem_iff.mp hobj)) ?_ ks).perm hflat
  exact (hflat.map DumpObj.key).nodup_iff.mpr hd

/-! ### The send paths agree -/

section Agreeable
variable {t : Trace} {dumps : Bytes → Reply} (h : ∀ e ∈ t, e.answer = agreeable dumps e.call)
include h

theorem clean_of_agreeable : Clean t := by
  intro e he
  obtain ⟨c, a⟩ := e
  have ha : a = agreeable dumps c := h _ he
  subst ha
  cases c <;> rfl

theorem redisReplies_of_agreeable : RedisReplies t := by
  intro key ttlms val a hm
  exact .inr ⟨_, h _ hm⟩

theorem not_refused_of_agreeable : ¬ Refused t := by
  rintro ⟨key, ttlms, val, hm⟩
  have := h _ hm
  simp [agreeable] at this

end Agreeable

/-- A target that refuses nothing runs every command of the source. -/
theorem exists_restoreStep (now : Int) (ks : Keyspace) (objs : List DumpObj) :
    ∃ ks', RestoreStep now ks (restoreCommand objs) ks' := by
  obtain ⟨t, o, hrun, hans⟩ := exists_runs (agreeable fun _ => .nil) (slotsRestoreCmd (restoreCommand objs))
  obtain ⟨r, rfl, hok, -⟩ := slotsRestoreCmd_spec _ hrun
  refine ⟨_, t, r, hrun, hok.mpr ⟨?_, not_refused_of_agreeable hans⟩, redisReplies_of_agreeable hans, rfl⟩
  rw [decodeTriples_restoreCommand]
  rfl

/-- A synchronous target acknowledges what it has run without an error. -/
theorem ackStep_iff {now : Int} {ks ks' : Keyspace} {argv : List Bytes} :
    AckStep now ks argv ks' ↔ badArity argv = false ∧ RestoreStep now ks argv ks' := by
  simp only [AckStep, RestoreStep, slotsRestoreRedisCommand, Bool.false_eq_true, if_false]
  cases badArity argv with
  | true =>
    simp only [if_true, Bool.true_eq_false, false_and, iff_false]
    rintro ⟨t, reply, hrun, hok, -⟩
    cases (Runs.ret_iff.mp hrun).2
    cases hok
  | false =>
    simp only [Bool.false_eq_true, if_false, true_and]
    constructor
    · rintro ⟨t, reply, hrun, hok, hreply, hks⟩
      obtain ⟨r, t₁, t₂, rfl, hcmd, hrest⟩ := Runs.of_bind hrun
      by_cases hr : r = SLOTS_MGRT_ERR
      · rw [if_pos hr] at hrest
        cases (Runs.ret_iff.mp hrest).2
        cases hok
      · rw [if_neg hr] at hrest
        obtain ⟨rfl, -⟩ := Runs.ret_iff.mp hrest
        rw [List.append_nil] at hreply hks
        exact ⟨t₁, r, hcmd, hr, hreply, hks⟩
    · rintro ⟨t, r, hcmd, hr, hreply, hks⟩
      refine ⟨t, .integer r, ?_, rfl, hreply, hks⟩
      have := Runs.bind (o := some (ClientReply.integer r)) hcmd
        (f := fun ret => if ret = SLOTS_MGRT_ERR then .ret (.error REDISXSLOT_ERRORMSG_MGRT) else .ret (.integer ret))
        (by rw [if_neg hr]; exact .ret _)
      rwa [List.append_nil] at this

theorem exists_path_ackStep (now : Int) (ks : Keyspace) (gs : List (List DumpObj)) (hne : ∀ g ∈ gs, g ≠ []) :
    ∃ ks', Path (AckStep now) ks (gs.map restoreCommand) ks' := by
  induction gs generalizing ks with
  | nil => exact ⟨ks, rfl⟩
  | cons g gs ih =>
    obtain ⟨m, hm⟩ := exists_restoreStep now ks g
    obtain ⟨ks', hks'⟩ := ih m fun c hc => hne c (List.mem_cons_of_mem g hc)
    exact ⟨ks', m, ackStep_iff.mpr ⟨badArity_restoreCommand (hne g (List.mem_cons_self ..)), hm⟩, hks'⟩

theorem path_restoreStep_of_ackStep {now : Int} {ks ks' : Keyspace} {order : List (List Bytes)}
    (h : Path (AckStep now) ks order ks') : Path (RestoreStep now) ks order ks' := by
  induction order generalizing ks with
  | nil => exact h
  | cons argv order ih =>
    obtain ⟨m, hm, hrest⟩ := h
    exact ⟨m, (ackStep_iff.mp hm).2, ih hrest⟩

/-- No key with a NUL is ever restored. -/
theorem restoreEach_nul {key : Bytes} (hkey : ¬ NulFree key) (now : Int) (objs : List DumpObj) (ks : Keyspace) :
    restoreEach now objs ks key = ks key := by
  induction objs generalizing ks with
  | nil => rfl
  | cons obj objs ih =>
    have hne : key ≠ cString obj.key := fun he => hkey (he ▸ cString_nulFree obj.key)
    exact (ih _).trans (Function.update_of_ne hne _ ks)

/-- Every successful migration of `objs` leaves the target with exactly these keys put in,
whatever it held before. -/
def BinarySafe (conf : MgrtConf) (objs : List DumpObj) : Prop :=
  ∀ t r, Runs (mgrt conf objs) t (some r) → r ≠ SLOTS_MGRT_ERR → ∀ order, order.Perm (acked t) →
    ∀ now ks ks', Path (AckStep now) ks order ks' → Holds now ks objs ks'

/-- A key with a NUL does not arrive: on a run on which nothing fails, into an empty
target, it is never restored. -/
theorem not_binarySafe (conf : MgrtConf) {objs : List DumpObj} {obj : DumpObj} (hobj : obj ∈ objs)
    (hnul : ¬ NulFree obj.key) : ¬ BinarySafe conf objs := by
  intro h
  have hne : objs ≠ [] := List.ne_nil_of_mem hobj
  obtain ⟨t, o, hrun, hans⟩ := exists_runs (agreeable fun _ => .nil) (mgrt conf objs)
  obtain ⟨r, rfl, hs⟩ := (mgrt_spec conf hne hrun).resolve_right fun h => h.2.not_fits (clean_of_agreeable hans).fits
  have hr : r ≠ SLOTS_MGRT_ERR := fun he => hs.error_iff.mp he (clean_of_agreeable hans)
  rw [mgrtCommands_eq] at hs
  have hperm := (hs.exchange_true hr).acked_perm.symm
  obtain ⟨ks', hpath⟩ := exists_path_ackStep 0 (fun _ => none) (conf.path.groups objs)
    (groups_ne_nil conf.path hne)
  have hentry := (h t r hrun hr _ hperm 0 (fun _ => none) ks' hpath).entry obj hobj
  rw [path_restoreStep (path_restoreStep_of_ackStep hpath), restoreEach_nul hnul] at hentry
  cases hentry

/-- **Binary safety.** Distinct keys arrive byte for byte, each with its own value, and
nothing else changes, if and only if none of them contains a NUL. -/
theorem binarySafe_iff (conf : MgrtConf) {objs : List DumpObj} (hne : objs ≠ [])
    (hd : (objs.map DumpObj.key).Nodup) : BinarySafe conf objs ↔ ∀ obj ∈ objs, NulFree obj.key := by
  constructor
  · intro h obj hobj
    by_contra hnul
    exact not_binarySafe conf hobj hnul h
  · intro hnul t r hrun hr order horder now ks ks' hpath
    have hs := (mgrt_spec conf hne).of_runs hrun
    rw [mgrtCommands_eq] at hs
    exact holds_of_commands (horder.trans (hs.exchange_true hr).acked_perm) hnul hd
      (path_restoreStep_of_ackStep hpath)

/-- A synchronous configuration of one connection. -/
def oneConnection : MgrtConf := ⟨false, 0, 0, [104], [49], none⟩

/-- The thread of it, and the name of its connection, `h:1@7`. -/
def worker : Tid := ⟨7, by decide⟩
def workerConn : Bytes := [104, 58, 49, 64, 55]

theorem binarySafe_iff_two : BinarySafe oneConnection [⟨[97], [1, 0], 5⟩, ⟨[98], [], -1⟩] :=
  (binarySafe_iff oneConnection (by decide) (by decide)).mpr (by decide)

/-- The key `a NUL b` is restored as `a`. -/
theorem not_binarySafe_nul : ¬ BinarySafe oneConnection [⟨[97, 0, 98], [1], 0⟩] :=
  not_binarySafe oneConnection (List.mem_singleton.mpr rfl) (by decide)

end RedisXSlot
