import RedisXSlot.Drain
import RedisXSlot.Lib.Takeover

/-! A target that commands reach late, again, or in part.

Whatever the source hears of it, a command restores copies of its objects, up to the first RESTORE that is
refused, and nothing else; if the source is told that it is fine, the target has them all. So
commands in any order are copies that arrive (`TargetServer.path_supplies`). -/
namespace RedisXSlot
open Interaction Takeover

/-- A command reaches the target: the source hears that it was fine, or hears nothing, or something else. -/
inductive Delivery where
  | acknowledged (argv : List Bytes)
  | unheard (argv : List Bytes)

def Delivery.argv : Delivery → List Bytes
  | .acknowledged argv | .unheard argv => argv

section
variable (hash' : Bytes → Nat) (conf : SlotsMetaInfo) (payload : Bytes → Option ValueType)
  (db : Fin conf.databases)

/-- A synchronous target serves a command: it may refuse any RESTORE, and stops at the first. -/
def TargetServer.serve (w : TargetServer conf.databases) (argv : List Bytes) (reply : ClientReply)
    (w' : TargetServer conf.databases) : Prop :=
  ∃ now t, Runs (slotsRestoreRedisCommand false argv) t (some reply) ∧ RedisReplies t ∧
    w'.entries = targetAfter now w.entries t ∧ Path (TypedServer.Answers hash' conf payload db) w.server t w'.server

def TargetServer.deliver (w : TargetServer conf.databases) (d : Delivery) (w' : TargetServer conf.databases) : Prop :=
  match d with
  | .acknowledged argv => ∃ reply, w.serve hash' conf payload db argv reply w' ∧ (NetAnswer.reply reply.toWire).ok
  | .unheard argv => ∃ reply, w.serve hash' conf payload db argv reply w'

end

variable {hash' : Bytes → Nat} {conf : SlotsMetaInfo} {payload : Bytes → Option ValueType} {db : Fin conf.databases}

/-- What a keyspace holds, without the expiries. -/
def Keyspace.vals (ks : Keyspace) : Bytes → Option Bytes := fun key => (ks key).map Entry.val

/-- The copies in a list of commands. -/
def copies (sent : List (List Bytes)) : Set (Bytes × Bytes) :=
  {c | ∃ g, restoreCommand g ∈ sent ∧ ∃ obj ∈ g, (obj.key, obj.val) = c}

/-- The command carries objects, all of them with such a key and value. -/
def CommandOf (P : Bytes → Bytes → Prop) (argv : List Bytes) : Prop :=
  ∃ g : List DumpObj, argv = restoreCommand g ∧ ∀ obj ∈ g, P obj.key obj.val

theorem CommandOf.mono {P Q : Bytes → Bytes → Prop} {argv : List Bytes} (h : CommandOf P argv)
    (hPQ : ∀ key val, P key val → Q key val) : CommandOf Q argv := by
  obtain ⟨g, hg, hall⟩ := h
  exact ⟨g, hg, fun obj hobj => hPQ _ _ (hall obj hobj)⟩

/-- A command says what its keys and values are. -/
theorem CommandOf.forall {P : Bytes → Bytes → Prop} {g : List DumpObj} (h : CommandOf P (restoreCommand g)) :
    ∀ obj ∈ g, P obj.key obj.val := by
  obtain ⟨g', hg, hall⟩ := h
  have hdecode := congrArg (fun argv : List Bytes => decodeTriples argv.tail) hg
  simp only [decodeTriples_restoreCommand, Option.some.injEq] at hdecode
  intro obj hobj
  have hin : obj.sent ∈ g'.map DumpObj.sent := hdecode ▸ List.mem_map_of_mem hobj
  obtain ⟨obj', hobj', heq⟩ := List.mem_map.mp hin
  obtain ⟨hkey, hval, -⟩ := DumpObj.mk.inj heq
  exact hkey ▸ hval ▸ hall obj' hobj'

/-- A restore loop asks for its objects only. -/
theorem restoreAll_mem (objs : List DumpObj) : Spec (restoreAll objs) fun t _ =>
    ∀ key ttlms val a, (⟨.restore key ttlms val, a⟩ : Event) ∈ t → ∃ obj ∈ objs, cString obj.key = key ∧ obj.val = val := by
  induction objs with
  | nil => exact .ret fun key ttlms val a he => absurd he List.not_mem_nil
  | cons obj objs ih =>
    unfold restoreAll
    apply (restoreOneWithReplace_restores_one obj).bind
    intro t r hcalls
    have hone : ∀ key ttlms val a, (⟨.restore key ttlms val, a⟩ : Event) ∈ t → cString obj.key = key ∧ obj.val = val := by
      intro key ttlms val a he
      have hin : (⟨.restore key ttlms val, a⟩ : Event) ∈ restores t := List.mem_filter.mpr ⟨he, rfl⟩
      have hcall := List.mem_map_of_mem (f := Event.call) hin
      rw [hcalls] at hcall
      obtain ⟨hkey, -, hval⟩ := Call.restore.inj (List.mem_singleton.mp hcall)
      exact ⟨hkey.symm, hval.symm⟩
    split
    next =>
      refine .ret fun key ttlms val a he => ⟨obj, List.mem_cons_self, ?_⟩
      rw [List.append_nil] at he
      exact hone key ttlms val a he
    next =>
      apply ih.mono
      intro t' ok hrest key ttlms val a he
      rcases List.mem_append.mp he with he | he
      · exact ⟨obj, List.mem_cons_self, hone key ttlms val a he⟩
      · obtain ⟨obj', hobj', heq⟩ := hrest key ttlms val a he
        exact ⟨obj', List.mem_cons_of_mem obj hobj', heq⟩

/-- What a run of a command restores is copied from its objects. -/
theorem slotsRestoreCmd_mem {g : List DumpObj} (hnul : ∀ obj ∈ g, NulFree obj.key) {t : Trace} {o : Option Int}
    (hrun : Runs (slotsRestoreCmd (restoreCommand g)) t o) {key : Bytes} {ttlms : Int64} {val : Bytes} {a : Reply}
    (he : (⟨.restore key ttlms val, a⟩ : Event) ∈ t) : ∃ obj ∈ g, obj.key = key ∧ obj.val = val := by
  simp only [slotsRestoreCmd, decodeTriples_restoreCommand, restoreMutli] at hrun
  obtain ⟨ok, t, t', rfl, hall, hrun⟩ := (restoreAll_mem (g.map DumpObj.sent)).bind_runs hrun
  have ht' : t' = [] := by
    cases ok with
    | false => exact (Runs.ret_iff.mp hrun).1
    | true => exact (Runs.ret_iff.mp hrun).1
  rw [ht', List.append_nil] at he
  obtain ⟨obj, hobj, hkey, hval⟩ := hall key ttlms val a he
  obtain ⟨obj', hobj', rfl⟩ := List.mem_map.mp hobj
  exact ⟨obj', hobj', (cString_of_nulFree (hnul obj' hobj')).symm.trans hkey, hval⟩

/-- A served command is one run of `slotsRestoreCmd`, or refused for its arity. -/
theorem slotsRestoreRedisCommand_runs {argv : List Bytes} {t : Trace} {reply : ClientReply}
    (hrun : Runs (slotsRestoreRedisCommand false argv) t (some reply)) :
    (t = [] ∧ reply = .wrongArity) ∨ ∃ r, Runs (slotsRestoreCmd argv) t (some r) ∧
      ((NetAnswer.reply reply.toWire).ok → r ≠ SLOTS_MGRT_ERR) := by
  unfold slotsRestoreRedisCommand at hrun
  rw [if_neg Bool.false_ne_true] at hrun
  split at hrun
  next =>
    obtain ⟨rfl, hreply⟩ := Runs.ret_iff.mp hrun
    exact .inl ⟨rfl, Option.some.inj hreply⟩
  next =>
    obtain ⟨r, t₁, t₂, rfl, hcmd, hret⟩ := Runs.of_bind hrun
    refine .inr ⟨r, ?_⟩
    split at hret
    next =>
      obtain ⟨rfl, hreply⟩ := Runs.ret_iff.mp hret
      rw [List.append_nil, Option.some.inj hreply]
      exact ⟨hcmd, fun h => absurd h Bool.false_ne_true⟩
    next hr =>
      obtain ⟨rfl, -⟩ := Runs.ret_iff.mp hret
      rw [List.append_nil]
      exact ⟨hcmd, fun _ => hr⟩

theorem Keyspace.vals_restore (ks : Keyspace) (now : Int) (key : Bytes) (ttlms : Int64) (val : Bytes) :
    (ks.restore now key ttlms val).vals = Function.update ks.vals key (some val) := by
  funext k
  unfold vals restore
  by_cases hk : k = key
  · subst hk
    rw [Function.update_self, Function.update_self]
    rfl
  · rw [Function.update_of_ne hk, Function.update_of_ne hk]

/-- Every RESTORE of the trace, executed or not, is of a copy on the wire. -/
def RestoresCopies (wire : Set (Bytes × Bytes)) (t : Trace) : Prop :=
  ∀ key ttlms val a, (⟨.restore key ttlms val, a⟩ : Event) ∈ t → (key, val) ∈ wire

theorem RestoresCopies.append {wire : Set (Bytes × Bytes)} {t t' : Trace} :
    RestoresCopies wire (t ++ t') ↔ RestoresCopies wire t ∧ RestoresCopies wire t' := by
  simp only [RestoresCopies, List.mem_append, or_imp, forall_and]

/-- Restores are copies that arrive. -/
theorem steps_targetAfter {holder : Bytes → Option Bytes} {wire : Set (Bytes × Bytes)} (now : Int) (ks : Keyspace) {t : Trace}
    (h : RestoresCopies wire t) : Steps ⟨holder, ks.vals, wire⟩ ⟨holder, (targetAfter now ks t).vals, wire⟩ := by
  induction t generalizing ks with
  | nil => exact .refl
  | cons e t ih =>
    have hrest := ih (targetNext now ks e) fun key ttlms val a he => h key ttlms val a (List.mem_cons_of_mem e he)
    show Steps _ ⟨holder, (targetAfter now (targetNext now ks e) t).vals, wire⟩
    unfold targetNext at hrest ⊢
    split at hrest
    next key ttlms val status =>
      have harrive : Step ⟨holder, ks.vals, wire⟩ ⟨holder, (ks.restore now key ttlms val).vals, wire⟩ := by
        rw [Keyspace.vals_restore]
        exact .arrive key val (h key ttlms val _ List.mem_cons_self)
      exact .head harrive hrest
    next => exact hrest

/-- What has been restored stays: every later copy is the same. -/
theorem vals_targetAfter {holder : Bytes → Option Bytes} {wire : Set (Bytes × Bytes)} {s₀ : State Bytes Bytes} {now : Int}
    {ks : Keyspace} (hsafe : Safe s₀ ⟨holder, ks.vals, wire⟩) {t : Trace} (h : RestoresCopies wire t) {key : Bytes}
    {ttlms : Int64} {val status : Bytes} (he : (⟨.restore key ttlms val, Reply.string status⟩ : Event) ∈ t) :
    (targetAfter now ks t).vals key = some val := by
  have hval : s₀.holder key = some val := hsafe.genuine _ (h _ _ _ _ he)
  obtain ⟨t₁, t₂, rfl⟩ := List.append_of_mem he
  obtain ⟨h₁, h₂⟩ := RestoresCopies.append.mp h
  have hbefore : Safe s₀ ⟨holder, (targetAfter now ks t₁).vals, wire⟩ := hsafe.steps (steps_targetAfter now ks h₁)
  have harrive : Step ⟨holder, (targetAfter now ks t₁).vals, wire⟩
      ⟨holder, ((targetAfter now ks t₁).restore now key ttlms val).vals, wire⟩ := by
    rw [Keyspace.vals_restore]
    exact .arrive key val (h₂ key ttlms val _ List.mem_cons_self)
  have hafter := @steps_targetAfter holder wire now ((targetAfter now ks t₁).restore now key ttlms val) t₂
    fun key ttlms val a he => h₂ key ttlms val a (List.mem_cons_of_mem _ he)
  rw [targetAfter_append]
  refine (hbefore.step harrive).taker_stays hval ?_ hafter
  show ((targetAfter now ks t₁).restore now key ttlms val).vals key = some val
  rw [Keyspace.vals_restore, Function.update_self]

variable (hash' conf payload db) in
/-- What commands do to the target, if the copies of `sent` are all there is. -/
structure Supplies (holder : Bytes → Option Bytes) (sent : List (List Bytes)) (w w' : TargetServer conf.databases) : Prop where
  quiet : w'.server.mod.Quiet hash' conf
  steps : Steps ⟨holder, w.entries.vals, copies sent⟩ ⟨holder, w'.entries.vals, copies sent⟩
  keeps : ∀ key ∈ w.server.mod.slots.keys conf db, key ∈ w'.server.mod.slots.keys conf db
  only : ∀ key ∈ w'.server.mod.slots.keys conf db,
    key ∈ w.server.mod.slots.keys conf db ∨ ∃ val, (key, val) ∈ copies sent

section
variable {holder : Bytes → Option Bytes} {sent : List (List Bytes)} {w m w' : TargetServer conf.databases}

theorem Supplies.refl (hq : w.server.mod.Quiet hash' conf) : Supplies hash' conf db holder sent w w where
  quiet := hq
  steps := .refl
  keeps _ h := h
  only _ h := .inl h

theorem Supplies.trans (h : Supplies hash' conf db holder sent w m) (h' : Supplies hash' conf db holder sent m w') :
    Supplies hash' conf db holder sent w w' where
  quiet := h'.quiet
  steps := h.steps.trans h'.steps
  keeps key hkey := h'.keeps key (h.keeps key hkey)
  only key hkey := (h'.only key hkey).elim (h.only key) .inr

variable (conf db) in
/-- The target has the object: its value, and its key in the index. -/
def TargetServer.Has (w : TargetServer conf.databases) (obj : DumpObj) : Prop :=
  w.entries.vals obj.key = some obj.val ∧ obj.key ∈ w.server.mod.slots.keys conf db

theorem mem_copies {g : List DumpObj} (hsent : restoreCommand g ∈ sent) {obj : DumpObj} (hobj : obj ∈ g) :
    (obj.key, obj.val) ∈ copies sent := ⟨g, hsent, obj, hobj, rfl⟩

/-- **A command is served**, or a part of it. -/
theorem TargetServer.serve_supplies (hq : w.server.mod.Quiet hash' conf) {g : List DumpObj} (hsent : restoreCommand g ∈ sent)
    (hsound : ∀ obj ∈ g, NulFree obj.key ∧ ∃ type, payload obj.val = some (.basic type)) {reply : ClientReply}
    (h : w.serve hash' conf payload db (restoreCommand g) reply w') : Supplies hash' conf db holder sent w w' := by
  obtain ⟨now, t, hrun, -, hentries, hpath⟩ := h
  have hnul : ∀ obj ∈ g, NulFree obj.key := fun obj hobj => (hsound obj hobj).1
  have hdecoded : ∀ objs, decodeTriples (restoreCommand g).tail = some objs → ∀ obj ∈ objs, NulFree obj.key := by
    intro objs hobjs obj hobj
    rw [decodeTriples_restoreCommand] at hobjs
    cases hobjs
    obtain ⟨obj', hobj', rfl⟩ := List.mem_map.mp hobj
    exact hnul obj' hobj'
  have hann := TypedServer.slotsRestoreRedisCommand_announces hdecoded hq hrun hpath
  have hcopied : RestoresCopies (copies sent) t := by
    intro key ttlms val a he
    rcases slotsRestoreRedisCommand_runs hrun with ⟨rfl, -⟩ | ⟨r, hcmd, -⟩
    · exact absurd he List.not_mem_nil
    · obtain ⟨obj, hobj, rfl, rfl⟩ := slotsRestoreCmd_mem hnul hcmd he
      exact mem_copies hsent hobj
  refine ⟨hann.quiet, ?_, fun key hkey => (hann.index key).mpr (.inl hkey), fun key hkey => ?_⟩
  · rw [hentries]
    exact steps_targetAfter now w.entries hcopied
  · apply ((hann.index key).mp hkey).imp_right
    intro hrestored
    obtain ⟨ttlms, val, status, type, he, -⟩ := hrestored
    exact ⟨val, hcopied key ttlms val _ he⟩

/-- **If the source is told that a command is fine**, the target has all of it. -/
theorem TargetServer.serve_has (hq : w.server.mod.Quiet hash' conf) {g : List DumpObj} (hsent : restoreCommand g ∈ sent)
    (hsound : ∀ obj ∈ g, NulFree obj.key ∧ ∃ type, payload obj.val = some (.basic type)) {s₀ : State Bytes Bytes}
    (hsafe : Safe s₀ ⟨holder, w.entries.vals, copies sent⟩) {reply : ClientReply}
    (h : w.serve hash' conf payload db (restoreCommand g) reply w') (hok : (NetAnswer.reply reply.toWire).ok) :
    ∀ obj ∈ g, w'.Has conf db obj := by
  intro obj hobj
  obtain ⟨now, t, hrun, hreplies, hentries, hpath⟩ := h
  rcases slotsRestoreRedisCommand_runs hrun with ⟨-, rfl⟩ | ⟨r, hcmd, hr⟩
  · cases hok
  · have hstep : w.step hash' conf payload db (restoreCommand g) w' := ⟨now, t, r, hcmd, hr hok, hreplies, hentries, hpath⟩
    obtain ⟨-, -, hindex⟩ := TargetServer.step_index (fun obj hobj => (hsound obj hobj).1) (fun obj hobj => (hsound obj hobj).2)
      hq hstep
    refine ⟨?_, (hindex obj.key).mpr (.inr (List.mem_map_of_mem hobj))⟩
    obtain ⟨argv, hargv, hall⟩ := restored_of_mem (List.mem_singleton_self (restoreCommand g)) hobj
    rw [List.mem_singleton.mp hargv] at hall
    obtain ⟨status, he⟩ := hall t r hcmd (hr hok) hreplies
    rw [cString_of_nulFree (hsound obj hobj).1] at he
    have hcopied : RestoresCopies (copies sent) t := by
      intro key ttlms val a he
      obtain ⟨obj, hobj, rfl, rfl⟩ := slotsRestoreCmd_mem (fun obj hobj => (hsound obj hobj).1) hcmd he
      exact mem_copies hsent hobj
    rw [hentries]
    exact vals_targetAfter hsafe hcopied he

variable (payload) in
/-- The key a C string can hold, and a value of one of the five types. -/
def Plain (key val : Bytes) : Prop := NulFree key ∧ ∃ type, payload val = some (.basic type)

/-- **The deliveries of a call**, in any order. -/
theorem TargetServer.path_supplies {s₀ : State Bytes Bytes} {order : List Delivery} (hq : w.server.mod.Quiet hash' conf)
    (hsent : ∀ d ∈ order, d.argv ∈ sent) (hplain : ∀ argv ∈ sent, CommandOf (Plain payload) argv)
    (hsafe : Safe s₀ ⟨holder, w.entries.vals, copies sent⟩)
    (h : Path (TargetServer.deliver hash' conf payload db) w order w') :
    Supplies hash' conf db holder sent w w' ∧
      ∀ g, Delivery.acknowledged (restoreCommand g) ∈ order → ∀ obj ∈ g, w'.Has conf db obj := by
  induction order generalizing w with
  | nil =>
    cases h
    exact ⟨.refl hq, fun g hg => absurd hg List.not_mem_nil⟩
  | cons d order ih =>
    obtain ⟨m, hm, h⟩ := h
    have hin : d.argv ∈ sent := hsent d List.mem_cons_self
    have hserve : ∃ reply, w.serve hash' conf payload db d.argv reply m := by
      cases d with
      | acknowledged argv =>
        obtain ⟨reply, hserve, -⟩ := hm
        exact ⟨reply, hserve⟩
      | unheard argv => exact hm
    obtain ⟨reply, hserve⟩ := hserve
    have hone : Supplies hash' conf db holder sent w m := by
      obtain ⟨g, hg, hall⟩ := hplain _ hin
      rw [hg] at hserve hin
      exact TargetServer.serve_supplies hq hin hall hserve
    obtain ⟨hrest, hhas⟩ := ih hone.quiet (fun d hd => hsent d (List.mem_cons_of_mem _ hd)) (hsafe.steps hone.steps) h
    refine ⟨hone.trans hrest, fun g hg obj hobj => ?_⟩
    rcases List.mem_cons.mp hg with hd | hg
    · subst hd
      obtain ⟨reply, hserve, hok⟩ := hm
      obtain ⟨hval, hkey⟩ := TargetServer.serve_has hq hin (hplain _ hin).forall hsafe hserve hok obj hobj
      exact ⟨(hsafe.steps hone.steps).taker_stays (hsafe.genuine _ (mem_copies hin hobj)) hval hrest.steps, hrest.keeps _ hkey⟩
    · exact hhas g hg obj hobj

end

end RedisXSlot
