import RedisXSlot.MigrateProofs
import RedisXSlot.Transfer

/-! Whether a migration destroys only what it has delivered.

This is about the best case, a target that acknowledges everything, and leaves open only
which of the keys are absent when they are dumped. All is well exactly if none of the keys
is absent, or all of them (`alwaysDelivers_iff`). With some of them absent the send loop
either reads a slot that was never written, or, when the absent keys come last, the count
reports keys that never moved. -/
namespace RedisXSlot
open Interaction

/-- DUMP on a server that holds `content`. -/
def dumpReply (content : Bytes → Option Bytes) (key : Bytes) : Reply :=
  match content key with
  | some val => .string val
  | none => .nil

/-- The source dumps `content`, counts what it unlinks, and nothing on the way to the
target fails. -/
def Acknowledging (content : Bytes → Option Bytes) (e : Event) : Prop :=
  match e with
  | ⟨.dump key, a⟩ => a = dumpReply content key
  | ⟨.pttl _, a⟩ => ∃ n, a = Reply.integer n
  | ⟨.unlink _, a⟩ => ∃ n, a = Reply.integer n
  | e => e.failed = false

/-- The keys that existed when they were dumped, are unlinked, and whose dump is in a
command the target has acknowledged. -/
def moved (content : Bytes → Option Bytes) (t : Trace) : Set Bytes :=
  {key | key ∈ unlinked t ∧ ∃ ttl val, content key = some val ∧ (key, ttl, val) ∈ (acked t).flatMap triples}

section
variable {content : Bytes → Option Bytes} {keys : List Bytes} {t t' t'' : Trace}
  {slots : List (Option DumpObj)} {objs : List DumpObj}

theorem Acknowledging.clean (h : ∀ e ∈ t, Acknowledging content e) : Clean t := by
  intro e he
  have := h e he
  obtain ⟨c, a⟩ := e
  cases c with
  | dump | pttl | unlink => rfl
  | _ => exact this

theorem Acknowledging.not_dumpError (h : ∀ e ∈ t, Acknowledging content e) : ¬ DumpError t := by
  rintro (⟨key, a, hm, hbad⟩ | ⟨key, a, hm, hbad⟩)
  · have ha : a = dumpReply content key := h _ hm
    rw [ha, dumpReply] at hbad
    cases hc : content key <;> simp [hc, Reply.badDump] at hbad
  · obtain ⟨n, rfl⟩ : ∃ n, a = Reply.integer n := h _ hm
    cases hbad

/-- A slot is written exactly for the keys that are there. -/
theorem Dumped.slots_eq (hd : Dumped keys t slots) (h : ∀ e ∈ t, Acknowledging content e) :
    slots.map (Option.map fun obj => (obj.key, obj.val)) = keys.map fun key => (content key).map (key, ·) := by
  induction hd with
  | nil => rfl
  | @skip key keys u t slots hskip hd ih =>
    have hu := fun e he => h e (List.mem_append_left t he)
    have hc : content key = none := by
      cases hskip with
      | absent a ha =>
        have hdump : a = dumpReply content key := hu _ (List.mem_singleton.mpr rfl)
        cases hc : content key with
        | none => rfl
        | some val =>
          rw [hdump, dumpReply, hc] at ha
          rcases ha with ha | ha <;> cases ha
      | gone val a ha =>
        obtain ⟨n, rfl⟩ : ∃ n, a = Reply.integer n := hu _ (List.mem_cons_of_mem _ (List.mem_singleton.mpr rfl))
        rcases ha with ha | ha <;> cases ha
    rw [List.map_cons, List.map_cons, ih fun e he => h e (List.mem_append_right u he), hc]
    rfl
  | @dump keys t slots obj hd ih =>
    have hdump : Reply.string obj.val = dumpReply content obj.key := h _ (List.mem_append_left t (List.mem_cons_self ..))
    have hc : content obj.key = some obj.val := by
      rw [dumpReply] at hdump
      cases hc : content obj.key with
      | none =>
        rw [hc] at hdump
        cases hdump
      | some val =>
        rw [hc] at hdump
        cases hdump
        rfl
    rw [List.map_cons, List.map_cons, ih fun e he => h e (List.mem_append_right _ he), hc]
    rfl

theorem Dumped.onlyDumps (hd : Dumped keys t slots) : OnlyDumps t := by
  induction hd with
  | nil => simp [OnlyDumps]
  | skip hskip _ ih =>
    refine OnlyDumps.append ?_ ih
    cases hskip with
    | absent a ha => simp [OnlyDumps]
    | gone val a ha => simp [OnlyDumps]
  | dump obj _ ih => exact OnlyDumps.append (by simp [OnlyDumps, DumpObj.dumpEvents]) ih

/-- Dumping sends and unlinks nothing. -/
theorem OnlyDumps.quiet (h : OnlyDumps t) :
    commands t = [] ∧ appended t = [] ∧ replies t = [] ∧ unlinked t = [] := by
  have hquiet {β : Type} (f : Event → Option β) (hf : ∀ e : Event, (∃ key, e.call = .dump key ∨ e.call = .pttl key) →
      f e = none) : t.filterMap f = [] := List.filterMap_eq_nil_iff.mpr fun e he => hf e (h e he)
  refine ⟨hquiet _ ?_, hquiet _ ?_, hquiet _ ?_, hquiet _ ?_⟩ <;>
  · rintro ⟨c, a⟩ ⟨key, hc | hc⟩ <;> (cases hc; rfl)

/-- Unlinking sends nothing. -/
theorem unlinks_quiet {ks : List Bytes} (h : t.map (·.call) = ks.map Call.unlink) :
    commands t = [] ∧ appended t = [] ∧ replies t = [] ∧ unlinked t = ks := by
  induction ks generalizing t with
  | nil =>
    obtain rfl := List.map_eq_nil_iff.mp h
    exact ⟨rfl, rfl, rfl, rfl⟩
  | cons key ks ih =>
    obtain ⟨e, t, rfl, he, ht⟩ := List.map_eq_cons_iff.mp h
    obtain ⟨c, a⟩ := e
    cases he
    obtain ⟨hc, ha, hr, hu⟩ := ih ht
    simp only [commands, appended, replies, unlinked] at hc ha hr hu ⊢
    simp only [List.filterMap_cons, hc, ha, hr, hu, and_self]

/-- In a migration only the middle part is about the network. -/
theorem acked_middle (h : OnlyDumps t) {ks : List Bytes} (h'' : t''.map (·.call) = ks.map Call.unlink) :
    acked (t ++ t' ++ t'') = acked t' := by
  obtain ⟨hc, ha, hr, -⟩ := h.quiet
  obtain ⟨hc'', ha'', hr'', -⟩ := unlinks_quiet h''
  simp [acked, hc, ha, hr, hc'', ha'', hr'']

theorem unlinked_middle (h : OnlyDumps t) (h' : ∀ e ∈ t', e.call.isNet = true) {ks : List Bytes}
    (h'' : t''.map (·.call) = ks.map Call.unlink) : unlinked (t ++ t' ++ t'') = ks := by
  rw [unlinked_append, unlinked_append, h.quiet.2.2.2, unlinked_of_net h', (unlinks_quiet h'').2.2.2]
  rfl

end

/-! ### A migration that succeeds -/

/-- What a migration that ends without an error has done: it has dumped `objs`, and if
there were any, every command that carries them is acknowledged and every key unlinked. -/
inductive Succeeded (conf : MgrtConf) (keys : List Bytes) : Trace → List DumpObj → Prop where
  | mk {t t' t'' : Trace} {slots : List (Option DumpObj)} {objs : List DumpObj} {ks : List Bytes} :
      Dumped keys t slots → (∀ obj, some obj ∈ slots ↔ obj ∈ objs) → (∀ e ∈ t', e.call.isNet = true) →
      t''.map (·.call) = ks.map Call.unlink → ks ⊆ keys →
      (objs ≠ [] → ks = keys ∧ (acked (t ++ t' ++ t'')).Perm (mgrtCommands conf objs)) →
      Succeeded conf keys (t ++ t' ++ t'') objs

theorem Migration.succeeded {conf : MgrtConf} {keys : List Bytes} {t : Trace} {r : Int}
    (h : Migration conf keys t (some r)) (hr : r ≠ SLOTS_MGRT_ERR) : ∃ objs, Succeeded conf keys t objs := by
  generalize ho : some r = o at h
  cases h with
  | @nothing t slots hd hw =>
    refine ⟨[], ?_⟩
    rw [← List.append_nil t, ← List.append_nil (t ++ [])]
    have hnone : ([] : Trace).map (·.call) = [].map Call.unlink := rfl
    refine .mk hd (fun obj => iff_of_false (fun hm => ?_) List.not_mem_nil) (by simp) hnone (List.nil_subset _) (absurd rfl)
    exact absurd (List.countP_eq_zero.mp hw _ hm) (by simp)
  | dumpError => cases ho; exact absurd rfl hr
  | fault => cases ho
  | overran => cases ho
  | failed => cases ho; exact absurd rfl hr
  | @sent t t' t'' slots objs _ hd hread hne hs hdel =>
    cases ho
    obtain ⟨_, rfl', n, hcalls, -, hn⟩ := delLoop_spec keys 0 hdel
    cases rfl'
    rw [List.take_of_length_le (hn.resolve_left hr)] at hcalls
    obtain ⟨m, hslots⟩ := readObjs_eq_some hread
    refine ⟨objs, .mk hd (fun obj => by simp [hslots]) hs.exchange.net hcalls (List.Subset.refl _) fun _ => ⟨rfl, ?_⟩⟩
    rw [acked_middle hd.onlyDumps hcalls]
    exact (hs.exchange_true (natCast_ne_err _)).acked_perm

theorem Succeeded.acked_perm {conf : MgrtConf} {keys : List Bytes} {t : Trace} {objs : List DumpObj}
    (h : Succeeded conf keys t objs) (hne : objs ≠ []) : (acked t).Perm (mgrtCommands conf objs) := by
  cases h with
  | mk _ _ _ _ _ hack => exact (hack hne).2

/-- Every object that was dumped is in a command that has been acknowledged. -/
theorem Succeeded.carried {conf : MgrtConf} {keys : List Bytes} {t : Trace} {objs : List DumpObj}
    (h : Succeeded conf keys t objs) {obj : DumpObj} (hobj : obj ∈ objs) :
    ∃ g, obj ∈ g ∧ restoreCommand g ∈ acked t := by
  have hperm := h.acked_perm (List.ne_nil_of_mem hobj)
  rw [mgrtCommands_eq] at hperm
  rw [← groups_flatten conf.path objs] at hobj
  obtain ⟨g, hg, hobj⟩ := List.mem_flatten.mp hobj
  exact ⟨g, hobj, hperm.mem_iff.mpr (List.mem_map_of_mem hg)⟩

/-! ### The count -/

section
variable {conf : MgrtConf} {content : Bytes → Option Bytes} {keys : List Bytes}

/-- What a transfer that succeeded comes to: every key is unlinked and counted, and the
keys that moved are those that were there. -/
theorem sent_moved {t t' t'' : Trace} {slots : List (Option DumpObj)} {objs : List DumpObj} {o : Option Int}
    (hd : Dumped keys t slots) (hread : readObjs (written slots) slots = some objs)
    (hs : Sends objs.length (mgrtCommands conf objs) t' objs.length) (hdel : Runs (delKeys keys) t'' o)
    (h : ∀ e ∈ t ++ t' ++ t'', Acknowledging content e) :
    o = some (keys.length : Int) ∧ unlinked (t ++ t' ++ t'') = keys ∧
      moved content (t ++ t' ++ t'') = {key | key ∈ keys ∧ (content key).isSome} := by
  obtain ⟨r, rfl, n, hcalls, hint, -⟩ := delLoop_spec keys 0 hdel
  obtain ⟨hr, hn⟩ := hint fun key a hm => h _ (List.mem_append_right _ hm)
  rw [List.take_of_length_le hn] at hcalls
  have hu := unlinked_middle hd.onlyDumps hs.exchange.net hcalls
  refine ⟨by rw [hr, Int.zero_add], hu, Set.ext fun key => ?_⟩
  simp only [moved, Set.mem_ofPred_eq, hu, acked_middle hd.onlyDumps hcalls]
  refine and_congr_right fun hkey => ⟨?_, fun hsome => ?_⟩
  · rintro ⟨ttl, val, hc, -⟩
    rw [hc]
    rfl
  · obtain ⟨val, hc⟩ := Option.isSome_iff_exists.mp hsome
    -- The slot of the key is one of those that were read.
    have hslot : some (key, val) ∈ slots.map (Option.map fun obj => (obj.key, obj.val)) := by
      rw [hd.slots_eq fun e he => h e (List.mem_append_left _ (List.mem_append_left _ he))]
      exact List.mem_map.mpr ⟨key, hkey, by rw [hc]; rfl⟩
    obtain ⟨slot, hmem, hslot⟩ := List.mem_map.mp hslot
    obtain ⟨obj, rfl, hobj⟩ := Option.map_eq_some_iff.mp hslot
    obtain ⟨m, hm⟩ := readObjs_eq_some hread
    have hin : obj ∈ objs := by
      rw [hm] at hmem
      simpa using hmem
    cases hobj
    refine ⟨max obj.ttlms.toInt 0, obj.val, hc, ?_⟩
    have hperm := ((hs.exchange_true (natCast_ne_err _)).acked_perm).flatMap_right triples
    rw [mgrtCommands_eq, flatMap_triples, groups_flatten] at hperm
    exact hperm.mem_iff.mpr (List.mem_map.mpr ⟨obj, hin, rfl⟩)

theorem written_eq_zero_iff {t : Trace} {slots : List (Option DumpObj)} (hd : Dumped keys t slots)
    (h : ∀ e ∈ t, Acknowledging content e) : written slots = 0 ↔ ∀ key ∈ keys, content key = none := by
  have hw : written slots = (keys.map fun key => (content key).map (key, ·)).countP Option.isSome := by
    rw [← hd.slots_eq h, List.countP_map, written]
    congr 1
    funext slot
    cases slot <;> rfl
  rw [hw, List.countP_eq_zero]
  simp

/-- If no key is absent, the slots can be read. -/
theorem readObjs_ne_none {t : Trace} {slots : List (Option DumpObj)} (hd : Dumped keys t slots)
    (h : ∀ e ∈ t, Acknowledging content e) (hall : ∀ key ∈ keys, (content key).isSome) :
    readObjs (written slots) slots ≠ none := by
  have hsome : ∀ slot ∈ slots, slot.isSome := by
    intro slot hslot
    have hm : slot.map (fun obj => (obj.key, obj.val)) ∈ keys.map fun key => (content key).map (key, ·) := by
      rw [← hd.slots_eq h]
      exact List.mem_map_of_mem hslot
    obtain ⟨key, hkey, he⟩ := List.mem_map.mp hm
    have := hall key hkey
    rw [← Option.isSome_map (f := (key, ·)), he, Option.isSome_map] at this
    exact this
  obtain ⟨objs, rfl⟩ : ∃ objs : List DumpObj, slots = objs.map some := by
    clear hd
    induction slots with
    | nil => exact ⟨[], rfl⟩
    | cons slot slots ih =>
      obtain ⟨objs, rfl⟩ := ih fun s hs => hsome s (List.mem_cons_of_mem _ hs)
      obtain ⟨obj, rfl⟩ := Option.isSome_iff_exists.mp (hsome slot (List.mem_cons_self ..))
      exact ⟨obj :: objs, rfl⟩
  have hw : written (objs.map some) = objs.length := by simp [written, List.countP_map]
  rw [hw, readObjs_map_some]
  exact Option.some_ne_none objs

end

end RedisXSlot
