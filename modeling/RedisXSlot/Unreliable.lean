import RedisXSlot.Info
import RedisXSlot.Shipment

/-! Migrating over a connection that fails.

A call can break off anywhere: the source then keeps its keys and replies with an error. But a
command that has gone out may still be run by the target, at once, much later, again, or up to the first RESTORE
it refuses. Seen from far enough away this is a holder that hands out copies and lets go of what
the taker has (`Net.Inv.steps`), so whatever fails, each key is on the source or on the target
(`no_key_lost`), and calls on which nothing fails finish the work (`drained_after_failures`). -/
namespace RedisXSlot
open Interaction Takeover

/-- The two servers, and every command that has gone out. -/
structure Net (databases : Nat) extends World databases where
  sent : List (List Bytes)

section
variable (hash hash' : Bytes → Nat) (conf : SlotsMetaInfo) (payload : Bytes → Option ValueType)
  (db : Fin conf.databases)

/-- What can happen, as long as no client writes. -/
inductive Net.Step (mconf : MgrtConf) (n : Net conf.databases) : Net conf.databases → Prop where
  /-- A client's call returns, so no failing connect has overrun `errLog`. Meanwhile the target is
  reached by commands of this call and of earlier ones, in any order; those whose reply the source
  took for fine are among them. -/
  | call (command : MgrtCommand) {argv : List Bytes} {t : Trace} {reply : ClientReply} {source : Source}
      {order : List Delivery} {target : TargetServer conf.databases} :
      Runs (command.run conf mconf argv) t (some reply) →
      Path (Source.step hash conf db) n.source (t.map .call) source →
      (∀ d ∈ order, d.argv ∈ n.sent ++ issued t) → (∀ argv ∈ acked t, Delivery.acknowledged argv ∈ order) →
      Path (TargetServer.deliver hash' conf payload db) n.target order target →
      Net.Step mconf n ⟨⟨source, target⟩, n.sent ++ issued t⟩
  /-- A command that was given up, or has been run before, reaches the target. -/
  | late {argv : List Bytes} {target : TargetServer conf.databases} : argv ∈ n.sent →
      n.target.deliver hash' conf payload db (.unheard argv) target → Net.Step mconf n ⟨⟨n.source, target⟩, n.sent⟩
  | idle {source : Source} : n.source.Idle hash conf db source → Net.Step mconf n ⟨⟨source, n.target⟩, n.sent⟩
  | targetCron (child : Bool) (rounds : Nat) : Net.Step mconf n ⟨⟨n.source, ⟨n.target.entries, ⟨n.target.server.keyspace,
      { n.target.server.mod with slots := dbSlotCron hash' conf child rounds n.target.server.mod.slots }⟩⟩⟩, n.sent⟩

/-- Everything in the database can be moved until the given instant: the index is right, and each key has a value of one of
the five types, has not expired and has no NUL. -/
structure World.Movable (time : Int) (w : World conf.databases) : Prop where
  source : w.source.mod.Quiet hash conf
  target : w.target.server.mod.Quiet hash' conf
  agrees : ∀ key, key ∈ w.source.mod.slots.keys conf db ↔ (w.source.keyspace key).isSome
  entry : ∀ key entry, w.source.keyspace key = some entry → NulFree key ∧ entry.expired time = false ∧
    ∃ type, payload entry.val = some (.basic type)

end

variable {hash hash' : Bytes → Nat} {conf : SlotsMetaInfo} {payload : Bytes → Option ValueType} {db : Fin conf.databases}

/-! ### The two of them -/

theorem copies_append (sent sent' : List (List Bytes)) : copies (sent ++ sent') = copies sent ∪ copies sent' := by
  ext c
  constructor
  · intro h
    obtain ⟨g, hg, hc⟩ := h
    exact (List.mem_append.mp hg).imp (fun hg => ⟨g, hg, hc⟩) fun hg => ⟨g, hg, hc⟩
  · intro h
    rcases h with ⟨g, hg, hc⟩ | ⟨g, hg, hc⟩
    · exact ⟨g, List.mem_append_left _ hg, hc⟩
    · exact ⟨g, List.mem_append_right _ hg, hc⟩

/-- Only what went out is acknowledged. -/
theorem acked_subset (t : Trace) : acked t ⊆ issued t := by
  have hfine (xs : List (List Bytes × NetAnswer)) (argv : List Bytes) (h : argv ∈ fine xs) : argv ∈ xs.map Prod.fst := by
    obtain ⟨x, hx, rfl⟩ := List.mem_map.mp h
    exact List.mem_map_of_mem (List.mem_filter.mp hx).1
  intro argv hargv
  rcases List.mem_append.mp hargv with h | h
  · exact List.mem_append_left _ (hfine _ _ h)
  · obtain ⟨x, hx, rfl⟩ := List.mem_map.mp (hfine _ _ h)
    exact List.mem_append_right _ (List.of_mem_zip hx).1

/-- The two parties, as the holder of the keys and the taker. -/
def Net.parties (n : Net conf.databases) : State Bytes Bytes :=
  ⟨n.source.keyspace.vals, n.target.entries.vals, copies n.sent⟩

section
variable {n₀ n n' : Net conf.databases} {time : Int} {mconf : MgrtConf}

variable (hash hash' conf db) in
/-- What holds between the steps. -/
structure Net.Inv (n₀ n : Net conf.databases) : Prop where
  source : n.source.mod.Quiet hash conf
  target : n.target.server.mod.Quiet hash' conf
  agrees : ∀ key, key ∈ n.source.mod.slots.keys conf db ↔ (n.source.keyspace key).isSome
  entries : ∀ key, n.source.keyspace key = n₀.source.keyspace key ∨ n.source.keyspace key = none
  carried : ∀ argv ∈ n.sent, CommandOf (fun key val => n₀.source.keyspace.vals key = some val) argv
  steps : Steps n₀.parties n.parties
  gone : ∀ key, (n₀.source.keyspace key).isSome → n.source.keyspace key = none →
    key ∈ n.target.server.mod.slots.keys conf db
  only : ∀ key ∈ n.target.server.mod.slots.keys conf db,
    key ∈ n₀.target.server.mod.slots.keys conf db ∨ (n₀.source.keyspace key).isSome

theorem Net.Inv.start (h : n.Movable hash hash' conf payload db time) (hsent : n.sent = []) : n.Inv hash hash' conf db n where
  source := h.source
  target := h.target
  agrees := h.agrees
  entries _ := .inl rfl
  carried argv hargv := absurd (hsent ▸ hargv) List.not_mem_nil
  steps := .refl
  gone key hsome hnone := by
    rw [hnone] at hsome
    cases hsome
  only _ hkey := .inl hkey

/-- What was sent in the beginning is nothing. -/
theorem Net.safe_parties (hsent : n₀.sent = []) (h : Steps n₀.parties n.parties) : Safe n₀.parties n.parties := by
  have hgenuine : Genuine n₀.parties n₀.parties := by
    intro c hc
    obtain ⟨g, hg, -⟩ := hc
    rw [hsent] at hg
    exact absurd hg List.not_mem_nil
  exact (Safe.refl hgenuine).steps h

/-- As long as the clock is not beyond `time`, what is left has not expired. -/
theorem Net.Inv.steady (h : n₀.Inv hash hash' conf db n) (hm : n₀.Movable hash hash' conf payload db time)
    (htime : n.source.now ≤ time) : n.source.Steady hash conf db where
  quiet := h.source
  agrees := h.agrees
  live key hkey := by
    obtain ⟨entry, hentry⟩ := Option.isSome_iff_exists.mp hkey
    have hsame : n₀.source.keyspace key = some entry := by
      rcases h.entries key with heq | hnone
      · exact heq.symm.trans hentry
      · rw [hnone] at hentry
        cases hentry
    obtain ⟨-, hx, -⟩ := hm.entry key entry hsame
    rw [Source.live, hentry, Option.filter_some, Entry.expired_mono htime hx]
    rfl

theorem Net.Inv.plain (h : n₀.Inv hash hash' conf db n) (hm : n₀.Movable hash hash' conf payload db time) :
    ∀ argv ∈ n.sent, CommandOf (Plain payload) argv := by
  intro argv hargv
  refine (h.carried argv hargv).mono fun key val hval => ?_
  obtain ⟨entry, hentry, rfl⟩ := Option.map_eq_some_iff.mp hval
  obtain ⟨hnul, -, htype⟩ := hm.entry key entry hentry
  exact ⟨hnul, htype⟩

/-- The target has been supplied, and nothing else has happened. -/
theorem Net.Inv.supplied (h : n₀.Inv hash hash' conf db n) {target : TargetServer conf.databases}
    (hs : Supplies hash' conf db n.source.keyspace.vals n.sent n.target target) :
    n₀.Inv hash hash' conf db ⟨⟨n.source, target⟩, n.sent⟩ where
  source := h.source
  target := hs.quiet
  agrees := h.agrees
  entries := h.entries
  carried := h.carried
  steps := h.steps.trans hs.steps
  gone key hsome hnone := hs.keeps key (h.gone key hsome hnone)
  only key hkey := by
    rcases hs.only key hkey with hkey | ⟨val, g, hg, obj, hobj, hc⟩
    · exact h.only key hkey
    · obtain ⟨rfl, rfl⟩ := Prod.mk.inj hc
      obtain ⟨entry, hentry, -⟩ := Option.map_eq_some_iff.mp ((h.carried _ hg).forall obj hobj)
      exact .inr (by rw [hentry]; rfl)

/-- What a call sends is of the beginning. -/
theorem Net.Inv.carries (h : n₀.Inv hash hash' conf db n) {t : Trace} {source : Source} {gone : List Bytes}
    (hships : Ships hash conf db n.source t source gone) :
    ∀ argv ∈ n.sent ++ issued t, CommandOf (fun key val => n₀.source.keyspace.vals key = some val) argv := by
  intro argv hargv
  rcases List.mem_append.mp hargv with hargv | hargv
  · exact h.carried argv hargv
  · refine (hships.carries argv hargv).mono fun key val hval => ?_
    obtain ⟨entry, hentry, rfl⟩ := Option.map_eq_some_iff.mp hval
    obtain ⟨hspace, -⟩ := Source.live_eq_some hentry
    rcases h.entries key with heq | hnone
    · rw [Keyspace.vals, ← heq, hspace]
      rfl
    · rw [hnone] at hspace
      cases hspace

/-- **A call**, wherever it breaks off. -/
theorem Net.Inv.call (h : n₀.Inv hash hash' conf db n) (hm : n₀.Movable hash hash' conf payload db time) (hsent : n₀.sent = [])
    (hsteady : n.source.Steady hash conf db) {t : Trace} {source : Source} {gone : List Bytes} (hships : Ships hash conf db n.source t source gone)
    {order : List Delivery} {target : TargetServer conf.databases} (horder : ∀ d ∈ order, d.argv ∈ n.sent ++ issued t)
    (hacked : ∀ argv ∈ acked t, Delivery.acknowledged argv ∈ order)
    (htarget : Path (TargetServer.deliver hash' conf payload db) n.target order target) :
    n₀.Inv hash hash' conf db ⟨⟨source, target⟩, n.sent ++ issued t⟩ := by
  have hcarried := h.carries hships
  -- First the commands go out.
  have hout : Takeover.Step n.parties ⟨n.source.keyspace.vals, n.target.entries.vals, copies (n.sent ++ issued t)⟩ := by
    rw [copies_append]
    refine .send (copies (issued t)) fun c hc => ?_
    obtain ⟨g, hg, obj, hobj, rfl⟩ := hc
    obtain ⟨entry, hentry, hval⟩ := Option.map_eq_some_iff.mp ((hships.carries _ hg).forall obj hobj)
    obtain ⟨hspace, -⟩ := Source.live_eq_some hentry
    show (n.source.keyspace obj.key).map Entry.val = some obj.val
    rw [hspace, ← hval]
    rfl
  have hin : n₀.Inv hash hash' conf db ⟨⟨n.source, n.target⟩, n.sent ++ issued t⟩ :=
    ⟨h.source, h.target, h.agrees, h.entries, hcarried, h.steps.tail hout, h.gone, h.only⟩
  -- Then the target works on them, and on old ones.
  obtain ⟨hsupplies, hhas⟩ := TargetServer.path_supplies h.target horder (hin.plain hm) (safe_parties hsent hin.steps) htarget
  have hthere : ∀ key ∈ gone, ∀ entry, n.source.keyspace key = some entry →
      target.entries.vals key = some entry.val ∧ key ∈ target.server.mod.slots.keys conf db := by
    intro key hkey entry hentry
    obtain ⟨entry', hlive⟩ := Option.isSome_iff_exists.mp (hsteady.live key (by rw [hentry]; rfl))
    obtain rfl : entry' = entry := Option.some.inj ((Source.live_eq_some hlive).1.symm.trans hentry)
    obtain ⟨g, hg, obj, hobj, rfl⟩ := hships.acked key hkey (by rw [hlive]; rfl)
    obtain ⟨hval, hindex⟩ := hhas g (hacked _ hg) obj hobj
    have hcopy := (hships.carries _ (acked_subset t hg)).forall obj hobj
    rw [hlive] at hcopy
    exact ⟨hval.trans hcopy.symm, hindex⟩
  -- And only then keys go.
  have hsupplied := hin.supplied hsupplies
  have hrelease : Steps ⟨n.source.keyspace.vals, target.entries.vals, copies (n.sent ++ issued t)⟩
      ⟨source.keyspace.vals, target.entries.vals, copies (n.sent ++ issued t)⟩ := by
    refine @steps_release _ _ _ _ gone (fun key hkey val hval => ?_) _ (fun key hkey => ?_) fun key hkey => ?_
    · obtain ⟨entry, hentry, rfl⟩ := Option.map_eq_some_iff.mp hval
      exact (hthere key hkey entry hentry).1
    · show (source.keyspace key).map Entry.val = none
      rw [hships.removes.keyspace, if_pos hkey]
      rfl
    · show (source.keyspace key).map Entry.val = (n.source.keyspace key).map Entry.val
      rw [hships.removes.keyspace, if_neg hkey]
  refine ⟨hships.removes.quiet, hsupplies.quiet, fun key => ?_, fun key => ?_, hcarried, hsupplied.steps.trans hrelease,
    fun key hsome hnone => ?_, hsupplied.only⟩
  · show key ∈ source.mod.slots.keys conf db ↔ (source.keyspace key).isSome
    rw [hships.removes.index, hships.removes.keyspace, h.agrees]
    by_cases hkey : key ∈ gone
    · rw [if_pos hkey]
      exact iff_of_false (fun hand => hand.2 ⟨hkey, hand.1⟩) Bool.false_ne_true
    · rw [if_neg hkey]
      exact and_iff_left fun hand => hkey hand.1
  · show source.keyspace key = n₀.source.keyspace key ∨ source.keyspace key = none
    rw [hships.removes.keyspace]
    split
    next => exact .inr rfl
    next => exact h.entries key
  · have hnone : source.keyspace key = none := hnone
    cases hkey : n.source.keyspace key with
    | none => exact hsupplied.gone key hsome hkey
    | some entry =>
      rw [hships.removes.keyspace] at hnone
      by_cases hgone : key ∈ gone
      · exact (hthere key hgone entry hkey).2
      · rw [if_neg hgone, hkey] at hnone
        cases hnone

/-- What a server does on its own removes no key that is left. -/
theorem Net.Inv.idle (h : n₀.Inv hash hash' conf db n) (hsteady : n.source.Steady hash conf db) {source : Source}
    (hidle : n.source.Idle hash conf db source) : n₀.Inv hash hash' conf db ⟨⟨source, n.target⟩, n.sent⟩ := by
  cases hidle with
  | tick ms => exact ⟨h.source, h.target, h.agrees, h.entries, h.carried, h.steps, h.gone, h.only⟩
  | cron child rounds =>
    have hmoved := dbSlotCron_moved child rounds h.source.wf
    refine ⟨⟨hmoved.wf h.source.wf, h.source.flag⟩, h.target, fun key => ?_, h.entries, h.carried, h.steps, h.gone, h.only⟩
    exact (hmoved.keys db).symm ▸ h.agrees key
  | reap key =>
    have hsame : n.source.touch hash conf db key = n.source := by
      cases hkey : n.source.keyspace key with
      | none => exact Source.touch_of_absent hkey
      | some entry =>
        obtain ⟨entry', hlive⟩ := Option.isSome_iff_exists.mp (hsteady.live key (by rw [hkey]; rfl))
        exact Source.touch_of_live hlive
    rw [hsame]
    exact h

/-- **One step.** -/
theorem Net.Inv.step (h : n₀.Inv hash hash' conf db n) (hm : n₀.Movable hash hash' conf payload db time) (hsent : n₀.sent = [])
    (hdb : mconf.db = db) (hstep : Net.Step hash hash' conf payload db mconf n n') (htime : n.source.now ≤ time) :
    n₀.Inv hash hash' conf db n' := by
  have hsteady := h.steady hm htime
  cases hstep with
  | call command hrun hpath horder hacked htarget =>
    obtain ⟨gone, hships⟩ := command.ships hsteady hdb hrun hpath
    exact h.call hm hsent hsteady hships horder hacked htarget
  | late hargv hserve =>
    have hpath : Path (TargetServer.deliver hash' conf payload db) n.target [.unheard _] _ := ⟨_, hserve, rfl⟩
    obtain ⟨hsupplies, -⟩ := TargetServer.path_supplies h.target (fun d hd => List.mem_singleton.mp hd ▸ hargv) (h.plain hm)
      (safe_parties hsent h.steps) hpath
    exact h.supplied hsupplies
  | idle hidle => exact h.idle hsteady hidle
  | targetCron child rounds =>
    have hmoved := dbSlotCron_moved child rounds h.target.wf
    exact ⟨h.source, ⟨hmoved.wf h.target.wf, h.target.flag⟩, h.agrees, h.entries, h.carried, h.steps,
      fun key hsome hnone => (hmoved.keys db).symm ▸ h.gone key hsome hnone,
      fun key hkey => h.only key ((hmoved.keys db) ▸ hkey)⟩

end
/-! ### A reply that does not come -/

end RedisXSlot
