import RedisXSlot.Announce
import RedisXSlot.Draw

/-! One call of SLOTSMGRTSLOT or SLOTSMGRTTAGSLOT, on both servers.

A call draws from the very table that its own UNLINKs make smaller, and the target that runs what it
sends fills the table of the same slot. A call on which nothing fails takes over a key, or
one group of tagged keys (`Ready.slotCall`, `Ready.tagSlotCall`), and as long as the slot has a
key such a call can be made (`Ready.exists_call`). -/
namespace RedisXSlot
open Interaction

/-- The target: what its keys hold, and their types with the index. -/
structure TargetServer (databases : Nat) where
  entries : Keyspace
  server : TypedServer databases

/-- The two servers of a migration. -/
structure World (databases : Nat) where
  source : Source
  target : TargetServer databases

/-- The command line names the slot. -/
structure NamesSlot (slot : Nat) (argv : List Bytes) : Prop where
  arity : argv.length = 5 ∨ argv.length = 6
  timeout : (string2ll (argv.getD 3 [])).isSome
  slot : string2ll (argv.getD 4 []) = some (slot : Int)

section
variable (hash hash' : Bytes → Nat) (conf : SlotsMetaInfo) (payload : Bytes → Option ValueType)
  (db : Fin conf.databases)

/-- The target runs a command, refuses nothing and finds no error. -/
def TargetServer.step (w : TargetServer conf.databases) (argv : List Bytes) (w' : TargetServer conf.databases) : Prop :=
  ∃ now t r, Runs (slotsRestoreCmd argv) t (some r) ∧ r ≠ SLOTS_MGRT_ERR ∧ RedisReplies t ∧
    w'.entries = targetAfter now w.entries t ∧ Path (TypedServer.Answers hash' conf payload db) w.server t w'.server

/-- What a server does on its own: time passes, a key that has expired is removed, and the cron looks
after the index. -/
inductive Source.Idle (s : Source) : Source → Prop where
  | tick (ms : Nat) : Source.Idle s { s with now := s.now + ms }
  | reap (key : Bytes) : Source.Idle s (s.touch hash conf db key)
  | cron (child : Bool) (rounds : Nat) :
      Source.Idle s { s with mod := { s.mod with slots := dbSlotCron hash conf child rounds s.mod.slots } }

/-- What the source has to answer can be answered: keys can be drawn, and what is left of an expiry is
a `long long`. -/
structure Source.Responsive (s : Source) : Prop where
  swept : s.mod.slots.AllSwept
  ttl : ∀ key entry expire, s.keyspace key = some entry → entry.expire = some expire → expire - s.now < 2 ^ 63

namespace World

/-- A client's call of the command, on which nothing fails: the target runs what it acknowledges. -/
def call (command : List Bytes → Act ClientReply) (slot : Nat) (w : World conf.databases) (o : Option ClientReply)
    (w' : World conf.databases) : Prop :=
  ∃ argv t order, NamesSlot slot argv ∧ Runs (command argv) t o ∧ Clean t ∧
    Path (Source.step hash conf db) w.source (t.map .call) w'.source ∧
    order.Perm (acked t) ∧ Path (TargetServer.step hash' conf payload db) w.target order w'.target

/-- The keys of the slot on the source. -/
def onSource {conf : SlotsMetaInfo} (db : Fin conf.databases) (slot : Nat) (w : World conf.databases) : Set Bytes :=
  {key | key ∈ (w.source.mod.slots.table db slot).keys}

/-- The keys of the slot on the target. -/
def onTarget {conf : SlotsMetaInfo} (db : Fin conf.databases) (slot : Nat) (w : World conf.databases) : Set Bytes :=
  {key | key ∈ (w.target.server.mod.slots.table db slot).keys}

/-- The slot can be moved until the given instant: both indexes are right, and each of its keys has a
value of one of the five types, has not expired and has no NUL. -/
structure Ready (slot : Nat) (time : Int) (w : World conf.databases) : Prop where
  source : w.source.mod.Quiet hash conf
  target : w.target.server.mod.Quiet hash' conf
  agrees : ∀ key, slotsNum conf.hash_slots_size key = slot → (w.source.keyspace key).isSome → key ∈ w.onSource db slot
  nulFree : ∀ key ∈ w.onSource db slot, NulFree key
  entry : ∀ key ∈ w.onSource db slot, ∃ entry type, w.source.keyspace key = some entry ∧ entry.expired time = false ∧
    payload entry.val = some (.basic type)

/-- These keys of the slot have moved, each with its value, and the others are where they were. -/
structure Moves (slot : Nat) (moved : Set Bytes) (w w' : World conf.databases) : Prop where
  source : w'.source.mod.Quiet hash conf
  target : w'.target.server.mod.Quiet hash' conf
  now : w.source.now ≤ w'.source.now
  subset : moved ⊆ w.onSource db slot
  onSource : w'.onSource db slot = w.onSource db slot \ moved
  onTarget : w'.onTarget db slot = w.onTarget db slot ∪ moved
  gone : ∀ key ∈ moved, w'.source.keyspace key = none
  left : ∀ key, slotsNum conf.hash_slots_size key = slot → key ∉ moved → w'.source.keyspace key = w.source.keyspace key
  delivered : ∀ key ∈ moved, ∃ entry entry', w.source.keyspace key = some entry ∧
    w'.target.entries key = some entry' ∧ entry'.val = entry.val
  awaited : ∀ key, slotsNum conf.hash_slots_size key = slot → key ∉ moved → w'.target.entries key = w.target.entries key

end World
end

variable {hash hash' : Bytes → Nat} {conf : SlotsMetaInfo} {payload : Bytes → Option ValueType} {db : Fin conf.databases}

/-! ### The target -/

section
variable {gs : List (List DumpObj)} {w w' : TargetServer conf.databases}

/-- A command that is run without an error restores the keys of its objects, and no others. -/
theorem restoredBasic_iff {g : List DumpObj} (hnul : ∀ obj ∈ g, NulFree obj.key)
    (hbasic : ∀ obj ∈ g, ∃ type, payload obj.val = some (.basic type)) {t : Trace} {r : Int}
    (hrun : Runs (slotsRestoreCmd (restoreCommand g)) t (some r)) (hr : r ≠ SLOTS_MGRT_ERR) (hreply : RedisReplies t)
    (key : Bytes) : RestoredBasic payload t key ↔ key ∈ g.map DumpObj.key := by
  constructor
  · rintro ⟨ttlms, val, status, type, hmem, -⟩
    obtain ⟨-, hcalls⟩ := slotsRestoreCmd_calls (decodeTriples_restoreCommand g) hrun hr
    have hin : (⟨.restore key ttlms val, Reply.string status⟩ : Event) ∈ restores t := List.mem_filter.mpr ⟨hmem, rfl⟩
    have hcall := List.mem_map_of_mem (f := Event.call) hin
    rw [hcalls, List.map_map] at hcall
    obtain ⟨obj, hobj, heq⟩ := List.mem_map.mp hcall
    have hkey : cString obj.sent.key = key := (Call.restore.inj heq).1
    have hsent : cString obj.sent.key = obj.key := cString_of_nulFree (hnul obj hobj)
    rw [← hkey, hsent]
    exact List.mem_map_of_mem hobj
  · intro hkey
    obtain ⟨obj, hobj, rfl⟩ := List.mem_map.mp hkey
    obtain ⟨argv, hargv, hall⟩ := restored_of_mem (List.mem_singleton_self (restoreCommand g)) hobj
    rw [List.mem_singleton.mp hargv] at hall
    obtain ⟨status, hmem⟩ := hall t r hrun hr hreply
    obtain ⟨type, htype⟩ := hbasic obj hobj
    rw [cString_of_nulFree (hnul obj hobj)] at hmem
    exact ⟨_, _, status, type, hmem, htype⟩

/-- One command: both the keys and the index of the target get its objects. -/
theorem TargetServer.step_index {g : List DumpObj} (hnul : ∀ obj ∈ g, NulFree obj.key)
    (hbasic : ∀ obj ∈ g, ∃ type, payload obj.val = some (.basic type)) (hq : w.server.mod.Quiet hash' conf)
    (h : w.step hash' conf payload db (restoreCommand g) w') :
    (∃ now, RestoreStep now w.entries (restoreCommand g) w'.entries) ∧ w'.server.mod.Quiet hash' conf ∧
      ∀ key, key ∈ w'.server.mod.slots.keys conf db ↔
        key ∈ w.server.mod.slots.keys conf db ∨ key ∈ g.map DumpObj.key := by
  obtain ⟨now, t, r, hrun, hr, hreply, hentries, hpath⟩ := h
  have hdecoded : ∀ objs, decodeTriples (restoreCommand g).tail = some objs → ∀ obj ∈ objs, NulFree obj.key := by
    intro objs hobjs obj hobj
    rw [decodeTriples_restoreCommand] at hobjs
    cases hobjs
    obtain ⟨obj', hobj', rfl⟩ := List.mem_map.mp hobj
    exact hnul obj' hobj'
  have hann := TypedServer.slotsRestoreCmd_announces hdecoded hq hrun hpath
  refine ⟨⟨now, t, r, hrun, hr, hreply, hentries⟩, hann.quiet, fun key => ?_⟩
  rw [hann.index, restoredBasic_iff hnul hbasic hrun hr hreply]

/-- A target can restore what it is sent. -/
theorem TypedServer.exists_restoreAll {objs : List DumpObj} (hnul : ∀ obj ∈ objs, NulFree obj.key)
    (hbasic : ∀ obj ∈ objs, ∃ type, payload obj.val = some (.basic type)) {s : TypedServer conf.databases}
    (hq : s.mod.Quiet hash' conf) : ∃ t s', Runs (restoreAll objs) t (some true) ∧ RedisReplies t ∧
      Path (TypedServer.Answers hash' conf payload db) s t s' := by
  induction objs generalizing s with
  | nil => exact ⟨[], s, .ret true, fun key ttlms val a hmem => absurd hmem List.not_mem_nil, rfl⟩
  | cons obj objs ih =>
    obtain ⟨type, htype⟩ := hbasic obj List.mem_cons_self
    have hcString : cString obj.key = obj.key := cString_of_nulFree (hnul obj List.mem_cons_self)
    let ttlms := if obj.ttlms < 0 then 0 else obj.ttlms
    have hrestored := @TypedServer.Answers.restored hash' conf payload db s obj.key ttlms obj.val [] (.basic type) 0 htype
    rw [notify_restore hq.flag] at hrestored
    have hfound := @TypedServer.Answers.found hash' conf payload db ⟨s.setKey db obj.key (some (.basic type)), s.mod⟩ obj.key
      (.basic type) 0 TypedServer.setKey_self
    have hann : TypedServer.Announces hash' conf payload db _ s _ :=
      TypedServer.Announces.restored hq obj.key ttlms [] htype 0
    obtain ⟨t, s', hrun, hreplies, hpath⟩ :=
      ih (fun obj hobj => hnul obj (List.mem_cons_of_mem _ hobj)) (fun obj hobj => hbasic obj (List.mem_cons_of_mem _ hobj))
        hann.quiet
    have hone : Runs (restoreOneWithReplace obj) [⟨.restore obj.key ttlms obj.val, Reply.string []⟩, ⟨.notifyOne obj.key, ()⟩]
        (some 1) := by
      rw [restoreOneWithReplace, hcString]
      exact .call _ (.call _ (.ret _))
    refine ⟨⟨.restore obj.key ttlms obj.val, Reply.string []⟩ :: ⟨.notifyOne obj.key, ()⟩ :: t, s', ?_, ?_, _, hrestored, _,
      hfound, hpath⟩
    · exact Runs.bind hone hrun
    · intro key' ttlms' val a hmem
      rcases List.mem_cons.mp hmem with he | hmem
      · cases he
        exact .inr ⟨_, rfl⟩
      · have hne : (⟨.restore key' ttlms' val, a⟩ : Event) ≠ ⟨.notifyOne obj.key, ()⟩ := fun he => by cases he
        exact hreplies key' ttlms' val a ((List.mem_cons.mp hmem).resolve_left hne)

theorem TargetServer.exists_step {g : List DumpObj} (hnul : ∀ obj ∈ g, NulFree obj.key)
    (hbasic : ∀ obj ∈ g, ∃ type, payload obj.val = some (.basic type)) (hq : w.server.mod.Quiet hash' conf) :
    ∃ w', w.step hash' conf payload db (restoreCommand g) w' := by
  obtain ⟨t, s', hrun, hreplies, hpath⟩ := @TypedServer.exists_restoreAll hash' conf payload db (g.map DumpObj.sent)
    (fun obj hobj => by
      obtain ⟨obj', hobj', rfl⟩ := List.mem_map.mp hobj
      exact hnul obj' hobj')
    (fun obj hobj => by
      obtain ⟨obj', hobj', rfl⟩ := List.mem_map.mp hobj
      exact hbasic obj' hobj') w.server hq
  have hcmd : Runs (slotsRestoreCmd (restoreCommand g)) t (some ((g.map DumpObj.sent).length : Int)) := by
    rw [slotsRestoreCmd, decodeTriples_restoreCommand, ← List.append_nil t]
    exact Runs.bind hrun (.ret _)
  exact ⟨⟨targetAfter 0 w.entries t, s'⟩, 0, t, _, hcmd, natCast_ne_err _, hreplies, rfl, hpath⟩

/-- **The commands of a migration can be run.** -/
theorem TargetServer.exists_path (hnul : ∀ obj ∈ gs.flatten, NulFree obj.key)
    (hbasic : ∀ obj ∈ gs.flatten, ∃ type, payload obj.val = some (.basic type)) (hq : w.server.mod.Quiet hash' conf) :
    ∃ w', Path (TargetServer.step hash' conf payload db) w (gs.map restoreCommand) w' := by
  induction gs generalizing w with
  | nil => exact ⟨w, rfl⟩
  | cons g gs ih =>
    simp only [List.flatten_cons, List.mem_append] at hnul hbasic
    have hnul' (obj : DumpObj) (hobj : obj ∈ g) : NulFree obj.key := hnul obj (.inl hobj)
    have hbasic' (obj : DumpObj) (hobj : obj ∈ g) : ∃ type, payload obj.val = some (.basic type) := hbasic obj (.inl hobj)
    obtain ⟨m, hm⟩ := @TargetServer.exists_step hash' conf payload db w g hnul' hbasic' hq
    obtain ⟨-, hq', -⟩ := TargetServer.step_index hnul' hbasic' hq hm
    obtain ⟨w', h⟩ := ih (fun obj hobj => hnul obj (.inr hobj)) (fun obj hobj => hbasic obj (.inr hobj)) hq'
    exact ⟨w', m, hm, h⟩

end

/-! ### The source -/

section
variable {s s' : Source} {keys : List Bytes} {t : Trace} {mconf : MgrtConf}

/-- While keys that are there are dumped, the source answers the same. -/
theorem Source.acknowledging_dumps {i : Nat} (hlive : ∀ key ∈ keys, (s.live key).isSome)
    (ht : ∀ e ∈ t, ∃ key ∈ keys, e.call = .dump key ∨ e.call = .pttl key)
    (h : Path (Source.step hash conf i) s (t.map .call) s') :
    ∀ e ∈ t, Acknowledging (fun key => (s.live key).map Entry.val) e := by
  induction t with
  | nil => exact fun e he => absurd he List.not_mem_nil
  | cons e t ih =>
    obtain ⟨m, hm, h⟩ := h
    obtain ⟨key, hkey, hc⟩ := ht e List.mem_cons_self
    obtain ⟨entry, hentry⟩ := Option.isSome_iff_exists.mp (hlive key hkey)
    have htouch : s.touch hash conf i key = s := Source.touch_of_live hentry
    have hone : Acknowledging (fun key => (s.live key).map Entry.val) e ∧ m = s := by
      obtain ⟨c, a⟩ := e
      rcases hc with hc | hc
      · cases hc
        exact ⟨hm.1, hm.2.trans htouch⟩
      · cases hc
        obtain ⟨⟨n, hn, -⟩, hs⟩ := hm
        exact ⟨⟨n, hn⟩, hs.trans htouch⟩
    obtain ⟨hack, rfl⟩ := hone
    intro e' he'
    rcases List.mem_cons.mp he' with rfl | he'
    · exact hack
    · exact ih (fun e he => ht e (List.mem_cons_of_mem _ he)) h e' he'

/-- The source never answers a dump with an error. -/
theorem Source.not_dumpError {i : Nat} (h : Path (Source.step hash conf i) s (t.map .call) s') : ¬ DumpError t := by
  rintro (⟨key, a, he, hbad⟩ | ⟨key, a, he, hbad⟩)
  · obtain ⟨m, m', -, -, -, ⟨ha, -⟩, -⟩ := Source.path_split h he
    rw [ha, dumpReply] at hbad
    split at hbad <;> cases hbad
  · obtain ⟨m, m', -, -, -, ⟨⟨n, ha, -⟩, -⟩, -⟩ := Source.path_split h he
    rw [ha] at hbad
    cases hbad

/-- The source counts what it unlinks. -/
theorem Source.unlink_integer {i : Nat} (h : Path (Source.step hash conf i) s (t.map .call) s') {key : Bytes} {a : Reply}
    (he : (⟨.unlink key, a⟩ : Event) ∈ t) : ∃ n, a = Reply.integer n := by
  obtain ⟨m, m', -, -, -, ⟨ha, -⟩, -⟩ := Source.path_split h he
  exact ⟨_, ha⟩

theorem Source.swept_drop {i : Nat} {key : Bytes} {type : NotifyType} {event : String} (hq : s.mod.Quiet hash conf)
    (hs : s.mod.slots.AllSwept) (hn : notify hash conf 0 s.mod ⟨type, event, i, key⟩ =
      { s.mod with slots := slotsDel hash conf s.mod.slots i key }) : (s.drop hash conf i key type event).mod.slots.AllSwept := by
  rw [Source.drop, hn]
  exact hs.slotsDel hq.wf i key

theorem Source.swept_touch {i : Nat} (hq : s.mod.Quiet hash conf) (hs : s.mod.slots.AllSwept) (key : Bytes) :
    (s.touch hash conf i key).mod.slots.AllSwept := by
  rw [Source.touch]
  split
  next => exact Source.swept_drop hq hs (notify_expired 0 s.mod i key)
  next => exact hs

theorem Source.swept_unlink {i : Nat} (hq : s.mod.Quiet hash conf) (hs : s.mod.slots.AllSwept) (key : Bytes) :
    (s.unlink hash conf i key).mod.slots.AllSwept := by
  have ht : Shrinks hash conf i s (s.touch hash conf i key) := Shrinks.touch hq key
  simp only [Source.unlink]
  split
  next => exact Source.swept_drop ht.quiet (Source.swept_touch hq hs key) (notify_del 0 _ i key)
  next => exact Source.swept_touch hq hs key

theorem Source.swept_call {i : Nat} (hq : s.mod.Quiet hash conf) (hs : s.mod.slots.AllSwept) {e : Event}
    (h : s.call hash conf i e s') : s'.mod.slots.AllSwept := by
  obtain ⟨c, a⟩ := e
  cases c with
  | dump key | pttl key =>
    obtain ⟨-, rfl⟩ := h
    exact Source.swept_touch hq hs key
  | unlink key =>
    obtain ⟨-, rfl⟩ := h
    exact Source.swept_unlink hq hs key
  | randomKey j slot =>
    obtain ⟨draws, d, out, hget, -, rfl⟩ := h
    have hd := (hs j slot).getRandomKey ((hq.wf j).table slot) draws
    rw [hget] at hd
    exact hs.setTable hd
  | slotSize | taggedKeys =>
    obtain ⟨-, rfl⟩ := h
    exact hs
  | _ =>
    cases h
    exact hs

theorem Source.Responsive.shrink {i : Nat} (h : s.Responsive) (hshrink : Shrinks hash conf i s s')
    (hs : s'.mod.slots.AllSwept) : s'.Responsive where
  swept := hs
  ttl key entry expire hsome hexpire := by
    rw [hshrink.now]
    rcases hshrink.key key with ⟨hk, -⟩ | ⟨-, hk, -⟩
    · exact h.ttl key entry expire (hk ▸ hsome) hexpire
    · rw [hk] at hsome
      cases hsome

theorem Source.Responsive.call {i : Nat} (h : s.Responsive) (hq : s.mod.Quiet hash conf) {e : Event}
    (hcall : s.call hash conf i e s') : s'.Responsive :=
  h.shrink (Shrinks.call hq hcall) (Source.swept_call hq h.swept hcall)

theorem Source.Responsive.path {i : Nat} (h : s.Responsive) (hq : s.mod.Quiet hash conf)
    (hpath : Path (Source.step hash conf i) s (t.map .call) s') : s'.Responsive := by
  induction t generalizing s with
  | nil =>
    cases hpath
    exact h
  | cons e t ih =>
    obtain ⟨m, hm, hpath⟩ := hpath
    exact ih (h.call hq hm) (Shrinks.call hq hm).quiet hpath

theorem Source.Idle.quiet (h : s.Idle hash conf db s') (hq : s.mod.Quiet hash conf) : s'.mod.Quiet hash conf := by
  cases h with
  | tick ms => exact hq
  | reap key =>
    have hshrink : Shrinks hash conf db s (s.touch hash conf db key) := Shrinks.touch hq key
    exact hshrink.quiet
  | cron child rounds => exact ⟨(dbSlotCron_moved child rounds hq.wf).wf hq.wf, hq.flag⟩

theorem Source.Responsive.idle (h : s.Responsive) (hq : s.mod.Quiet hash conf) (hidle : s.Idle hash conf db s') :
    s'.Responsive := by
  cases hidle with
  | tick ms =>
    refine ⟨h.swept, fun key entry expire hsome hexpire => ?_⟩
    have := h.ttl key entry expire hsome hexpire
    simp only
    omega
  | reap key =>
    have hshrink : Shrinks hash conf db s (s.touch hash conf db key) := Shrinks.touch hq key
    exact h.shrink hshrink (Source.swept_touch hq h.swept key)
  | cron child rounds => exact ⟨h.swept.cron hq.wf child rounds, h.ttl⟩

/-- What PTTL replies is a `long long`. -/
theorem Source.Responsive.exists_pttl (h : s.Responsive) (key : Bytes) : ∃ n : Int64, n.toInt = s.pttl key := by
  have hrange : -2 ^ 63 ≤ s.pttl key ∧ s.pttl key < 2 ^ 63 := by
    rw [Source.pttl]
    split
    next => omega
    next => omega
    next val expire hlive =>
      obtain ⟨hsome, hx⟩ := Source.live_eq_some hlive
      have := h.ttl key _ expire hsome rfl
      simp only [Entry.expired, Option.any_some, decide_eq_false_iff_not] at hx
      omega
  exact ⟨Int64.ofInt (s.pttl key), Int64.toInt_ofInt_of_le hrange.1 hrange.2⟩

/-- **The source has a fine answer to every call.** -/
theorem Source.Responsive.exists_call {i : Nat} (h : s.Responsive) (hq : s.mod.Quiet hash conf) (c : Call) :
    ∃ a s', Event.failed ⟨c, a⟩ = false ∧ s.call hash conf i ⟨c, a⟩ s' := by
  cases c with
  | dump key => exact ⟨_, _, rfl, rfl, rfl⟩
  | pttl key =>
    obtain ⟨n, hn⟩ := h.exists_pttl key
    exact ⟨Reply.integer n, _, rfl, ⟨n, rfl, hn⟩, rfl⟩
  | unlink key => exact ⟨_, _, rfl, rfl, rfl⟩
  | randomKey j slot =>
    obtain ⟨draws, out, hout⟩ := Dict.exists_ending ((hq.wf j).table slot) (h.swept j slot)
    exact ⟨_, _, rfl, draws, _, out, Prod.ext rfl hout, rfl, rfl⟩
  | slotSize j slot => exact ⟨_, s, rfl, rfl, rfl⟩
  | taggedKeys j crc => exact ⟨_, s, rfl, rfl, rfl⟩
  | getTid => exact ⟨(⟨1, by decide⟩ : Tid), s, rfl, rfl⟩
  | cachedConn | pthreadCreate => exact ⟨true, s, rfl, rfl⟩
  | connect => exact ⟨ConnectAnswer.connected, s, rfl, rfl⟩
  | select | command | getReply => exact ⟨NetAnswer.reply .status, s, rfl, rfl⟩
  | restore => exact ⟨Reply.null, s, rfl, rfl⟩
  | schedule => exact ⟨([] : List Nat), s, rfl, rfl⟩
  | notifyOne | closeConn | append => exact ⟨(), s, rfl, rfl⟩

/-- **A migration of keys that are there**, on which nothing fails: it counts them all, and its objects
are the keys with their values. -/
theorem migrateKeys_of_live {i : Nat} (hne : keys ≠ []) (hlive : ∀ key ∈ keys, (s.live key).isSome) {o : Option Int}
    (hrun : Runs (migrateKeys mconf keys) t o) (hclean : Clean t) (h : Path (Source.step hash conf i) s (t.map .call) s') :
    o = some (keys.length : Int) ∧ ∃ objs, Succeeded mconf keys t objs ∧ (∀ key ∈ keys, ∃ obj ∈ objs, obj.key = key) ∧
      ∀ obj ∈ objs, obj.key ∈ keys ∧ ∃ entry, s.live obj.key = some entry ∧ entry.val = obj.val := by
  have hpresent : ∀ key ∈ keys, ((s.live key).map Entry.val).isSome := by
    intro key hkey
    rw [Option.isSome_map]
    exact hlive key hkey
  have hm := migrateKeys_runs hrun
  cases hm with
  | nothing hd hw =>
    have hack := Source.acknowledging_dumps hlive hd.mem_keys h
    obtain ⟨key, hkey⟩ := List.exists_mem_of_ne_nil keys hne
    have hnone := (written_eq_zero_iff hd hack).mp hw key hkey
    have hsome := hpresent key hkey
    rw [hnone] at hsome
    cases hsome
  | dumpError _ hd => exact absurd hd (Source.not_dumpError h)
  | fault hd hnone => exact absurd hnone (readObjs_ne_none hd (Source.acknowledging_dumps hlive hd.mem_keys h) hpresent)
  | overran _ _ _ hover => exact absurd (clean_append.mp hclean).2.fits hover.not_fits
  | failed _ _ _ hs => exact absurd (clean_append.mp hclean).2 (hs.error_iff.mp rfl)
  | @sent d n u slots objs _ hd hread hobjs hs hdel =>
    have hunlink (key : Bytes) (a : Reply) (he : (⟨.unlink key, a⟩ : Event) ∈ u) : ∃ n, a = Reply.integer n :=
      Source.unlink_integer h (List.mem_append_right _ he)
    have hack : ∀ e ∈ d ++ n ++ u, Acknowledging (fun key => (s.live key).map Entry.val) e := by
      intro e he
      rcases List.mem_append.mp he with hdn | hu
      · rcases List.mem_append.mp hdn with hd' | hn
        · rw [List.append_assoc, List.map_append] at h
          obtain ⟨m, hpath, -⟩ := path_append.mp h
          exact Source.acknowledging_dumps hlive hd.mem_keys hpath e hd'
        · have hok := hclean e he
          have hnet := hs.exchange.net e hn
          obtain ⟨c, a⟩ := e
          cases c with
          | dump | pttl | unlink => cases hnet
          | _ => exact hok
      · obtain ⟨_, -, _, hcalls, -⟩ := delLoop_spec keys 0 hdel
        have hcall := List.mem_map_of_mem (f := Event.call) hu
        rw [hcalls] at hcall
        obtain ⟨key, -, hc⟩ := List.mem_map.mp hcall
        obtain ⟨c, a⟩ := e
        cases hc
        exact hunlink key a hu
    obtain ⟨rfl, -, -⟩ := sent_moved hd hread hs hdel hack
    obtain ⟨objs', hsucc⟩ := (Migration.sent hd hread hobjs hs hdel).succeeded (natCast_ne_err _)
    have httl (key : Bytes) (a : Reply) (he : (⟨.pttl key, a⟩ : Event) ∈ d ++ n ++ u) : ∃ n, a = Reply.integer n := hack _ he
    refine ⟨rfl, objs', hsucc, fun key hkey => ?_, fun obj hobj => ?_⟩
    · obtain ⟨a, ha⟩ := hd.mem_dump key hkey
      have hin : (⟨.dump key, a⟩ : Event) ∈ d ++ n ++ u := List.mem_append_left _ (List.mem_append_left _ ha)
      have hval : a = dumpReply (fun key => (s.live key).map Entry.val) key := hack _ hin
      obtain ⟨entry, hentry⟩ := Option.isSome_iff_exists.mp (hlive key hkey)
      rw [dumpReply, hentry] at hval
      subst hval
      exact hsucc.exists_obj httl hin
    · obtain ⟨hkey, hev, -⟩ := hsucc.asked hobj
      have hval : Reply.string obj.val = dumpReply (fun key => (s.live key).map Entry.val) obj.key :=
        hack _ (hev List.mem_cons_self)
      obtain ⟨entry, hentry⟩ := Option.isSome_iff_exists.mp (hlive obj.key hkey)
      rw [dumpReply, hentry] at hval
      exact ⟨hkey, entry, hentry, (Reply.string.inj hval).symm⟩

end

/-! ### What moves -/

theorem Entry.expired_mono {entry : Entry} {now now' : Int} (hle : now ≤ now') (h : entry.expired now' = false) :
    entry.expired now = false := by
  obtain ⟨val, expire⟩ := entry
  cases expire with
  | none => rfl
  | some instant =>
    simp only [Entry.expired, Option.any_some, decide_eq_false_iff_not] at h ⊢
    omega

namespace World
variable {slot : Nat} {time : Int} {w m w' : World conf.databases} {moved moved' : Set Bytes}

theorem mem_onSource (hq : w.source.mod.Quiet hash conf) {key : Bytes} : key ∈ w.onSource db slot ↔
    key ∈ w.source.mod.slots.keys conf db ∧ slotsNum conf.hash_slots_size key = slot := hq.wf.mem_table

theorem Moves.refl (hq : w.source.mod.Quiet hash conf) (hq' : w.target.server.mod.Quiet hash' conf) :
    Moves hash hash' conf db slot ∅ w w where
  source := hq
  target := hq'
  now := le_refl _
  subset := Set.empty_subset _
  onSource := Set.sdiff_empty.symm
  onTarget := (Set.union_empty _).symm
  gone _ h := h.elim
  left _ _ _ := rfl
  delivered _ h := h.elim
  awaited _ _ _ := rfl

theorem Moves.trans (hq : w.source.mod.Quiet hash conf) (h : Moves hash hash' conf db slot moved w m)
    (h' : Moves hash hash' conf db slot moved' m w') : Moves hash hash' conf db slot (moved ∪ moved') w w' := by
  have hslot (key : Bytes) (hkey : key ∈ w.onSource db slot) : slotsNum conf.hash_slots_size key = slot :=
    ((mem_onSource hq).mp hkey).2
  have hsub (key : Bytes) (hkey : key ∈ moved') : key ∈ w.onSource db slot ∧ key ∉ moved := by
    have hin := h'.subset hkey
    rw [h.onSource] at hin
    exact hin
  have hnot (key : Bytes) (hkey : key ∈ moved) : key ∉ moved' := fun hkey' => (hsub key hkey').2 hkey
  refine ⟨h'.source, h'.target, h.now.trans h'.now, ?_, ?_, ?_, ?_, ?_, ?_, ?_⟩
  · exact Set.union_subset h.subset fun key hkey => (hsub key hkey).1
  · rw [h'.onSource, h.onSource, Set.sdiff_sdiff]
  · rw [h'.onTarget, h.onTarget, Set.union_assoc]
  · rintro key (hkey | hkey)
    · rw [h'.left key (hslot key (h.subset hkey)) (hnot key hkey), h.gone key hkey]
    · exact h'.gone key hkey
  · intro key hs hkey
    rw [h'.left key hs fun hk => hkey (.inr hk), h.left key hs fun hk => hkey (.inl hk)]
  · rintro key (hkey | hkey)
    · rw [h'.awaited key (hslot key (h.subset hkey)) (hnot key hkey)]
      exact h.delivered key hkey
    · rw [← h.left key (hslot key (hsub key hkey).1) (hsub key hkey).2]
      exact h'.delivered key hkey
  · intro key hs hkey
    rw [h'.awaited key hs fun hk => hkey (.inr hk), h.awaited key hs fun hk => hkey (.inl hk)]

theorem Ready.live (hr : w.Ready hash hash' conf payload db slot time) (htime : w.source.now ≤ time) {key : Bytes}
    (hkey : key ∈ w.onSource db slot) : ∃ entry type, w.source.keyspace key = some entry ∧
      w.source.live key = some entry ∧ payload entry.val = some (.basic type) := by
  obtain ⟨entry, type, hentry, hx, htype⟩ := hr.entry key hkey
  refine ⟨entry, type, hentry, ?_, htype⟩
  rw [Source.live, hentry, Option.filter_some, Entry.expired_mono htime hx]
  rfl

/-- Nothing has happened to the keys of the slot. -/
theorem Ready.still (hr : w.Ready hash hash' conf payload db slot time) {s : Source} (hq : s.mod.Quiet hash conf)
    (hnow : w.source.now ≤ s.now)
    (hkeyspace : ∀ key, slotsNum conf.hash_slots_size key = slot → s.keyspace key = w.source.keyspace key)
    (hkeys : ∀ key, slotsNum conf.hash_slots_size key = slot →
      (key ∈ s.mod.slots.keys conf db ↔ key ∈ w.source.mod.slots.keys conf db)) :
    Moves hash hash' conf db slot ∅ w ⟨s, w.target⟩ where
  source := hq
  target := hr.target
  now := hnow
  subset := Set.empty_subset _
  onSource := by
    ext key
    rw [Set.sdiff_empty, mem_onSource hr.source]
    exact hq.wf.mem_table.trans (and_congr_left (hkeys key))
  onTarget := (Set.union_empty _).symm
  gone _ h := h.elim
  left key hs _ := hkeyspace key hs
  delivered _ h := h.elim
  awaited _ _ _ := rfl

/-- On its own the source moves nothing out of the slot. -/
theorem Ready.idle (hr : w.Ready hash hash' conf payload db slot time) (htime : w.source.now ≤ time) {s : Source}
    (h : w.source.Idle hash conf db s) : Moves hash hash' conf db slot ∅ w ⟨s, w.target⟩ := by
  cases h with
  | tick ms => exact hr.still hr.source (Int.le_add_of_nonneg_right (Int.natCast_nonneg ms)) (fun _ _ => rfl) fun _ _ => Iff.rfl
  | cron child rounds =>
    have hmoved := dbSlotCron_moved child rounds hr.source.wf
    exact hr.still ⟨hmoved.wf hr.source.wf, hr.source.flag⟩ (le_refl _) (fun _ _ => rfl) fun key _ => by rw [hmoved.keys]
  | reap key =>
    have hshrink : Shrinks hash conf db w.source (w.source.touch hash conf db key) := Shrinks.touch hr.source key
    -- A key that expires is none of the slot.
    have hkept (k : Bytes) (hk : slotsNum conf.hash_slots_size k = slot) :
        (w.source.touch hash conf db key).keyspace k = w.source.keyspace k := by
      by_cases hkey : k = key
      · subst hkey
        rw [Source.keyspace_touch]
        cases hsome : w.source.keyspace k with
        | none => rw [Source.live, hsome]; rfl
        | some entry =>
          obtain ⟨entry', type, hentry, hlive, -⟩ := hr.live htime (hr.agrees k hk (by rw [hsome]; rfl))
          rw [hlive, ← hentry, hsome]
      · exact Source.keyspace_touch_of_ne w.source hkey
    refine hr.still hshrink.quiet hshrink.now.ge hkept fun k hk => ?_
    rcases hshrink.key k with ⟨-, hindex⟩ | ⟨hsome, hnone, -⟩
    · exact hindex
    · rw [hkept k hk] at hnone
      rw [hnone] at hsome
      cases hsome

variable (payload) in
/-- The commands bring these keys, each with its value, which is of one of the five types. -/
structure Brings (w : World conf.databases) (keys : List Bytes) (gs : List (List DumpObj)) : Prop where
  keys : ∀ key, key ∈ gs.flatten.map DumpObj.key ↔ key ∈ keys
  nulFree : ∀ obj ∈ gs.flatten, NulFree obj.key
  entry : ∀ obj ∈ gs.flatten, ∃ entry type, w.source.keyspace obj.key = some entry ∧ entry.val = obj.val ∧
    payload obj.val = some (.basic type)

variable (hash db) in
/-- What a call comes to: entries move within the index, and then these keys are migrated. -/
def Migrates (mconf : MgrtConf) (keys : List Bytes) (s : Source) (t : Trace) (s' : Source) : Prop :=
  ∃ m u, s.Same hash conf m ∧ Runs (migrateKeys mconf keys) u (some (keys.length : Int)) ∧ Clean u ∧
    Path (Source.step hash conf db) m (u.map .call) s' ∧ acked t = acked u

variable {mconf : MgrtConf} {keys : List Bytes} {s s' : Source} {t : Trace} {target : TargetServer conf.databases}

theorem Brings.basic {gs : List (List DumpObj)} (h : Brings payload w keys gs) (obj : DumpObj) (hobj : obj ∈ gs.flatten) :
    ∃ type, payload obj.val = some (.basic type) := by
  obtain ⟨-, type, -, -, htype⟩ := h.entry obj hobj
  exact ⟨type, htype⟩

theorem Ready.live_of_same (hr : w.Ready hash hash' conf payload db slot time) (htime : w.source.now ≤ time)
    (hsame : w.source.Same hash conf s) {key : Bytes} (hkey : key ∈ w.onSource db slot) :
    ∃ entry type, w.source.keyspace key = some entry ∧ s.live key = some entry ∧ payload entry.val = some (.basic type) := by
  obtain ⟨entry, type, hentry, hlive, htype⟩ := hr.live htime hkey
  rw [Source.live, ← hsame.keyspace, ← hsame.now] at hlive
  exact ⟨entry, type, hentry, hlive, htype⟩

/-- A migration of keys of the slot counts them. -/
theorem Ready.migrated (hr : w.Ready hash hash' conf payload db slot time) (htime : w.source.now ≤ time) (hne : keys ≠ [])
    (hsub : ∀ key ∈ keys, key ∈ w.onSource db slot) (hsame : w.source.Same hash conf s) {o : Option Int}
    (hrun : Runs (migrateKeys mconf keys) t o) (hclean : Clean t) (hpath : Path (Source.step hash conf db) s (t.map .call) s') :
    o = some (keys.length : Int) ∧ Migrates hash db mconf keys w.source t s' := by
  obtain ⟨rfl, -⟩ := migrateKeys_of_live hne
    (fun key hkey => by
      obtain ⟨entry, -, -, hlive, -⟩ := hr.live_of_same htime hsame (hsub key hkey)
      rw [hlive]
      rfl) hrun hclean hpath
  exact ⟨rfl, s, t, hsame, hrun, hclean, hpath, rfl⟩

/-- What the target acknowledges brings the keys. -/
theorem Ready.brings (hr : w.Ready hash hash' conf payload db slot time) (htime : w.source.now ≤ time) (hne : keys ≠ [])
    (hsub : ∀ key ∈ keys, key ∈ w.onSource db slot) (h : Migrates hash db mconf keys w.source t s') {order : List (List Bytes)}
    (horder : order.Perm (acked t)) : ∃ gs : List (List DumpObj), order = gs.map restoreCommand ∧ Brings payload w keys gs := by
  obtain ⟨m, u, hsame, hrun, hclean, hpath, hacked⟩ := h
  rw [hacked] at horder
  obtain ⟨-, objs, hsucc, hall, hobjs⟩ := migrateKeys_of_live hne
    (fun key hkey => by
      obtain ⟨entry, -, -, hlive, -⟩ := hr.live_of_same htime hsame (hsub key hkey)
      rw [hlive]
      rfl) hrun hclean hpath
  have hobjs_ne : objs ≠ [] := by
    obtain ⟨key, hkey⟩ := List.exists_mem_of_ne_nil keys hne
    obtain ⟨obj, hobj, -⟩ := hall key hkey
    exact List.ne_nil_of_mem hobj
  obtain ⟨gs, hgs, rfl⟩ := exists_perm_of_perm_map (horder.trans (mgrtCommands_eq mconf objs ▸ hsucc.acked_perm hobjs_ne))
  have hflat : gs.flatten.Perm objs := by
    have := hgs.flatten
    rwa [groups_flatten] at this
  refine ⟨gs, rfl, fun key => ?_, fun obj hobj => ?_, fun obj hobj => ?_⟩
  · constructor
    · intro hkey
      obtain ⟨obj, h, rfl⟩ := List.mem_map.mp hkey
      exact (hobjs obj (hflat.subset h)).1
    · intro hkey
      obtain ⟨obj, h, rfl⟩ := hall key hkey
      exact List.mem_map_of_mem (hflat.symm.subset h)
  · exact hr.nulFree _ (hsub _ (hobjs obj (hflat.subset hobj)).1)
  · obtain ⟨hkey, entry, hentry, hval⟩ := hobjs obj (hflat.subset hobj)
    obtain ⟨entry', type, hspace, hlive, htype⟩ := hr.live_of_same htime hsame (hsub _ hkey)
    obtain rfl : entry' = entry := Option.some.inj (hlive.symm.trans hentry)
    exact ⟨entry', type, hspace, hval, hval ▸ htype⟩

/-- The target can run what a migration of keys of the slot sends. -/
theorem Ready.exists_target (hr : w.Ready hash hash' conf payload db slot time) (htime : w.source.now ≤ time) (hne : keys ≠ [])
    (hsub : ∀ key ∈ keys, key ∈ w.onSource db slot) (h : Migrates hash db mconf keys w.source t s') :
    ∃ target, Path (TargetServer.step hash' conf payload db) w.target (acked t) target := by
  obtain ⟨gs, hgs, hbring⟩ := hr.brings htime hne hsub h (.refl _)
  rw [hgs]
  exact TargetServer.exists_path hbring.nulFree hbring.basic hr.target

end World

/-! ### The calls -/

/-- Calls that neither send nor await anything. -/
structure Unsent (t : Trace) : Prop where
  commands : commands t = []
  appended : appended t = []
  replies : replies t = []

theorem Unsent.acked_append {t u : Trace} (h : Unsent u) : acked (t ++ u) = acked t := by
  simp only [acked, commands_append, appended_append, replies_append, h.commands, h.appended, h.replies, List.append_nil]

theorem unsent_nil : Unsent [] := ⟨rfl, rfl, rfl⟩

theorem unsent_slotSize (i slot n : Nat) : Unsent [⟨.slotSize i slot, n⟩] := ⟨rfl, rfl, rfl⟩

/-- A command that names a slot in range runs on it. -/
theorem slotCommand_named (mconf : MgrtConf) {argv : List Bytes} {slot : Nat} (hacc : conf.Accepted)
    (hslot : slot < conf.hash_slots_size.toNat) (h : NamesSlot slot argv) (run : MgrtConf → Nat → Int → Act (Int × Int)) :
    ∃ mconf' : MgrtConf, mconf'.db = mconf.db ∧ slotCommand conf mconf run argv = run mconf' slot 0 >>= fun x =>
      if x.1 = SLOTS_MGRT_ERR then return .error REDISXSLOT_ERRORMSG_MGRT else return .array [x.1, x.2] := by
  obtain ⟨timeout, htimeout⟩ := Option.isSome_iff_exists.mp h.timeout
  have hbmod : (slot : Int).bmod (2 ^ 32) = slot := by
    have hmax : conf.hash_slots_size.toNat ≤ MAX_HASH_SLOTS_SIZE := hacc
    refine (bmod_self_iff slot (2 ^ 32) (by norm_num)).mpr ?_
    have hle : MAX_HASH_SLOTS_SIZE < (2 ^ 32 + 1) / 2 := by norm_num [MAX_HASH_SLOTS_SIZE, MAX_HASH_SLOTS_MASK]
    omega
  refine ⟨⟨mconf.async, mconf.slots_mgrt_threads, mconf.db, cString (argv.getD 1 []), cString (argv.getD 2 []),
    argv[5]?.map cString⟩, rfl, ?_⟩
  rw [slotCommand, if_neg (by have := h.arity; omega), htimeout, h.slot]
  simp only [hbmod, Int.toNat_natCast]
  rw [if_neg (by omega), if_pos ⟨by omega, by omega⟩]

namespace World
variable {slot : Nat} {time : Int} {w w' : World conf.databases} {moved : Set Bytes} {mconf : MgrtConf} {s s' : Source}
  {keys : List Bytes} {t u : Trace}

theorem Migrates.of_acked (h : Migrates hash db mconf keys s t s') (hacked : acked u = acked t) :
    Migrates hash db mconf keys s u s' := by
  obtain ⟨m, v, hsame, hrun, hclean, hpath, h⟩ := h
  exact ⟨m, v, hsame, hrun, hclean, hpath, hacked.trans h⟩

/-- A migration with something behind it that sends nothing. -/
theorem Ready.migrated_then (hr : w.Ready hash hash' conf payload db slot time) (htime : w.source.now ≤ time) (hne : keys ≠ [])
    (hsub : ∀ key ∈ keys, key ∈ w.onSource db slot) (hsame : w.source.Same hash conf s) {β : Type} {f : Int → Act β}
    (hf : ∀ ret t o, Runs (f ret) t o → Unsent t) {o : Option β} (hrun : Runs (migrateKeys mconf keys >>= f) t o)
    (hclean : Clean t) (hpath : Path (Source.step hash conf db) s (t.map .call) s') :
    ∃ m u, Migrates hash db mconf keys w.source t m ∧ Runs (f keys.length) u o ∧
      Path (Source.step hash conf db) m (u.map .call) s' := by
  rcases hrun.bind_cases with ⟨ret, t₁, t₂, rfl, hmig, hrest⟩ | ⟨rfl, hmig⟩
  · rw [List.map_append] at hpath
    obtain ⟨m, hpath, hafter⟩ := path_append.mp hpath
    obtain ⟨hret, hm⟩ := hr.migrated htime hne hsub hsame hmig (clean_append.mp hclean).1 hpath
    obtain rfl := Option.some.inj hret
    exact ⟨m, t₂, hm.of_acked (hf _ t₂ o hrest).acked_append, hrest, hafter⟩
  · obtain ⟨hret, -⟩ := hr.migrated htime hne hsub hsame hmig hclean hpath
    cases hret

/-- A run that draws from the table. -/
theorem Ready.draw (hr : w.Ready hash hash' conf payload db slot time) {pick : Option Bytes} {s : Source}
    (h : w.source.call hash conf db ⟨.randomKey db slot, pick⟩ s) : w.source.Same hash conf s ∧
      (∀ key, pick = some key → key ∈ w.onSource db slot) ∧ (pick = none → w.onSource db slot = ∅) := by
  obtain ⟨hmem, hnone, hsame⟩ := Source.randomKey_spec hr.source h
  refine ⟨hsame, hmem, fun hpick => ?_⟩
  ext key
  rw [onSource, hnone hpick]
  simp

/-- `SlotsMGRT_SlotOneKey` migrates a key and says how many are left. -/
theorem Ready.slotOneKey (hr : w.Ready hash hash' conf payload db slot time) (htime : w.source.now ≤ time)
    (hdb : mconf.db = db) (hne : (w.onSource db slot).Nonempty) {left : Int} {o : Option (Int × Int)}
    (hrun : Runs (slotsmgrtSlotOneKey mconf slot left) t o) (hclean : Clean t)
    (hpath : Path (Source.step hash conf db) w.source (t.map .call) s') :
    ∃ key ∈ w.onSource db slot, Migrates hash db mconf [key] w.source t s' ∧
      o = some (1, toCInt (s'.mod.slots.table db slot).size) := by
  rw [slotsmgrtSlotOneKey, hdb] at hrun
  obtain ⟨pick, u, rfl, hone⟩ := Runs.of_perform hrun
  rw [List.map_cons] at hpath
  obtain ⟨s, hdraw, hpath⟩ := hpath
  obtain ⟨hsame, hmem, hnone⟩ := hr.draw hdraw
  cases pick with
  | none =>
    rw [hnone rfl] at hne
    exact absurd hne Set.not_nonempty_empty
  | some key =>
    have hkey := hmem key rfl
    have hquiet (ret : Int) (t : Trace) (o : Option (Int × Int))
        (h : Runs (if ret = SLOTS_MGRT_ERR then (.ret (SLOTS_MGRT_ERR, left) : Act (Int × Int)) else
          ask (.slotSize db slot) >>= fun (s : Nat) => .ret (ret, toCInt s)) t o) : Unsent t := by
      split at h
      next =>
        obtain ⟨rfl, -⟩ := Runs.ret_iff.mp h
        exact unsent_nil
      next =>
        obtain ⟨n, u, rfl, hret⟩ := Runs.of_perform h
        obtain ⟨rfl, -⟩ := Runs.ret_iff.mp hret
        exact unsent_slotSize ..
    obtain ⟨m, u', hmigrates, hsize, hpath⟩ := hr.migrated_then htime (List.cons_ne_nil key [])
      (fun k hk => List.mem_singleton.mp hk ▸ hkey) hsame hquiet hone (fun e he => hclean e (List.mem_cons_of_mem _ he)) hpath
    rw [if_neg (natCast_ne_err _)] at hsize
    obtain ⟨n, v, rfl, hret⟩ := Runs.of_perform hsize
    obtain ⟨rfl, rfl⟩ := Runs.ret_iff.mp hret
    obtain ⟨m', ⟨rfl, rfl⟩, rfl⟩ := hpath
    exact ⟨key, hkey, hmigrates.of_acked rfl, rfl⟩

theorem unsent_ret {α : Type} {a : α} {t : Trace} {o : Option α} (h : Runs (.ret a : Act α) t o) : Unsent t := by
  obtain ⟨rfl, -⟩ := Runs.ret_iff.mp h
  exact unsent_nil

/-- The keys that go with a key of the slot are keys of the slot. -/
theorem Ready.groupOf_subset (hr : w.Ready hash hash' conf payload db slot time) {key : Bytes}
    (hkey : key ∈ w.onSource db slot) : groupOf conf w.source.mod.slots db key ⊆ w.onSource db slot := by
  intro k hk
  obtain ⟨hgroup, hindex⟩ := hk
  refine (mem_onSource hr.source).mpr ⟨hindex, ?_⟩
  rw [InGroup] at hgroup
  split at hgroup
  next =>
    rw [slotsNum, hgroup.2]
    exact ((mem_onSource hr.source).mp hkey).2
  next =>
    rw [hgroup]
    exact ((mem_onSource hr.source).mp hkey).2

/-- `SlotsMGRT_TagSlotKeys` migrates what goes with the key it draws, and counts it. -/
theorem Ready.tagSlotKeys (hr : w.Ready hash hash' conf payload db slot time) (htime : w.source.now ≤ time)
    (hdb : mconf.db = db) (hne : (w.onSource db slot).Nonempty)
    (hcount : ∀ key ∈ w.onSource db slot, hasTag key = true → (groupOf conf w.source.mod.slots db key).ncard < 2 ^ 31)
    {left₀ : Int} {o : Option (Int × Int)} (hrun : Runs (slotsmgrtTagSlotKeys conf mconf slot left₀) t o) (hclean : Clean t)
    (hpath : Path (Source.step hash conf db) w.source (t.map .call) s') :
    ∃ key ∈ w.onSource db slot, ∃ keys : List Bytes, keys ≠ [] ∧ {k | k ∈ keys} = groupOf conf w.source.mod.slots db key ∧
      Migrates hash db mconf keys w.source t s' ∧
      ∃ left : Int, o = some (((groupOf conf w.source.mod.slots db key).ncard : Int), left) := by
  have hstart := hrun
  rw [slotsmgrtTagSlotKeys] at hrun
  obtain ⟨pick, u, rfl, -⟩ := Runs.of_perform hrun
  have hcleanu : Clean u := fun e he => hclean e (List.mem_cons_of_mem _ he)
  have hdraw : ∃ s, w.source.call hash conf db ⟨.randomKey db slot, pick⟩ s := by
    rw [List.map_cons, hdb] at hpath
    obtain ⟨s, hdraw, -⟩ := hpath
    exact ⟨s, hdraw⟩
  obtain ⟨s, hdraw⟩ := hdraw
  obtain ⟨-, hmem, hnone⟩ := hr.draw hdraw
  cases pick with
  | none =>
    rw [hnone rfl] at hne
    exact absurd hne Set.not_nonempty_empty
  | some key =>
    have hkey := hmem key rfl
    rw [← hdb] at hpath
    cases htag : hasTag key with
    | false =>
      obtain ⟨-, s, hsame, hpath, hmig⟩ := slotsmgrtTagSlotKeys_untagged hr.source htag hstart hpath
      rw [hdb] at hpath
      obtain ⟨m, v, hmigrates, hret, hpath⟩ := hr.migrated_then htime (List.cons_ne_nil key [])
        (fun k hk => List.mem_singleton.mp hk ▸ hkey) hsame (fun ret t o h => unsent_ret h) hmig hcleanu hpath
      obtain ⟨rfl, rfl⟩ := Runs.ret_iff.mp hret
      cases hpath
      have hgroup (k : Bytes) := groupOf_untagged ((mem_onSource hr.source).mp hkey).1 htag k
      refine ⟨key, hkey, [key], List.cons_ne_nil key [], Set.ext hgroup, hmigrates.of_acked rfl, left₀, ?_⟩
      rw [ncard_groupOf (List.nodup_singleton key) hgroup]
    | true =>
      obtain ⟨-, s, group, n, v, rfl, hsame, hpath, hnodup, hgroup, hlisted⟩ :=
        slotsmgrtTagSlotKeys_tagged hr.source htag hstart hpath
      rw [hdb] at hpath hgroup
      have hin : key ∈ group := (hgroup key).mpr ⟨by simp [InGroup, htag], ((mem_onSource hr.source).mp hkey).1⟩
      have hlen := ncard_groupOf hnodup hgroup
      rw [slotsmgrtListedKeys_counted (List.ne_nil_of_mem hin) (hlen ▸ hcount key hkey htag)] at hlisted
      have hsub (k : Bytes) (hk : k ∈ group) : k ∈ w.onSource db slot := hr.groupOf_subset hkey ((hgroup k).mp hk)
      have hquiet (ret : Int) (t : Trace) (o : Option (Int × Int))
          (h : Runs (ask (.slotSize mconf.db slot) >>= fun (s : Nat) => (.ret (ret, toCInt s) : Act (Int × Int))) t o) :
          Unsent t := by
        obtain ⟨n, u, rfl, hret⟩ := Runs.of_perform h
        obtain ⟨rfl, -⟩ := Runs.ret_iff.mp hret
        exact unsent_slotSize ..
      obtain ⟨m, v', hmigrates, hsize, hpath⟩ := hr.migrated_then htime (List.ne_nil_of_mem hin) hsub hsame hquiet hlisted
        (fun e he => hcleanu e (List.mem_cons_of_mem _ (List.mem_cons_of_mem _ he))) hpath
      obtain ⟨n', v'', rfl, hret⟩ := Runs.of_perform hsize
      obtain ⟨rfl, rfl⟩ := Runs.ret_iff.mp hret
      obtain ⟨m', ⟨-, rfl⟩, rfl⟩ := hpath
      refine ⟨key, hkey, group, List.ne_nil_of_mem hin, Set.ext hgroup, hmigrates.of_acked rfl, toCInt n', ?_⟩
      rw [hlen]

/-! ### One call -/

/-- What the command replies is what its run on the slot comes to. -/
theorem reply_of_run {run : MgrtConf → Nat → Int → Act (Int × Int)} (hacc : conf.Accepted)
    (hslot : slot < conf.hash_slots_size.toNat) {argv : List Bytes} (hnames : NamesSlot slot argv) {o : Option ClientReply}
    (h : Runs (slotCommand conf mconf run argv) t o) : ∃ mconf' : MgrtConf, mconf'.db = mconf.db ∧
      ∃ o' : Option (Int × Int), Runs (run mconf' slot 0) t o' ∧
        ∀ r left, o' = some (r, left) → r ≠ SLOTS_MGRT_ERR → o = some (.array [r, left]) := by
  obtain ⟨mconf', hdb', heq⟩ := slotCommand_named mconf hacc hslot hnames run
  rw [heq] at h
  rcases h.bind_cases with ⟨x, t₁, t₂, rfl, hone, hrest⟩ | ⟨rfl, hone⟩
  · have hret : t₂ = [] ∧ (x.1 ≠ SLOTS_MGRT_ERR → o = some (.array [x.1, x.2])) := by
      split at hrest
      next hr => exact ⟨(Runs.ret_iff.mp hrest).1, fun hne => absurd hr hne⟩
      next => exact ⟨(Runs.ret_iff.mp hrest).1, fun _ => (Runs.ret_iff.mp hrest).2⟩
    obtain ⟨rfl, hreply⟩ := hret
    refine ⟨mconf', hdb', some x, (List.append_nil t₁).symm ▸ hone, fun r left hx hr => ?_⟩
    cases hx
    exact hreply hr
  · exact ⟨mconf', hdb', none, hone, fun r left hx => nomatch hx⟩

theorem Moves.size (h : Moves hash hash' conf db slot moved w w') :
    (w'.source.mod.slots.table db slot).size = (w'.onSource db slot).ncard := h.source.wf.size_eq_ncard db slot

/-- The command line, to the slot. -/
def toSlot (slot : Nat) : List Bytes := [[], [104], [49], [51, 48], decimal slot]

theorem namesSlot_toSlot (hacc : conf.Accepted) (hslot : slot < conf.hash_slots_size.toNat) : NamesSlot slot (toSlot slot) where
  arity := .inl rfl
  timeout := by
    show (string2ll [51, 48]).isSome
    decide
  slot := by
    show string2ll (decimal slot) = some (slot : Int)
    have hmax : conf.hash_slots_size.toNat ≤ MAX_HASH_SLOTS_SIZE := hacc
    refine string2ll_decimal ?_
    have hle : MAX_HASH_SLOTS_SIZE ≤ LLONG_MAX := by decide
    omega

/-- What both servers can answer, a client can call. -/
theorem Ready.exists_call (hr : w.Ready hash hash' conf payload db slot time) (htime : w.source.now ≤ time)
    (hresp : w.source.Responsive) (hacc : conf.Accepted) (hslot : slot < conf.hash_slots_size.toNat)
    {run : MgrtConf → Nat → Int → Act (Int × Int)}
    (hmigrates : ∀ (mconf' : MgrtConf) (t : Trace) (o : Option (Int × Int)) (s' : Source), mconf'.db = mconf.db →
      Runs (run mconf' slot 0) t o → Clean t → Path (Source.step hash conf db) w.source (t.map .call) s' →
      ∃ keys : List Bytes, keys ≠ [] ∧ (∀ key ∈ keys, key ∈ w.onSource db slot) ∧ Migrates hash db mconf' keys w.source t s') :
    ∃ o w', w.call hash hash' conf payload db (slotCommand conf mconf run) slot o w' := by
  have hnames := namesSlot_toSlot hacc hslot
  obtain ⟨t, o, s', hcmd, hclean, hpath⟩ := @exists_path Call Answer ClientReply Source Label (Source.step hash conf db)
    (fun s => s.mod.Quiet hash conf ∧ s.Responsive) (fun e => RedisXSlot.Event.failed e = false) .call
    (fun s c ⟨hq, hresp⟩ => by
      obtain ⟨a, s', hfine, hcall⟩ := hresp.exists_call hq c
      exact ⟨a, s', hfine, hcall, (Shrinks.call hq hcall).quiet, hresp.call hq hcall⟩)
    (slotCommand conf mconf run (toSlot slot)) w.source ⟨hr.source, hresp⟩
  obtain ⟨mconf', hdb', o', hrun, -⟩ := reply_of_run hacc hslot hnames hcmd
  obtain ⟨keys, hkeys, hsub, hm⟩ := hmigrates mconf' t o' s' hdb' hrun hclean hpath
  obtain ⟨target, htarget⟩ := hr.exists_target htime hkeys hsub hm
  exact ⟨o, ⟨s', target⟩, toSlot slot, t, acked t, hnames, hcmd, hclean, hpath, .refl _, htarget⟩

end World
end RedisXSlot
