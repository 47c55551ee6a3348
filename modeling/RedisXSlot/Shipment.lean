import RedisXSlot.Supply

/-! What the commands that migrate do to the source.

SLOTSMGRTONE, SLOTSMGRTTAGONE, SLOTSMGRTSLOT and SLOTSMGRTTAGSLOT come to one migration of keys that are there, or
to nothing. Wherever it breaks off, what has gone out are copies of these keys, and a key goes only
if a command that carries it has been acknowledged (`MgrtCommand.ships`). -/
namespace RedisXSlot
open Interaction

/-- The commands that migrate. -/
inductive MgrtCommand where
  | one | tagOne | slot | tagSlot

def MgrtCommand.run (info : SlotsMetaInfo) (conf : MgrtConf) : MgrtCommand → List Bytes → Act ClientReply
  | .one => slotsMGRTOneRedisCommand conf
  | .tagOne => slotsMGRTTagOneRedisCommand info conf
  | .slot => slotsMGRTSlotRedisCommand info conf
  | .tagSlot => slotsMGRTTagSlotRedisCommand info conf

variable {hash : Bytes → Nat} {conf : SlotsMetaInfo}

section
variable {s m s' : Source} {t u : Trace} {keys : List Bytes} {mconf : MgrtConf}

variable (hash conf) in
/-- A migration has sent copies of what is there, and let go only of what has been acknowledged. -/
structure Ships (db : Nat) (s : Source) (t : Trace) (s' : Source) (keys : List Bytes) : Prop where
  carries : ∀ argv ∈ issued t, CommandOf (fun key val => (s.live key).map Entry.val = some val) argv
  removes : Removes hash conf db keys s s'
  acked : ∀ key ∈ keys, (s.live key).isSome → ∃ g, restoreCommand g ∈ acked t ∧ ∃ obj ∈ g, obj.key = key

/-- Nothing is sent, and nothing goes. -/
theorem ships_nothing {db : Nat} (hsame : s.Same hash conf s') (hu : Unsent t) : Ships hash conf db s t s' [] := by
  refine ⟨fun argv hargv => ?_, ⟨hsame.quiet, hsame.now, fun k => ?_, fun k => ?_, fun i _ => hsame.keys i⟩,
    fun key hkey => absurd hkey List.not_mem_nil⟩
  · rw [issued, hu.commands, hu.appended] at hargv
    exact absurd hargv List.not_mem_nil
  · rw [if_neg List.not_mem_nil, hsame.keyspace]
  · rw [hsame.keys]
    exact (and_iff_left fun h => List.not_mem_nil h.1).symm

theorem Ships.of_same {db : Nat} (hsame : s.Same hash conf m) (h : Ships hash conf db m t s' keys) :
    Ships hash conf db s t s' keys := by
  have hlive (key : Bytes) : m.live key = s.live key := by rw [Source.live, Source.live, hsame.keyspace, hsame.now]
  refine ⟨fun argv hargv => (h.carries argv hargv).mono fun key val hval => hlive key ▸ hval, h.removes.of_same hsame, ?_⟩
  intro key hkey hsome
  exact h.acked key hkey ((hlive key).symm ▸ hsome)

/-- Behind a migration nothing is sent, and entries may move within the index. -/
theorem Ships.then {db : Nat} (h : Ships hash conf db s t m keys) (hu : Unsent u) (hsame : m.Same hash conf s') :
    Ships hash conf db s (t ++ u) s' keys := by
  refine ⟨fun argv hargv => h.carries argv ?_, ⟨hsame.quiet, hsame.now.trans h.removes.now, fun k => ?_, fun k => ?_,
    fun i hi => (hsame.keys i).trans (h.removes.other i hi)⟩, fun key hkey hsome => ?_⟩
  · simpa only [issued, commands_append, appended_append, hu.commands, hu.appended, List.append_nil] using hargv
  · rw [hsame.keyspace, h.removes.keyspace]
  · rw [hsame.keys, h.removes.index]
  · rw [hu.acked_append]
    exact h.acked key hkey hsome

/-- The objects are the keys that are there, with their values. -/
theorem Dumped.objs {content : Bytes → Option Bytes} {slots : List (Option DumpObj)} {objs : List DumpObj}
    (hd : Dumped keys t slots) (hread : readObjs (written slots) slots = some objs) (h : ∀ e ∈ t, Acknowledging content e) :
    (∀ obj ∈ objs, content obj.key = some obj.val) ∧ ∀ key ∈ keys, (content key).isSome → ∃ obj ∈ objs, obj.key = key := by
  have hslots := hd.slots_eq h
  obtain ⟨n, hn⟩ := readObjs_eq_some hread
  have hmem (obj : DumpObj) : some obj ∈ slots ↔ obj ∈ objs := by simp [hn]
  refine ⟨fun obj hobj => ?_, fun key hkey hsome => ?_⟩
  · have hin := List.mem_map_of_mem (f := Option.map fun obj : DumpObj => (obj.key, obj.val)) ((hmem obj).mpr hobj)
    rw [hslots] at hin
    obtain ⟨key, -, heq⟩ := List.mem_map.mp hin
    obtain ⟨val, hval, hpair⟩ := Option.map_eq_some_iff.mp heq
    obtain ⟨rfl, rfl⟩ := Prod.mk.inj hpair
    exact hval
  · obtain ⟨val, hval⟩ := Option.isSome_iff_exists.mp hsome
    have hin : some (key, val) ∈ slots.map (Option.map fun obj => (obj.key, obj.val)) := by
      rw [hslots]
      exact List.mem_map.mpr ⟨key, hkey, by rw [hval]; rfl⟩
    obtain ⟨slot, hslot, heq⟩ := List.mem_map.mp hin
    obtain ⟨obj, rfl, hpair⟩ := Option.map_eq_some_iff.mp heq
    exact ⟨obj, (hmem obj).mp hslot, (Prod.mk.inj hpair).1⟩

/-- What an exchange has sent, whatever became of it. -/
theorem commandOf_issued {P : Bytes → Bytes → Prop} {objs : List DumpObj} {cmds : List (List Bytes)}
    (hcmds : cmds.Subperm (mgrtCommands mconf objs)) (hP : ∀ obj ∈ objs, P obj.key obj.val) : ∀ argv ∈ cmds, CommandOf P argv := by
  intro argv hargv
  have hin := hcmds.subset hargv
  rw [mgrtCommands_eq] at hin
  obtain ⟨g, hg, rfl⟩ := List.mem_map.mp hin
  refine ⟨g, rfl, fun obj hobj => hP obj ?_⟩
  rw [← groups_flatten mconf.path objs]
  exact List.mem_flatten_of_mem hg hobj

/-- **A migration of keys that are there ships**, whatever fails. -/
theorem migrateKeys_ships {db : Nat} (hq : s.mod.Quiet hash conf) (hlive : ∀ key ∈ keys, (s.live key).isSome) {r : Int}
    (hrun : Runs (migrateKeys mconf keys) t (some r)) (h : Path (Source.step hash conf db) s (t.map .call) s') :
    ∃ gone, Ships hash conf db s t s' gone := by
  have hm := migrateKeys_runs hrun
  generalize ho : some r = o at hm
  cases hm with
  | nothing hd _ =>
    obtain rfl := Source.path_dumps hlive hd.mem_keys h
    obtain ⟨hc, ha, hr, -⟩ := hd.onlyDumps.quiet
    exact ⟨[], ships_nothing ⟨hq, rfl, rfl, fun _ => rfl⟩ ⟨hc, ha, hr⟩⟩
  | dumpError _ hd => exact absurd hd (Source.not_dumpError h)
  | fault => cases ho
  | overran => cases ho
  | @failed d n slots objs hd hread _ hs =>
    rw [List.map_append] at h
    obtain ⟨m, hdumps, hnet⟩ := path_append.mp h
    obtain rfl := Source.path_dumps hlive hd.mem_keys hdumps
    obtain rfl := Source.path_net hs.exchange.net hnet
    obtain ⟨hobjs, -⟩ := hd.objs hread (Source.acknowledging_dumps hlive hd.mem_keys hdumps)
    obtain ⟨hc, ha, -, -⟩ := hd.onlyDumps.quiet
    have hsame : s'.Same hash conf s' := ⟨hq, rfl, rfl, fun _ => rfl⟩
    refine ⟨[], fun argv hargv => ?_, (ships_nothing hsame unsent_nil).removes, fun key hkey => absurd hkey List.not_mem_nil⟩
    rw [issued, commands_append, appended_append, hc, ha, List.nil_append, List.nil_append] at hargv
    exact commandOf_issued hs.exchange.issued_subperm hobjs argv hargv
  | @sent d n u slots objs o hd hread hne hs hdel =>
    have hr : r = keys.length := by
      obtain ⟨r', hr', k, -, hint, -⟩ := delLoop_spec keys 0 hdel
      obtain rfl : r = r' := Option.some.inj (ho.trans hr')
      have hall := hint fun key a he => Source.unlink_integer h (List.mem_append_right _ he)
      omega
    subst hr
    have hremoves := migrateKeys_removes hq hrun (natCast_ne_err _) h
    rw [List.append_assoc, List.map_append] at h
    obtain ⟨m, hdumps, -⟩ := path_append.mp h
    obtain ⟨hobjs, hall⟩ := hd.objs hread (Source.acknowledging_dumps hlive hd.mem_keys hdumps)
    obtain ⟨-, -, k, hcalls, -⟩ := delLoop_spec keys 0 hdel
    obtain ⟨hc, ha, -, -⟩ := hd.onlyDumps.quiet
    obtain ⟨hc', ha', -, -⟩ := unlinks_quiet hcalls
    refine ⟨keys, fun argv hargv => ?_, hremoves, fun key hkey hsome => ?_⟩
    · rw [issued, commands_append, appended_append, commands_append, appended_append, hc, ha, hc', ha', List.nil_append,
        List.nil_append, List.append_nil, List.append_nil] at hargv
      exact commandOf_issued hs.exchange.issued_subperm hobjs argv hargv
    · obtain ⟨obj, hobj, rfl⟩ := hall key hkey (Option.isSome_map.trans hsome)
      have hack := (hs.exchange_true (natCast_ne_err _)).acked_perm
      rw [← groups_flatten mconf.path objs] at hobj
      obtain ⟨g, hg, hin⟩ := List.mem_flatten.mp hobj
      refine ⟨g, ?_, obj, hin, rfl⟩
      rw [acked_middle hd.onlyDumps hcalls]
      exact hack.mem_iff.mpr (mgrtCommands_eq mconf objs ▸ List.mem_map_of_mem hg)

/-! ### The commands -/

variable (hash conf) in
/-- The index is the keyspace, and nothing in it has expired. -/
structure Source.Steady (db : Nat) (s : Source) : Prop where
  quiet : s.mod.Quiet hash conf
  agrees : ∀ key, key ∈ s.mod.slots.keys conf db ↔ (s.keyspace key).isSome
  live : ∀ key, (s.keyspace key).isSome → (s.live key).isSome

theorem Source.Steady.of_same {db : Nat} (h : s.Steady hash conf db) (hsame : s.Same hash conf m) : m.Steady hash conf db where
  quiet := hsame.quiet
  agrees key := by rw [hsame.keys, hsame.keyspace, h.agrees]
  live key hkey := by
    rw [hsame.keyspace] at hkey
    rw [Source.live, hsame.keyspace, hsame.now]
    exact h.live key hkey

variable {db slot : Nat}

/-- Whatever key a client names. -/
theorem Source.Steady.oneKey (h : s.Steady hash conf db) {key : Bytes} {r : Int}
    (hrun : Runs (slotsmgrtOneKey mconf key) t (some r)) (hpath : Path (Source.step hash conf db) s (t.map .call) s') :
    ∃ gone, Ships hash conf db s t s' gone := by
  rw [slotsmgrtOneKey] at hrun
  cases hkey : s.keyspace key with
  | some entry =>
    have hsome : (s.live key).isSome := h.live key (by rw [hkey]; rfl)
    exact migrateKeys_ships h.quiet (fun k hk => List.mem_singleton.mp hk ▸ hsome) hrun hpath
  | none =>
    -- DUMP says that there is no such key, and that is all.
    obtain ⟨a, u, rfl, hrest⟩ := Runs.call_iff.mp (show Runs (.call (.dump key) _) t (some r) from hrun)
    obtain ⟨m, ⟨ha, rfl⟩, hpath⟩ := hpath
    rw [dumpReply, Source.live, hkey] at ha
    subst ha
    obtain ⟨rfl, -⟩ := Runs.ret_iff.mp (show Runs (.ret 0) u (some r) from hrest)
    rw [Source.touch_of_absent hkey] at hpath
    cases hpath
    exact ⟨[], ships_nothing ⟨h.quiet, rfl, rfl, fun _ => rfl⟩ ⟨rfl, rfl, rfl⟩⟩

/-- What comes behind a migration asks for the size at most. -/
def AsksSize {β : Type} (p : Act β) : Prop := ∀ t o, Runs p t o → t = [] ∨ ∃ db slot n, t = [⟨.slotSize db slot, n⟩]

theorem asksSize_ret {β : Type} (b : β) : AsksSize (.ret b : Act β) := fun _ _ h => .inl (Runs.ret_iff.mp h).1

theorem asksSize_ask {β : Type} (db slot : Nat) (f : Nat → β) :
    AsksSize (ask (.slotSize db slot) >>= fun (n : Nat) => (.ret (f n) : Act β)) := by
  intro t o h
  obtain ⟨n, u, rfl, hret⟩ := Runs.of_perform h
  obtain ⟨rfl, -⟩ := Runs.ret_iff.mp hret
  exact .inr ⟨db, slot, n, rfl⟩

theorem AsksSize.still {β : Type} {p : Act β} (hp : AsksSize p) {o : Option β} (hrun : Runs p t o) (hq : s.mod.Quiet hash conf)
    (hpath : Path (Source.step hash conf db) s (t.map .call) s') : Unsent t ∧ s.Same hash conf s' := by
  rcases hp t o hrun with rfl | ⟨i, slot, n, rfl⟩
  · cases hpath
    exact ⟨unsent_nil, hq, rfl, rfl, fun _ => rfl⟩
  · obtain ⟨m, ⟨-, rfl⟩, rfl⟩ := hpath
    exact ⟨unsent_slotSize .., hq, rfl, rfl, fun _ => rfl⟩

/-- A migration, and what comes behind it. -/
theorem ships_bind {β : Type} {p : Act Int} {f : Int → Act β}
    (hp : ∀ r t m, Runs p t (some r) → Path (Source.step hash conf db) s (t.map .call) m → ∃ gone, Ships hash conf db s t m gone)
    (hf : ∀ r, AsksSize (f r)) {b : β} (hrun : Runs (p >>= f) t (some b))
    (hpath : Path (Source.step hash conf db) s (t.map .call) s') : ∃ gone, Ships hash conf db s t s' gone := by
  obtain ⟨r, t₁, t₂, rfl, hmig, hrest⟩ := Runs.of_bind hrun
  rw [List.map_append] at hpath
  obtain ⟨m, hpath, hafter⟩ := path_append.mp hpath
  obtain ⟨gone, hships⟩ := hp r t₁ m hmig hpath
  obtain ⟨hunsent, hsame⟩ := (hf r).still hrest hships.removes.quiet hafter
  exact ⟨gone, hships.then hunsent hsame⟩

/-- The listed keys of a tag. -/
theorem Source.Steady.listed (h : s.Steady hash conf db) {crc : UInt32} {n : Nat} {r : Int}
    (hrun : Runs (migrateKeys mconf (((s.mod.slots.db_slot_infos db).tagged_key_list.taggedKeys crc).take n)) t (some r))
    (hpath : Path (Source.step hash conf db) s (t.map .call) s') : ∃ gone, Ships hash conf db s t s' gone := by
  refine migrateKeys_ships h.quiet (fun key hkey => ?_) hrun hpath
  have hin := ((h.quiet.wf db).mem_taggedKeys crc key).mp (List.mem_of_mem_take hkey)
  exact h.live key ((h.agrees key).mp hin.2.2)

/-- A call that asks for the index does not touch it. -/
theorem Ships.cons {e : Event} (h : Ships hash conf db s t s' keys) (hsize : Unsent [e]) : Ships hash conf db s (e :: t) s' keys := by
  have hc : commands (e :: t) = commands t := (commands_append [e] t).trans (by rw [hsize.commands]; rfl)
  have ha : appended (e :: t) = appended t := (appended_append [e] t).trans (by rw [hsize.appended]; rfl)
  have hr : replies (e :: t) = replies t := (replies_append [e] t).trans (by rw [hsize.replies]; rfl)
  refine ⟨fun argv hargv => h.carries argv ?_, h.removes, fun key hkey hsome => ?_⟩
  · rwa [issued, hc, ha] at hargv
  · rw [RedisXSlot.acked, hc, ha, hr]
    exact h.acked key hkey hsome

/-- The source looks at the slot's size and collects the tagged keys, and then goes on with them. -/
theorem Source.Steady.collect (h : s.Steady hash conf db) {slot : Nat} {crc : UInt32} {β : Type} {k : Nat → Act β} {b : β}
    {f : List Bytes → Act β} (hk : ∀ n, k n = if n = 0 then .ret b else ask (.taggedKeys db crc) >>= f)
    (hf : ∀ u c m, Runs (f ((s.mod.slots.db_slot_infos db).tagged_key_list.taggedKeys crc)) u (some c) →
      Path (Source.step hash conf db) s (u.map .call) m → ∃ gone, Ships hash conf db s u m gone) {c : β}
    (hrun : Runs (ask (.slotSize db slot) >>= k) t (some c)) (hpath : Path (Source.step hash conf db) s (t.map .call) s') :
    ∃ gone, Ships hash conf db s t s' gone := by
  obtain ⟨(n : Nat), u, rfl, hsized⟩ := Runs.of_perform hrun
  obtain ⟨m, ⟨-, rfl⟩, hpath⟩ := hpath
  rw [hk n] at hsized
  split at hsized
  next =>
    obtain ⟨rfl, -⟩ := Runs.ret_iff.mp hsized
    cases hpath
    exact ⟨[], ships_nothing ⟨h.quiet, rfl, rfl, fun _ => rfl⟩ ⟨rfl, rfl, rfl⟩⟩
  next =>
    obtain ⟨group, u, rfl, hrest⟩ := Runs.of_perform hsized
    obtain ⟨m', ⟨rfl, rfl⟩, hpath⟩ := hpath
    obtain ⟨gone, hships⟩ := hf u c s' hrest hpath
    exact ⟨gone, (hships.cons ⟨rfl, rfl, rfl⟩).cons ⟨rfl, rfl, rfl⟩⟩

theorem Source.Steady.tagKeys (h : s.Steady hash conf db) (hdb : mconf.db = db) {key : Bytes} {left : Int} {x : Int × Int}
    (hrun : Runs (slotsmgrtTagKeys conf mconf key left) t (some x)) (hpath : Path (Source.step hash conf db) s (t.map .call) s') :
    ∃ gone, Ships hash conf db s t s' gone := by
  unfold slotsmgrtTagKeys at hrun
  split at hrun
  next => exact ships_bind (fun r t m => h.oneKey) (fun r => asksSize_ret _) hrun hpath
  next =>
    subst hdb
    refine h.collect (fun n => rfl) (fun u c m hrun hpath => ?_) hrun hpath
    simp only [slotsmgrtListedKeys] at hrun
    split at hrun
    next =>
      obtain ⟨rfl, -⟩ := Runs.ret_iff.mp hrun
      cases hpath
      exact ⟨[], ships_nothing ⟨h.quiet, rfl, rfl, fun _ => rfl⟩ unsent_nil⟩
    next =>
      split at hrun
      next => cases (Runs.fault_iff.mp hrun).2
      next => exact ships_bind (fun r t m => h.listed) (fun r => asksSize_ask _ _ _) hrun hpath

theorem Source.Steady.tagKeysOnly (h : s.Steady hash conf db) (hdb : mconf.db = db) {key : Bytes} {r : Int}
    (hrun : Runs (slotsmgrtTagKeysOnly conf mconf key) t (some r)) (hpath : Path (Source.step hash conf db) s (t.map .call) s') :
    ∃ gone, Ships hash conf db s t s' gone := by
  unfold slotsmgrtTagKeysOnly at hrun
  split at hrun
  next => exact h.oneKey hrun hpath
  next =>
    subst hdb
    refine h.collect (fun n => rfl) (fun u c m hrun hpath => ?_) hrun hpath
    simp only at hrun
    split at hrun
    next =>
      obtain ⟨rfl, -⟩ := Runs.ret_iff.mp hrun
      cases hpath
      exact ⟨[], ships_nothing ⟨h.quiet, rfl, rfl, fun _ => rfl⟩ unsent_nil⟩
    next =>
      split at hrun
      next => cases (Runs.fault_iff.mp hrun).2
      next => exact h.listed hrun hpath

/-- A key is drawn, and then something is done with it. -/
theorem Source.Steady.draw (h : s.Steady hash conf db) {slot : Nat} {β : Type} {k : Option Bytes → Act β} {b c : β}
    (hnone : k none = .ret b)
    (hsome : ∀ key u m m', m.Steady hash conf db → Runs (k (some key)) u (some c) →
      Path (Source.step hash conf db) m (u.map .call) m' → ∃ gone, Ships hash conf db m u m' gone)
    (hrun : Runs (ask (.randomKey db slot) >>= k) t (some c)) (hpath : Path (Source.step hash conf db) s (t.map .call) s') :
    ∃ gone, Ships hash conf db s t s' gone := by
  obtain ⟨pick, u, rfl, hrest⟩ := Runs.of_perform hrun
  obtain ⟨m, hdraw, hpath⟩ := hpath
  have hdraw : s.call hash conf db ⟨.randomKey db slot, pick⟩ m := hdraw
  obtain ⟨-, -, hsame⟩ := Source.randomKey_spec h.quiet hdraw
  cases pick with
  | none =>
    rw [hnone] at hrest
    obtain ⟨rfl, -⟩ := Runs.ret_iff.mp hrest
    cases hpath
    exact ⟨[], ships_nothing hsame ⟨rfl, rfl, rfl⟩⟩
  | some key =>
    obtain ⟨gone, hships⟩ := hsome key u m s' (h.of_same hsame) hrest hpath
    exact ⟨gone, (hships.of_same hsame).cons ⟨rfl, rfl, rfl⟩⟩

theorem Source.Steady.slotOneKey (h : s.Steady hash conf db) (hdb : mconf.db = db) {slot : Nat} {left : Int} {x : Int × Int}
    (hrun : Runs (slotsmgrtSlotOneKey mconf slot left) t (some x)) (hpath : Path (Source.step hash conf db) s (t.map .call) s') :
    ∃ gone, Ships hash conf db s t s' gone := by
  subst hdb
  unfold slotsmgrtSlotOneKey at hrun
  refine h.draw (b := (0, left)) ?_ (fun key u m m' hm hrun hpath => ?_) hrun hpath
  · rfl
  refine ships_bind (fun r t m => hm.oneKey) (fun r => ?_) hrun hpath
  split
  next => exact asksSize_ret _
  next => exact asksSize_ask _ _ _

theorem Source.Steady.tagSlotKeys (h : s.Steady hash conf db) (hdb : mconf.db = db) {slot : Nat} {left : Int} {x : Int × Int}
    (hrun : Runs (slotsmgrtTagSlotKeys conf mconf slot left) t (some x))
    (hpath : Path (Source.step hash conf db) s (t.map .call) s') : ∃ gone, Ships hash conf db s t s' gone := by
  subst hdb
  unfold slotsmgrtTagSlotKeys at hrun
  refine h.draw (b := (0, left)) ?_ (fun key u m m' hm hrun hpath => hm.tagKeys rfl hrun hpath) hrun hpath
  rfl

/-- **Every command that migrates ships**, if it returns. -/
theorem MgrtCommand.ships (command : MgrtCommand) (h : s.Steady hash conf db) (hdb : mconf.db = db) {argv : List Bytes}
    {reply : ClientReply} (hrun : Runs (command.run conf mconf argv) t (some reply))
    (hpath : Path (Source.step hash conf db) s (t.map .call) s') : ∃ gone, Ships hash conf db s t s' gone := by
  have hrefused {x : ClientReply} (hret : Runs (.ret x : Act ClientReply) t (some reply)) : ∃ gone, Ships hash conf db s t s' gone := by
    obtain ⟨rfl, -⟩ := Runs.ret_iff.mp hret
    cases hpath
    exact ⟨[], ships_nothing ⟨h.quiet, rfl, rfl, fun _ => rfl⟩ unsent_nil⟩
  have hslot {run : MgrtConf → Nat → Int → Act (Int × Int)} (hrun : Runs (slotCommand conf mconf run argv) t (some reply))
      (hone : ∀ mconf' slot x t m, mconf'.db = db → Runs (run mconf' slot 0) t (some x) →
        Path (Source.step hash conf db) s (t.map .call) m → ∃ gone, Ships hash conf db s t m gone) :
      ∃ gone, Ships hash conf db s t s' gone := by
    unfold slotCommand at hrun
    split at hrun
    next => exact hrefused hrun
    next =>
      simp only at hrun
      split at hrun
      next =>
        split at hrun
        next => exact hrefused hrun
        next =>
          split at hrun
          next =>
            obtain ⟨x, t₁, t₂, rfl, hone', hrest⟩ := Runs.of_bind hrun
            have ht₂ : t₂ = [] := by
              split at hrest
              next => exact (Runs.ret_iff.mp hrest).1
              next => exact (Runs.ret_iff.mp hrest).1
            rw [ht₂, List.append_nil] at hpath ⊢
            exact hone _ _ x t₁ s' (by exact hdb) hone' hpath
          next => cases (Runs.fault_iff.mp hrun).2
      next => exact hrefused hrun
  have hkey {run : MgrtConf → Bytes → Act Int} (hrun : Runs (keyCommand mconf run argv) t (some reply))
      (hone : ∀ mconf' key r t m, mconf'.db = db → Runs (run mconf' key) t (some r) →
        Path (Source.step hash conf db) s (t.map .call) m → ∃ gone, Ships hash conf db s t m gone) :
      ∃ gone, Ships hash conf db s t s' gone := by
    unfold keyCommand at hrun
    split at hrun
    next => exact hrefused hrun
    next =>
      simp only at hrun
      split at hrun
      next =>
        refine ships_bind (fun r t m => hone _ _ r t m (by exact hdb)) (fun r => ?_) hrun hpath
        split
        next => exact asksSize_ret _
        next => exact asksSize_ret _
      next => exact hrefused hrun
  cases command with
  | one => exact hkey hrun fun mconf' key r t m _ => h.oneKey
  | tagOne => exact hkey hrun fun mconf' key r t m hdb' => h.tagKeysOnly hdb'
  | slot => exact hslot hrun fun mconf' slot x t m hdb' => h.slotOneKey hdb'
  | tagSlot => exact hslot hrun fun mconf' slot x t m hdb' => h.tagSlotKeys hdb'

end

end RedisXSlot
