import RedisXSlot.Expiry

/-! Whether an async migration loses an update.

A worker takes the server's lock for one call at a time, and between its calls clients may
run commands on the very keys that move. What a client writes after the DUMP and before
the UNLINK is unlinked and never sent (`not_no_update_lost`). What it leaves outside of
that stretch is there in the end, on the source or on the target, and so is an expiry that
it changes before the TTL is asked for (`no_update_lost`). -/
namespace RedisXSlot
open Interaction

variable {hash : Bytes → Nat} {conf : SlotsMetaInfo}

/-- What the last client command of `ls` on the key left there, `init` before all of them. -/
def lastClient (key : Bytes) (init : Option Entry) (ls : List Label) : Option Entry :=
  ls.foldl (fun c l => match l with
    | .move (.client k content _) => if k = key then content else c
    | _ => c) init

/-- What is in the database in the end is what the last client command left: the
value, and whether it expires. It may also have expired. -/
def Reflects (now : Int) (final last : Option Entry) : Prop :=
  match last with
  | none => final = none
  | some entry =>
    (∃ new, final = some new ∧ new.val = entry.val ∧ (new.expire.isSome ↔ entry.expire.isSome)) ∨
      final = none ∧ entry.expired now = true

/-- A migration that completes: the source goes from `s` to `s'` by `ls`, and the target runs what
it acknowledges, each command in its own time, and goes from `ks` to `ks'`. -/
structure Completed (hash : Bytes → Nat) (conf : SlotsMetaInfo) (mconf : MgrtConf) (keys : List Bytes)
    (s : Source) (ls : List Label) (s' : Source) (ks ks' : Keyspace) : Prop where
  success : ∃ r, Runs (migrateKeys mconf keys) (calls ls) (some r) ∧ r ≠ SLOTS_MGRT_ERR
  source : Path (Source.step hash conf mconf.db) s ls s'
  target : ∃ order, order.Perm (acked (calls ls)) ∧
    Path (fun ks argv ks' => ∃ now, RestoreStep now ks argv ks') ks order ks'

/-- The key was dumped with a value. -/
def WasDumped (key : Bytes) (ls : List Label) : Prop := ∃ val, (⟨.dump key, Reply.string val⟩ : Event) ∈ calls ls

/-- The logical content of a key: the source's if it is there, otherwise the target's. -/
def content (s : Source) (ks : Keyspace) (key : Bytes) : Option Entry := (s.live key).or (ks key)

/-- Whatever clients do in between, every migrated key is in the end as its last client
command left it. -/
def NoUpdateLost : Prop :=
  ∀ (hash : Bytes → Nat) (conf : SlotsMetaInfo) (mconf : MgrtConf) (keys : List Bytes) (s : Source)
    (ls : List Label) (s' : Source) (ks ks' : Keyspace), mconf.async = true →
    Completed hash conf mconf keys s ls s' ks ks' → ∀ key, WasDumped key ls →
      Reflects s'.now (content s' ks' key) (lastClient key (s.keyspace key) ls)

/-! ### A write in between -/

def asyncConnection : MgrtConf := ⟨true, 0, 0, [104], [49], none⟩

theorem runs_solo_async : Runs (migrateKeys asyncConnection [[97]]) (solo (-1) [48]) (some 1) :=
  .call _ (.call _ (.call _ (.call _ (.call _ (.call _ (.call _ (.call _ (.ret _))))))))

/-- The moves of others fall between DUMP and PTTL, and between that and the connection. -/
def soloWith (ms ms' : List Move) : List Label :=
  .call ⟨.dump [97], Reply.string [1]⟩ :: (ms.map .move ++ .call ⟨.pttl [97], Reply.integer (-1)⟩ ::
    (ms'.map .move ++ ((solo (-1) [48]).drop 2).map .call))

theorem calls_soloWith (ms ms' : List Move) : calls (soloWith ms ms') = solo (-1) [48] := by
  rw [soloWith, calls_call, calls_append, calls_map_move, calls_call, calls_append, calls_map_move, calls_map_call]
  rfl

/-- What the target holds then. -/
def restoredSolo : Keyspace := targetAfter 0 (fun _ => none) restoreSolo

/-- The moves of others do not keep the migration from completing, as long as they leave the key,
without an expiry when that is asked for. -/
theorem completed_soloWith {ms ms' : List Move} {s₀ s s' : Source} {expire : Option Int}
    (h₀ : s₀.live [97] = some ⟨[1], expire⟩) (hms : Path (Source.step (fun _ => 0) conf16 0) s₀ (ms.map .move) s)
    (h : s.live [97] = some ⟨[1], none⟩) (hms' : Path (Source.step (fun _ => 0) conf16 0) s (ms'.map .move) s')
    (hlive : (s'.live [97]).isSome) :
    Completed (fun _ => 0) conf16 asyncConnection [[97]] s₀ (soloWith ms ms') (s'.unlink (fun _ => 0) conf16 0 [97])
      (fun _ => none) restoredSolo where
  success := by
    refine ⟨1, ?_, by decide⟩
    rw [calls_soloWith]
    exact runs_solo_async
  source := by
    have htouch₀ : s₀.touch (fun _ => 0) conf16 0 [97] = s₀ := Source.touch_of_live h₀
    have htouch : s.touch (fun _ => 0) conf16 0 [97] = s := Source.touch_of_live h
    have hpttl : (-1 : Int64).toInt = s.pttl [97] := by rw [Source.pttl, h]; rfl
    refine ⟨s₀, ⟨by rw [dumpReply, h₀]; rfl, htouch₀.symm⟩,
      path_append.mpr ⟨s, hms, s, ⟨⟨-1, rfl, hpttl⟩, htouch.symm⟩, ?_⟩⟩
    refine path_append.mpr ⟨s', hms', ?_⟩
    exact ⟨s', rfl, s', rfl, s', rfl, s', rfl, s', rfl, _, ⟨(if_pos hlive).symm ▸ rfl, rfl⟩, rfl⟩
  target := by
    refine ⟨[[slotsrestoreName, [97], [48], [1]]], ?_, restoredSolo,
      ⟨0, restoreSolo, 1, runs_restoreSolo, by decide, redisReplies_restoreSolo, rfl⟩, rfl⟩
    rw [calls_soloWith]
    exact .refl _

/-- A client's write between the TTL and the UNLINK is lost: the key ends on the target as it was. -/
theorem not_no_update_lost : ¬ NoUpdateLost := by
  intro h
  let s : Source := oneKey.client (fun _ => 0) conf16 0 [97] (some ⟨[2], none⟩) 0
  have hlive : s.live [97] = some ⟨[2], none⟩ := by simp [s, Source.client, Source.live, Entry.expired]
  have hdone := @completed_soloWith [] [.client [97] (some ⟨[2], none⟩) 0] oneKey oneKey s none rfl rfl rfl
    ⟨s, rfl, rfl⟩ (by rw [hlive]; rfl)
  have hend := h _ _ _ _ _ _ _ _ _ rfl hdone [97] ⟨[1], List.mem_cons_self ..⟩
  have hcontent : content (s.unlink (fun _ => 0) conf16 0 [97]) restoredSolo [97] = some ⟨[1], none⟩ := by
    rw [content, Source.live, Source.keyspace_unlink]
    rfl
  rw [hcontent] at hend
  rcases hend with ⟨new, hnew, hval, -⟩ | ⟨hnone, -⟩
  · cases hnew
    cases hval
  · cases hnone

/-! ### Without one -/

/-- A call of the migration about the key. -/
def Label.about (key : Bytes) : Label → Bool
  | .call ⟨.dump k, _⟩ | .call ⟨.pttl k, _⟩ | .call ⟨.unlink k, _⟩ => k = key
  | _ => false

/-- A client's command on the key. -/
def Label.byClient (key : Bytes) : Label → Bool
  | .move (.client k _ _) => k = key
  | _ => false

/-- The call asks for the TTL of the key, or unlinks it. -/
def Label.settles (key : Bytes) : Label → Bool
  | .call ⟨.pttl k, _⟩ | .call ⟨.unlink k, _⟩ => k = key
  | _ => false

/-- A client's command on the key leaves it with the value it had in `c`, if it had one. -/
def Label.keepsValue (key : Bytes) (c : Option Entry) : Label → Prop
  | .move (.client k content _) => k = key → content.map Entry.val = c.map Entry.val
  | _ => True

/-- Client commands on the key that fall between its first DUMP and its first PTTL keep its value,
none falls between that and the last call of the migration about it, and if any falls behind, it
leaves the key there to the end. At the beginning the key is `init`. -/
structure Undisturbed (key : Bytes) (init : Option Entry) (ls : List Label) (s' : Source) : Prop where
  split : ∃ pre dumps mid post, ls = pre ++ dumps ++ mid ++ post ∧ (∀ l ∈ pre, l.about key = false) ∧
    (∀ l ∈ dumps, l.settles key = false ∧ l.keepsValue key (lastClient key init pre)) ∧
    (∀ l ∈ mid, l.byClient key = false) ∧ (∀ l ∈ post, l.about key = false) ∧
    ((∀ l ∈ post, l.byClient key = false) ∨ (s'.live key).isSome)

/-! ### The source -/

section Source
variable {db : Nat} {key : Bytes} {s s' : Source} {ls : List Label}

theorem lastClient_append (init : Option Entry) (a b : List Label) :
    lastClient key init (a ++ b) = lastClient key (lastClient key init a) b := List.foldl_append

/-- A step leaves what was there before, or is a client's command, which does not depend on it. -/
theorem lastClient_or (key : Bytes) (l : Label) :
    (∀ init, lastClient key init [l] = init) ∨ ∀ a b, lastClient key a [l] = lastClient key b [l] := by
  rcases l with e | ⟨ms⟩ | ⟨k, c, draws⟩ | k
  · exact .inl fun _ => rfl
  · exact .inl fun _ => rfl
  · by_cases hk : k = key
    · exact .inr fun a b => by simp [lastClient, hk]
    · exact .inl fun init => by simp [lastClient, hk]
  · exact .inl fun _ => rfl

theorem Label.keepsValue_of_not_byClient {l : Label} (h : l.byClient key = false) (c : Option Entry) :
    l.keepsValue key c := by
  rcases l with e | ⟨ms⟩ | ⟨k, content, draws⟩ | k
  · trivial
  · trivial
  · exact fun hk => absurd h (by simp [Label.byClient, hk])
  · trivial

theorem lastClient_eq_self (init : Option Entry) (h : ∀ l ∈ ls, l.byClient key = false) :
    lastClient key init ls = init := by
  induction ls with
  | nil => rfl
  | cons l ls ih =>
    have hl := h l (List.mem_cons_self ..)
    rw [← List.singleton_append, lastClient_append]
    have hone : lastClient key init [l] = init := by
      rcases l with e | ⟨ms⟩ | ⟨k, c, draws⟩ | k <;> simp_all [lastClient, Label.byClient]
    rw [hone]
    exact ih fun l' hl' => h l' (List.mem_cons_of_mem l hl')

/-- Commands that keep the value leave it to the last. -/
theorem lastClient_val (key : Bytes) (ls : List Label) {c d : Option Entry} (hd : d.map Entry.val = c.map Entry.val)
    (h : ∀ l ∈ ls, l.keepsValue key c) : (lastClient key d ls).map Entry.val = c.map Entry.val := by
  induction ls generalizing d with
  | nil => exact hd
  | cons l ls ih =>
    have hl := h l (List.mem_cons_self ..)
    rw [← List.singleton_append, lastClient_append]
    refine ih ?_ fun l' hl' => h l' (List.mem_cons_of_mem l hl')
    rcases l with e | ⟨ms⟩ | ⟨k, content, draws⟩ | k
    · exact hd
    · exact hd
    · by_cases hk : k = key
      · simpa [lastClient, hk] using hl hk
      · simpa [lastClient, hk] using hd
    · exact hd

namespace Source

/-- Looking a key up may take it away, and does nothing else to a key. -/
theorem keyspace_touch_or (s : Source) (k key : Bytes) :
    (s.touch hash conf db k).keyspace key = none ∨ (s.touch hash conf db k).keyspace key = s.keyspace key := by
  by_cases hk : key = k
  · rw [hk, keyspace_touch, live]
    cases s.keyspace k with
    | none => exact .inl rfl
    | some entry => cases hx : entry.expired s.now <;> simp [Option.filter, hx]
  · exact .inr (keyspace_touch_of_ne s hk)

theorem keyspace_unlink_or (s : Source) (k key : Bytes) :
    (s.unlink hash conf db k).keyspace key = none ∨ (s.unlink hash conf db k).keyspace key = s.keyspace key := by
  by_cases hk : key = k
  · subst hk
    exact .inl (keyspace_unlink s key)
  · exact .inr (keyspace_unlink_of_ne s hk)

/-- A step takes a key away, leaves it, or is a client's command on it. -/
theorem keyspace_step {l : Label} (h : s.step hash conf db l s') :
    s'.keyspace key = none ∨ s'.keyspace key = lastClient key (s.keyspace key) [l] := by
  cases l with
  | call e =>
    obtain ⟨c, a⟩ := e
    cases c with
    | dump k | pttl k =>
      obtain ⟨-, rfl⟩ := h
      exact keyspace_touch_or s k key
    | unlink k =>
      obtain ⟨-, rfl⟩ := h
      exact keyspace_unlink_or s k key
    | randomKey i slot =>
      obtain ⟨_, _, _, -, -, rfl⟩ := h
      exact .inr rfl
    | slotSize | taggedKeys =>
      obtain ⟨-, rfl⟩ := h
      exact .inr rfl
    | _ =>
      cases h
      exact .inr rfl
  | move m =>
    cases h
    cases m with
    | tick ms => exact .inr rfl
    | reap k => exact keyspace_touch_or s k key
    | client k content draws =>
      by_cases hk : k = key
      · subst hk
        cases content with
        | none => exact .inl (keyspace_unlink s k)
        | some entry => exact .inr (by simp [move, client, lastClient])
      · cases content with
        | none =>
          have hlast : lastClient key (s.keyspace key) [.move (.client k none draws)] = s.keyspace key := by
            simp [lastClient, hk]
          rw [hlast]
          exact keyspace_unlink_or s k key
        | some entry => exact .inr (by simp [move, client, lastClient, hk, Function.update_of_ne (Ne.symm hk)])

/-- **The source never holds anything but what the last client command left.** -/
theorem keyspace_path {c : Option Entry} (hc : s.keyspace key = none ∨ s.keyspace key = c)
    (h : Path (step hash conf db) s ls s') : s'.keyspace key = none ∨ s'.keyspace key = lastClient key c ls := by
  induction ls generalizing s c with
  | nil =>
    cases h
    exact hc
  | cons l ls ih =>
    obtain ⟨m, hm, h⟩ := h
    rw [← List.singleton_append, lastClient_append]
    refine ih ?_ h
    rcases @keyspace_step hash conf db key _ _ _ hm with hnone | hlast
    · exact .inl hnone
    · rcases hc with hc | hc
      · rcases lastClient_or key l with hinit | hcmd
        · exact .inl (by rw [hlast, hinit, hc])
        · exact .inr (hlast.trans (hcmd _ _))
      · exact .inr (hc ▸ hlast)

end Source

/-- A call about the key is none before its first one or behind its last. -/
theorem mem_mid_of_about {pre mid post : List Label} (hpre : ∀ l ∈ pre, l.about key = false)
    (hpost : ∀ l ∈ post, l.about key = false) {e : Event} (he : e ∈ calls (pre ++ mid ++ post))
    (habout : Label.about key (.call e) = true) : Label.call e ∈ mid := by
  rcases List.mem_append.mp (mem_calls.mp he) with hl | hl
  · refine (List.mem_append.mp hl).resolve_left fun hl => ?_
    rw [hpre _ hl] at habout
    cases habout
  · rw [hpost _ hl] at habout
    cases habout

/-- The source around a call between `pre` and `post`: until then it holds nothing but what the last
client command left. -/
theorem exists_moment (key : Bytes) {pre mid post : List Label}
    (h : Path (Source.step hash conf db) s (pre ++ mid ++ post) s') {e : Event} (hin : Label.call e ∈ mid) :
    ∃ (m m' : Source) (before rest : List Label), mid = before ++ .call e :: rest ∧
      (m.keyspace key = none ∨ m.keyspace key = lastClient key (lastClient key (s.keyspace key) pre) before) ∧
      m.call hash conf db e m' ∧ Path (Source.step hash conf db) m' (rest ++ post) s' := by
  obtain ⟨before, rest, rfl⟩ := List.append_of_mem hin
  rw [show pre ++ (before ++ .call e :: rest) ++ post = pre ++ before ++ .call e :: (rest ++ post) by simp] at h
  obtain ⟨m, hm, m', hcall, hrest⟩ := path_append.mp h
  refine ⟨m, m', before, rest, rfl, ?_, hcall, hrest⟩
  have hlast := @Source.keyspace_path hash conf db key s m _ (s.keyspace key) (.inr rfl) hm
  rwa [lastClient_append] at hlast

theorem exists_call (h : Path (Source.step hash conf db) s ls s') {e : Event} (he : e ∈ calls ls) :
    ∃ m m' : Source, m.call hash conf db e m' := by
  obtain ⟨before, rest, rfl⟩ := List.append_of_mem (mem_calls.mp he)
  obtain ⟨m, -, m', hcall, -⟩ := path_append.mp h
  exact ⟨m, m', hcall⟩

theorem Source.eq_of_live {c : Option Entry} (hc : s.keyspace key = none ∨ s.keyspace key = c) {entry : Entry}
    (h : s.live key = some entry) : c = some entry := by
  have hk := (live_eq_some h).1
  rcases hc with hc | hc
  · rw [hc] at hk
    cases hk
  · exact hc ▸ hk

/-- A dump of a value is a dump of what the last client command left. -/
theorem dumped_eq_last {c : Option Entry} (hc : s.keyspace key = none ∨ s.keyspace key = c) {val : Bytes}
    (h : s.call hash conf db ⟨.dump key, Reply.string val⟩ s') : ∃ expire, c = some ⟨val, expire⟩ := by
  obtain ⟨ha, -⟩ := h
  rw [dumpReply] at ha
  cases hl : s.live key with
  | none =>
    rw [hl] at ha
    cases ha
  | some entry =>
    rw [hl] at ha
    cases ha
    exact ⟨entry.expire, Source.eq_of_live hc hl⟩

/-- A TTL that is neither 0 nor that of an absent key is positive exactly for an entry that expires. -/
theorem ttl_pos_iff {entry : Entry} (hc : s.keyspace key = none ∨ s.keyspace key = some entry) {n : Int64}
    (h : s.call hash conf db ⟨.pttl key, Reply.integer n⟩ s') (h0 : n.toInt ≠ 0) (h2 : n.toInt ≠ -2) :
    n > 0 ↔ entry.expire.isSome := by
  obtain ⟨⟨n', hn, hpttl⟩, -⟩ := h
  cases hn
  rw [gt_iff_lt, Int64.lt_iff_toInt_lt, Int64.toInt_zero]
  rw [hpttl] at h0 h2 ⊢
  rw [Source.pttl] at h0 h2 ⊢
  cases hl : s.live key with
  | none => simp [hl] at h2
  | some e =>
    cases Source.eq_of_live hc hl
    obtain ⟨val, expire⟩ := entry
    cases expire with
    | none => simp
    | some w =>
      have hx := (Source.live_eq_some hl).2
      simp only [Entry.expired, Option.any_some, decide_eq_false_iff_not, hl] at hx h0 h2 ⊢
      simp only [Option.isSome_some, iff_true]
      omega

end Source

/-! ### The objects -/

/-- The calls an object comes from are in the trace. -/
theorem Dumped.mem_events {keys : List Bytes} {t : Trace} {slots : List (Option DumpObj)} (h : Dumped keys t slots)
    {obj : DumpObj} (hobj : some obj ∈ slots) : obj.dumpEvents ⊆ t := by
  induction h with
  | nil => cases hobj
  | skip _ _ ih => exact List.subset_append_of_subset_right _ (ih (by simpa using hobj))
  | dump obj' _ ih =>
    rcases List.mem_cons.mp hobj with he | hobj
    · cases he
      exact List.subset_append_left _ _
    · exact List.subset_append_of_subset_right _ (ih hobj)

/-- A key dumped with a value whose TTL is a number makes an object. -/
theorem Dumped.exists_slot {keys : List Bytes} {t : Trace} {slots : List (Option DumpObj)} (h : Dumped keys t slots)
    (httl : ∀ key a, (⟨.pttl key, a⟩ : Event) ∈ t → ∃ n, a = Reply.integer n) {key val : Bytes}
    (hdump : (⟨.dump key, Reply.string val⟩ : Event) ∈ t) : ∃ obj, some obj ∈ slots ∧ obj.key = key := by
  induction h with
  | nil => cases hdump
  | skip hskip _ ih =>
    have ih := ih fun k a hm => httl k a (List.mem_append_right _ hm)
    rcases List.mem_append.mp hdump with hdump | hdump
    · cases hskip with
      | absent a ha =>
        cases List.mem_singleton.mp hdump
        rcases ha with ha | ha <;> cases ha
      | gone val' a ha =>
        obtain ⟨n, hn⟩ := httl _ a (List.mem_append_left _ (List.mem_cons_of_mem _ (List.mem_singleton.mpr rfl)))
        rw [hn] at ha
        rcases ha with ha | ha <;> cases ha
    · obtain ⟨obj, hobj, hkey⟩ := ih hdump
      exact ⟨obj, List.mem_cons_of_mem _ hobj, hkey⟩
  | dump obj _ ih =>
    have ih := ih fun k a hm => httl k a (List.mem_append_right _ hm)
    rcases List.mem_append.mp hdump with hdump | hdump
    · refine ⟨obj, List.mem_cons_self .., ?_⟩
      rcases List.mem_cons.mp hdump with he | hdump
      · cases he
        rfl
      · cases List.mem_singleton.mp hdump
    · obtain ⟨obj', hobj, hkey⟩ := ih hdump
      exact ⟨obj', List.mem_cons_of_mem _ hobj, hkey⟩

theorem Succeeded.exists_obj {mconf : MgrtConf} {keys : List Bytes} {t : Trace} {objs : List DumpObj}
    (h : Succeeded mconf keys t objs) (httl : ∀ key a, (⟨.pttl key, a⟩ : Event) ∈ t → ∃ n, a = Reply.integer n)
    {key val : Bytes} (hdump : (⟨.dump key, Reply.string val⟩ : Event) ∈ t) : ∃ obj ∈ objs, obj.key = key := by
  cases h with
  | @mk d n u slots _ ks hd hslots hnet hdel =>
    have hin : (⟨.dump key, Reply.string val⟩ : Event) ∈ d := by
      rcases List.mem_append.mp hdump with hm | hm
      · refine (List.mem_append.mp hm).resolve_right fun hm => ?_
        cases hnet _ hm
      · have hc : Call.dump key ∈ ks.map Call.unlink := hdel ▸ List.mem_map_of_mem hm
        simp at hc
    obtain ⟨obj, hobj, hkey⟩ := hd.exists_slot (fun k a hm => httl k a (by simp [hm])) hin
    exact ⟨obj, (hslots obj).mp hobj, hkey⟩

/-- What a migration that moved an object has asked the server about its key. -/
theorem Succeeded.asked {mconf : MgrtConf} {keys : List Bytes} {t : Trace} {objs : List DumpObj}
    (h : Succeeded mconf keys t objs) {obj : DumpObj} (hobj : obj ∈ objs) :
    obj.key ∈ keys ∧ obj.dumpEvents ⊆ t ∧ ∃ a, (⟨.unlink obj.key, a⟩ : Event) ∈ t := by
  cases h with
  | @mk d n u slots _ ks hd hslots hnet hdel _ hack =>
    have hev := hd.mem_events ((hslots obj).mpr hobj)
    obtain ⟨key, hkey, hc⟩ := hd.mem_keys _ (hev (List.mem_cons_self ..))
    obtain rfl : obj.key = key := by simpa using hc
    refine ⟨hkey, fun e he => by simp [hev he], ?_⟩
    obtain ⟨rfl, -⟩ := hack (List.ne_nil_of_mem hobj)
    obtain ⟨⟨c, a⟩, he, hc⟩ := List.mem_map.mp (hdel ▸ List.mem_map_of_mem hkey : Call.unlink obj.key ∈ u.map (·.call))
    cases hc
    exact ⟨a, by simp [he]⟩

/-! ### The target -/

/-- The key was last put in from one of the objects. -/
def FromObj (key : Bytes) (objs : List DumpObj) (ks : Keyspace) : Prop :=
  ∃ obj ∈ objs, obj.key = key ∧ ∃ now, ks key = some (obj.entry now)

theorem FromObj.mono {key : Bytes} {objs objs' : List DumpObj} {ks : Keyspace} (h : FromObj key objs ks)
    (hsub : objs ⊆ objs') : FromObj key objs' ks := by
  obtain ⟨obj, hobj, h⟩ := h
  exact ⟨obj, hsub hobj, h⟩

theorem restoreEach_fromObj (now : Int) {objs : List DumpObj} (hnul : ∀ obj ∈ objs, NulFree obj.key) (key : Bytes)
    (ks : Keyspace) :
    key ∉ objs.map DumpObj.key ∧ restoreEach now (objs.map DumpObj.sent) ks key = ks key ∨
      FromObj key objs (restoreEach now (objs.map DumpObj.sent) ks) := by
  induction objs generalizing ks with
  | nil => exact .inl ⟨by simp, rfl⟩
  | cons obj objs ih =>
    rw [restoreEach_cons now (hnul obj (List.mem_cons_self ..))]
    rcases ih (fun o ho => hnul o (List.mem_cons_of_mem obj ho)) (Function.update ks obj.key (some (obj.entry now)))
      with ⟨hnot, hkey⟩ | h
    · by_cases hk : key = obj.key
      · subst hk
        exact .inr ⟨obj, List.mem_cons_self .., rfl, now, by rw [hkey, Function.update_self]⟩
      · exact .inl ⟨by simp [hk] at hnot ⊢; exact hnot, by rw [hkey, Function.update_of_ne hk]⟩
    · exact .inr (h.mono (List.subset_cons_self ..))

/-- Whatever order the commands are run in, and whenever, a key that is carried comes from one of
its objects. -/
theorem path_fromObj {gs : List (List DumpObj)} (hnul : ∀ obj ∈ gs.flatten, NulFree obj.key) (key : Bytes)
    {ks ks' : Keyspace}
    (h : Path (fun ks argv ks' => ∃ now, RestoreStep now ks argv ks') ks (gs.map restoreCommand) ks') :
    key ∉ gs.flatten.map DumpObj.key ∧ ks' key = ks key ∨ FromObj key gs.flatten ks' := by
  induction gs generalizing ks with
  | nil =>
    cases h
    exact .inl ⟨by simp, rfl⟩
  | cons g gs ih =>
    obtain ⟨m, ⟨now, hm⟩, h⟩ := h
    simp only [List.flatten_cons, List.mem_append] at hnul ⊢
    rcases ih (fun obj hobj => hnul obj (.inr hobj)) h with ⟨hnot, hkey⟩ | h
    · rw [hm.eq (decodeTriples_restoreCommand g)] at hkey
      rcases restoreEach_fromObj now (fun obj hobj => hnul obj (.inl hobj)) key ks with ⟨hnot', hkey'⟩ | ⟨obj, hobj, hk, n, he⟩
      · refine .inl ⟨?_, hkey.trans hkey'⟩
        rw [List.map_append, List.mem_append]
        exact not_or.mpr ⟨hnot', hnot⟩
      · exact .inr ⟨obj, List.mem_append_left _ hobj, hk, n, hkey.trans he⟩
    · exact .inr (h.mono (List.subset_append_right g _))

/-! ### Together -/

section
variable {mconf : MgrtConf} {keys : List Bytes} {s s' : Source} {ls : List Label} {ks ks' : Keyspace} {key : Bytes}

/-- The target ends with one of the objects of a key that was dumped with a value. -/
theorem Completed.fromObj (h : Completed hash conf mconf keys s ls s' ks ks') (hnul : ∀ key ∈ keys, NulFree key)
    (hd : WasDumped key ls) : ∃ objs, Succeeded mconf keys (calls ls) objs ∧ FromObj key objs ks' := by
  obtain ⟨⟨r, hrun, hr⟩, hpath, order, horder, htarget⟩ := h
  obtain ⟨val, hval⟩ := hd
  obtain ⟨objs, hs⟩ := (migrateKeys_runs hrun).succeeded hr
  have httl (k : Bytes) (a : Reply) (hm : (⟨.pttl k, a⟩ : Event) ∈ calls ls) : ∃ n, a = Reply.integer n := by
    obtain ⟨m, m', ⟨n, hn, -⟩, -⟩ := exists_call hpath hm
    exact ⟨n, hn⟩
  obtain ⟨obj, hobj, rfl⟩ := hs.exists_obj httl hval
  have hne := List.ne_nil_of_mem hobj
  obtain ⟨gs, hgs, rfl⟩ := exists_perm_of_perm_map (horder.trans (mgrtCommands_eq mconf objs ▸ hs.acked_perm hne))
  have hflat : gs.flatten.Perm objs := by
    have := hgs.flatten
    rwa [groups_flatten] at this
  refine ⟨objs, hs, ((path_fromObj (fun o ho => ?_) obj.key htarget).resolve_left fun hnot => ?_).mono hflat.subset⟩
  · exact hnul _ (hs.asked (hflat.subset ho)).1
  · exact hnot.1 (List.mem_map_of_mem (hflat.symm.subset hobj))

/-- **An undisturbed key loses no update.** If clients do not change the value of a migrated key
between the first and the last call about it, nor anything of it once its TTL has been asked for,
then in the end it is as the last client command left it. TTLs of 0 and of keys that are gone are
left out, as are keys with a NUL. -/
theorem no_update_lost (h : Completed hash conf mconf keys s ls s' ks ks') (hnul : ∀ key ∈ keys, NulFree key)
    (hd : WasDumped key ls) (hu : Undisturbed key (s.keyspace key) ls s')
    (httl : ∀ n, (⟨.pttl key, Reply.integer n⟩ : Event) ∈ calls ls → n.toInt ≠ 0 ∧ n.toInt ≠ -2) :
    Reflects s'.now (content s' ks' key) (lastClient key (s.keyspace key) ls) := by
  obtain ⟨objs, hs, obj, hobj, rfl, now, htarget⟩ := h.fromObj hnul hd
  obtain ⟨-, hev, a, hunlink⟩ := hs.asked hobj
  obtain ⟨pre, dumps, mid, post, rfl, hpre, hdumps, hmid, hpost, hend⟩ := hu.split
  rcases hend with hclient | hlive
  · -- A TTL or an UNLINK of the key is asked for behind `dumps`, where no client touches it.
    have hsettled {e : Event} (he : e ∈ calls (pre ++ dumps ++ mid ++ post))
        (habout : Label.about obj.key (.call e) = true) (hset : Label.settles obj.key (.call e) = true) : Label.call e ∈ mid := by
      rw [List.append_assoc pre] at he
      refine (List.mem_append.mp (mem_mid_of_about hpre hpost he habout)).resolve_left fun hl => ?_
      rw [(hdumps _ hl).1] at hset
      cases hset
    -- The unlink takes the key away, and nobody puts it back.
    obtain ⟨_, m', _, rest, hrest, -, ⟨-, hm'⟩, hpath⟩ :=
      exists_moment obj.key h.source (hsettled hunlink (by simp [Label.about]) (by simp [Label.settles]))
    have hgone : s'.keyspace obj.key = none := by
      have hnone : m'.keyspace obj.key = none := hm' ▸ Source.keyspace_unlink ..
      have := Source.keyspace_path (.inl hnone) hpath (c := none)
      rwa [lastClient_eq_self, or_self] at this
      exact fun l hl => (List.mem_append.mp hl).elim (fun hl => hmid l (by rw [hrest]; simp [hl])) (hclient l)
    have hcontent : content s' ks' obj.key = some (obj.entry now) := by
      simp [content, Source.live, hgone, htarget]
    -- The dump is of a value that the commands keep.
    have hdump := hev (List.mem_cons_self ..)
    obtain ⟨expire, hlast⟩ : ∃ expire,
        lastClient obj.key (s.keyspace obj.key) (pre ++ dumps) = some ⟨obj.val, expire⟩ := by
      have hkept := lastClient_val obj.key dumps (rfl : _ = (lastClient obj.key (s.keyspace obj.key) pre).map Entry.val)
        fun l hl => (hdumps l hl).2
      have hval : (lastClient obj.key (s.keyspace obj.key) pre).map Entry.val = some obj.val := by
        rw [List.append_assoc pre] at hdump
        have hin := mem_mid_of_about hpre hpost hdump (by simp [Label.about])
        have hsource := h.source
        rw [List.append_assoc pre] at hsource
        obtain ⟨m, _, before, rest, hbefore, hc, hcall, -⟩ := exists_moment obj.key hsource hin
        obtain ⟨expire, hlast⟩ := dumped_eq_last hc hcall
        have hvalue := lastClient_val obj.key before
          (rfl : _ = (lastClient obj.key (s.keyspace obj.key) pre).map Entry.val) fun l hl => ?_
        · rw [← hvalue, hlast]
          rfl
        have hl : l ∈ dumps ++ mid := by rw [hbefore]; simp [hl]
        rcases List.mem_append.mp hl with hl | hl
        · exact (hdumps l hl).2
        · exact Label.keepsValue_of_not_byClient (hmid l hl) _
      rw [hval] at hkept
      rw [lastClient_append]
      obtain ⟨⟨val, expire⟩, hentry, rfl⟩ := Option.map_eq_some_iff.mp hkept
      exact ⟨expire, hentry⟩
    -- The TTL is that of the entry the last command left.
    have hpttl := hev (List.mem_cons_of_mem _ (List.mem_singleton.mpr rfl))
    obtain ⟨m₂, _, before, _, hbefore, hc₂, hcall, -⟩ :=
      exists_moment obj.key h.source (hsettled hpttl (by simp [Label.about]) (by simp [Label.settles]))
    rw [lastClient_eq_self _ fun l hl => hmid l (by rw [hbefore]; simp [hl]), hlast] at hc₂
    obtain ⟨h0, h2⟩ := httl _ hpttl
    rw [hcontent, List.append_assoc, lastClient_append, hlast, lastClient_eq_self _ fun l hl =>
      (List.mem_append.mp hl).elim (hmid l) (hclient l)]
    refine .inl ⟨_, rfl, rfl, ?_⟩
    rw [← ttl_pos_iff hc₂ hcall h0 h2, DumpObj.entry]
    by_cases hp : obj.ttlms > 0 <;> simp [hp]
  · obtain ⟨entry, hentry⟩ := Option.isSome_iff_exists.mp hlive
    have hlast := Source.eq_of_live (Source.keyspace_path (.inr rfl) h.source) hentry
    rw [content, hentry, hlast]
    exact .inl ⟨entry, rfl, rfl, .rfl⟩

/-- A client makes the key persistent between its DUMP and its PTTL, and writes another key behind. -/
def persisted : Source := (expiring 0).client (fun _ => 0) conf16 0 [97] (some ⟨[1], none⟩) 0
def persistedBoth : Source := persisted.client (fun _ => 0) conf16 0 [98] (some ⟨[2], none⟩) 0

theorem no_update_lost_persisted :
    Reflects 0 (content (persistedBoth.unlink (fun _ => 0) conf16 0 [97]) restoredSolo [97]) (some ⟨[1], none⟩) := by
  have hlive : persisted.live [97] = some ⟨[1], none⟩ := by
    simp [persisted, Source.client, Source.live, Entry.expired]
  have hboth : persistedBoth.live [97] = some ⟨[1], none⟩ := by
    simp [persistedBoth, persisted, Source.client, Source.live, Entry.expired]
  have hnow : (persistedBoth.unlink (fun _ => 0) conf16 0 [97]).now = 0 := by
    rw [Source.now_unlink]
    rfl
  let ms : List Move := [.client [97] (some ⟨[1], none⟩) 0]
  let ms' : List Move := [.client [98] (some ⟨[2], none⟩) 0]
  have hdone := @completed_soloWith ms ms' (expiring 0) persisted persistedBoth (some 100) rfl ⟨persisted, rfl, rfl⟩ hlive
    ⟨persistedBoth, rfl, rfl⟩ (by rw [hboth]; rfl)
  have h := @no_update_lost _ _ _ _ _ _ _ _ _ [97] hdone (by decide) ⟨[1], by simp [calls_soloWith, solo]⟩
    ⟨[], (soloWith ms ms').take 2, (soloWith ms ms').drop 2, [], by simp, by simp, ?_, by decide, by simp,
      .inl (by simp)⟩ ?_
  · rwa [hnow] at h
  · intro l hl
    rcases List.mem_cons.mp hl with rfl | hl
    · exact ⟨rfl, trivial⟩
    · obtain rfl := List.mem_singleton.mp hl
      exact ⟨rfl, fun _ => rfl⟩
  · intro n hn
    rw [calls_soloWith] at hn
    simp only [solo, List.mem_cons, List.not_mem_nil, or_false] at hn
    rcases hn with he | he | he | he | he | he | he | he <;> cases he
    decide

end

end RedisXSlot
