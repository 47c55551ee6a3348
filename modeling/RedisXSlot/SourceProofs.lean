import RedisXSlot.Async
import RedisXSlot.TagProofs

/-! What a synchronous migration does to the source.

A key goes from the database and from the index at once: when it is found expired, or
unlinked. A key the index holds and the database does not stays where it is. So a
migration that ends without an error leaves the keyspace without its keys, and the index
without those of them that were there (`migrateKeys_removes`). -/
namespace RedisXSlot
open Interaction

variable {hash : Bytes → Nat} {conf : SlotsMetaInfo} {db : Nat}

variable (hash conf db) in
/-- Each key is as it was, or has gone from both sides. -/
structure Shrinks (s s' : Source) : Prop where
  quiet : s'.mod.Quiet hash conf
  now : s'.now = s.now
  key : ∀ k, (s'.keyspace k = s.keyspace k ∧ (k ∈ s'.mod.slots.keys conf db ↔ k ∈ s.mod.slots.keys conf db)) ∨
    ((s.keyspace k).isSome ∧ s'.keyspace k = none ∧ k ∉ s'.mod.slots.keys conf db)
  other : ∀ i, i ≠ db → s'.mod.slots.keys conf i = s.mod.slots.keys conf i

namespace Shrinks
variable {s s' s'' : Source} {key : Bytes}

theorem refl (hq : s.mod.Quiet hash conf) : Shrinks hash conf db s s :=
  ⟨hq, rfl, fun _ => .inl ⟨rfl, Iff.rfl⟩, fun _ _ => rfl⟩

theorem trans (h : Shrinks hash conf db s s') (h' : Shrinks hash conf db s' s'') : Shrinks hash conf db s s'' where
  quiet := h'.quiet
  now := h'.now.trans h.now
  key k := by
    rcases h.key k with ⟨hk, hi⟩ | ⟨hsome, hk, hi⟩
    · rcases h'.key k with ⟨hk', hi'⟩ | hgone
      · exact .inl ⟨hk'.trans hk, hi'.trans hi⟩
      · exact .inr (hk ▸ hgone)
    · rcases h'.key k with ⟨hk', hi'⟩ | ⟨hsome', -⟩
      · exact .inr ⟨hsome, hk'.trans hk, mt hi'.mp hi⟩
      · rw [hk] at hsome'
        cases hsome'
  other i hi := (h'.other i hi).trans (h.other i hi)

/-- Moving entries within the index changes no key. -/
theorem moved (hq : s.mod.Quiet hash conf) {slots : Slots} (hm : Slots.Moved hash s.mod.slots slots) :
    Shrinks hash conf db s { s with mod := { s.mod with slots } } :=
  ⟨⟨hm.wf hq.wf, hq.flag⟩, rfl, fun k => .inl ⟨rfl, Set.ext_iff.mp (hm.keys db) k⟩, fun i _ => hm.keys i⟩

/-- A key that is there goes, and the index hears of it. -/
theorem drop (hq : s.mod.Quiet hash conf) (hsome : (s.keyspace key).isSome) {type : NotifyType} {event : String}
    (hn : notify hash conf 0 s.mod ⟨type, event, db, key⟩ =
      { s.mod with slots := slotsDel hash conf s.mod.slots db key }) :
    Shrinks hash conf db s (s.drop hash conf db key type event) := by
  obtain ⟨hwf, hdel⟩ := keys_slotsDel hq.wf db key
  rw [Source.drop, hn]
  refine ⟨⟨hwf, hq.flag⟩, rfl, fun k => ?_, fun i hi => Set.ext fun k => ?_⟩
  · by_cases hk : k = key
    · subst hk
      exact .inr ⟨hsome, Function.update_self .., fun hin => ((hdel db k).mp hin).1 ⟨rfl, rfl⟩⟩
    · exact .inl ⟨Function.update_of_ne hk .., (hdel db k).trans (and_iff_right fun hc => hk hc.2)⟩
  · exact (hdel i k).trans (and_iff_right fun hc => hi hc.1)

theorem touch (hq : s.mod.Quiet hash conf) (key : Bytes) : Shrinks hash conf db s (s.touch hash conf db key) := by
  rw [Source.touch]
  split
  next hx =>
    have hsome : (s.keyspace key).isSome := by
      cases hk : s.keyspace key with
      | none => simp [hk] at hx
      | some => rfl
    exact drop hq hsome (notify_expired 0 s.mod db key)
  next => exact refl hq

theorem unlink (hq : s.mod.Quiet hash conf) (key : Bytes) : Shrinks hash conf db s (s.unlink hash conf db key) := by
  have ht : Shrinks hash conf db s (s.touch hash conf db key) := touch hq key
  simp only [Source.unlink]
  split
  next hk => exact ht.trans (drop ht.quiet hk (notify_del 0 _ db key))
  next => exact ht

/-- **What a call of the migration does to the source.** -/
theorem call (hq : s.mod.Quiet hash conf) {e : Event} (h : s.call hash conf db e s') : Shrinks hash conf db s s' := by
  obtain ⟨c, a⟩ := e
  cases c with
  | dump key | pttl key =>
    obtain ⟨-, rfl⟩ := h
    exact touch hq key
  | unlink key =>
    obtain ⟨-, rfl⟩ := h
    exact unlink hq key
  | randomKey i slot =>
    obtain ⟨draws, d, out, hget, -, rfl⟩ := h
    have hm : Dict.Moved hash (s.mod.slots.table i slot) (Dict.getRandomKey hash (s.mod.slots.table i slot) draws).1 :=
      (Dict.getRandomKey_spec ((hq.wf i).table slot) draws).1
    rw [hget] at hm
    exact moved hq (Slots.setTable_moved hq.wf hm)
  | slotSize | taggedKeys =>
    obtain ⟨-, rfl⟩ := h
    exact refl hq
  | _ =>
    cases h
    exact refl hq

theorem path {t : Trace} (hq : s.mod.Quiet hash conf) (h : Path (Source.step hash conf db) s (t.map .call) s') :
    Shrinks hash conf db s s' := by
  induction t generalizing s with
  | nil =>
    cases h
    exact refl hq
  | cons e t ih =>
    obtain ⟨m, hm, h⟩ := h
    have hc := call hq hm
    exact hc.trans (ih hc.quiet h)

theorem none_of_none (h : Shrinks hash conf db s s') (hk : s.keyspace key = none) : s'.keyspace key = none := by
  rcases h.key key with ⟨hk', -⟩ | ⟨-, hk', -⟩
  · rw [hk', hk]
  · exact hk'

end Shrinks

/-! ### Keys that are asked about -/

namespace Source
variable {s s' : Source} {key : Bytes} {t : Trace}

/-- A call changes no key it is not about. -/
theorem keyspace_call {e : Event} (h : s.call hash conf db e s') (hk : Label.about key (.call e) = false) :
    s'.keyspace key = s.keyspace key := by
  obtain ⟨c, a⟩ := e
  cases c with
  | dump k | pttl k =>
    obtain ⟨-, rfl⟩ := h
    exact keyspace_touch_of_ne s (by simpa [Label.about, eq_comm] using hk)
  | unlink k =>
    obtain ⟨-, rfl⟩ := h
    exact keyspace_unlink_of_ne s (by simpa [Label.about, eq_comm] using hk)
  | randomKey i slot =>
    obtain ⟨_, _, _, -, -, rfl⟩ := h
    rfl
  | slotSize | taggedKeys =>
    obtain ⟨-, rfl⟩ := h
    rfl
  | _ =>
    cases h
    rfl

theorem keyspace_calls (hk : ∀ e ∈ t, Label.about key (.call e) = false)
    (h : Path (step hash conf db) s (t.map .call) s') : s'.keyspace key = s.keyspace key := by
  induction t generalizing s with
  | nil =>
    cases h
    rfl
  | cons e t ih =>
    obtain ⟨m, hm, h⟩ := h
    rw [ih (fun e' he' => hk e' (List.mem_cons_of_mem e he')) h, keyspace_call hm (hk e (List.mem_cons_self ..))]

/-- The source around an event of a trace. -/
theorem path_split (h : Path (step hash conf db) s (t.map .call) s') {e : Event} (he : e ∈ t) :
    ∃ (m m' : Source) (t₁ t₂ : Trace), Path (step hash conf db) s (t₁.map .call) m ∧ m.call hash conf db e m' ∧
      Path (step hash conf db) m' (t₂.map .call) s' := by
  obtain ⟨t₁, t₂, rfl⟩ := List.append_of_mem he
  rw [List.map_append] at h
  obtain ⟨m, hm, m', hcall, h⟩ := path_append.mp h
  exact ⟨m, m', t₁, t₂, hm, hcall, h⟩

/-- A key is gone once it has been unlinked, or found absent by DUMP. -/
theorem keyspace_gone (hq : s.mod.Quiet hash conf) (h : Path (step hash conf db) s (t.map .call) s')
    (he : (∃ a, (⟨.unlink key, a⟩ : Event) ∈ t) ∨
      ∃ a, (⟨.dump key, a⟩ : Event) ∈ t ∧ ∀ val, a ≠ Reply.string val) : s'.keyspace key = none := by
  rcases he with ⟨a, he⟩ | ⟨a, he, hno⟩
  · obtain ⟨m, m', t₁, t₂, hm, hcall, h⟩ := path_split h he
    have hq' := (Shrinks.call (Shrinks.path hq hm).quiet hcall).quiet
    obtain ⟨-, rfl⟩ := hcall
    exact (Shrinks.path hq' h).none_of_none (keyspace_unlink m key)
  · obtain ⟨m, m', t₁, t₂, hm, hcall, h⟩ := path_split h he
    have hq' := (Shrinks.call (Shrinks.path hq hm).quiet hcall).quiet
    obtain ⟨ha, rfl⟩ := hcall
    refine (Shrinks.path hq' h).none_of_none ?_
    rw [keyspace_touch]
    cases hl : m.live key with
    | none => rfl
    | some entry =>
      rw [dumpReply, hl] at ha
      exact absurd ha (hno entry.val)

end Source

/-! ### A migration -/

variable (hash conf db) in
/-- The keys have gone: from the keyspace, and those that were there from the index. -/
structure Removes (keys : List Bytes) (s s' : Source) : Prop where
  quiet : s'.mod.Quiet hash conf
  now : s'.now = s.now
  keyspace : ∀ k, s'.keyspace k = if k ∈ keys then none else s.keyspace k
  index : ∀ k, k ∈ s'.mod.slots.keys conf db ↔
    k ∈ s.mod.slots.keys conf db ∧ ¬ (k ∈ keys ∧ (s.keyspace k).isSome)
  other : ∀ i, i ≠ db → s'.mod.slots.keys conf i = s.mod.slots.keys conf i

theorem Shrinks.removes {s s' : Source} {keys : List Bytes} (h : Shrinks hash conf db s s')
    (hgone : ∀ k ∈ keys, s'.keyspace k = none) (hrest : ∀ k, k ∉ keys → s'.keyspace k = s.keyspace k) :
    Removes hash conf db keys s s' where
  quiet := h.quiet
  now := h.now
  keyspace k := by
    by_cases hk : k ∈ keys
    · rw [if_pos hk, hgone k hk]
    · rw [if_neg hk, hrest k hk]
  index k := by
    rcases h.key k with ⟨hsame, hi⟩ | ⟨hsome, hnone, hi⟩
    · rw [hi]
      refine (and_iff_left ?_).symm
      rintro ⟨hk, hsome⟩
      rw [← hsame, hgone k hk] at hsome
      cases hsome
    · refine iff_of_false hi fun hc => hc.2 ⟨?_, hsome⟩
      by_contra hk
      rw [← hrest k hk, hnone] at hsome
      cases hsome
  other := h.other

theorem Dumped.mem_dump {keys : List Bytes} {t : Trace} {slots : List (Option DumpObj)} (h : Dumped keys t slots) :
    ∀ key ∈ keys, ∃ a, (⟨.dump key, a⟩ : Event) ∈ t := by
  induction h with
  | nil => simp
  | @skip k keys u t slots hskip _ ih =>
    intro key hkey
    rcases List.mem_cons.mp hkey with rfl | hkey
    · cases hskip with
      | absent a => exact ⟨a, by simp⟩
      | gone val => exact ⟨.string val, by simp⟩
    · obtain ⟨a, ha⟩ := ih key hkey
      exact ⟨a, List.mem_append_right u ha⟩
  | dump obj _ ih =>
    intro key hkey
    rcases List.mem_cons.mp hkey with rfl | hkey
    · exact ⟨.string obj.val, by simp [DumpObj.dumpEvents]⟩
    · obtain ⟨a, ha⟩ := ih key hkey
      exact ⟨a, List.mem_append_right _ ha⟩

/-- Every key of a migration that succeeds has been unlinked, or was found absent. -/
theorem Succeeded.gone {mconf : MgrtConf} {keys : List Bytes} {t : Trace} {objs : List DumpObj}
    (h : Succeeded mconf keys t objs) (httl : ∀ key a, (⟨.pttl key, a⟩ : Event) ∈ t → ∃ n, a = Reply.integer n) :
    ∀ key ∈ keys, (∃ a, (⟨.unlink key, a⟩ : Event) ∈ t) ∨
      ∃ a, (⟨.dump key, a⟩ : Event) ∈ t ∧ ∀ val, a ≠ Reply.string val := by
  intro key hkey
  cases h with
  | @mk d n u slots _ ks hd hslots hnet hdel _ hack =>
    by_cases hne : objs = []
    · obtain ⟨a, ha⟩ := hd.mem_dump key hkey
      refine .inr ⟨a, by simp [ha], ?_⟩
      rintro val rfl
      obtain ⟨obj, hobj, -⟩ := hd.exists_slot (fun k a hm => httl k a (by simp [hm])) ha
      rw [hne] at hslots
      exact absurd ((hslots obj).mp hobj) List.not_mem_nil
    · obtain ⟨rfl, -⟩ := hack hne
      obtain ⟨⟨c, a⟩, he, hc⟩ := List.mem_map.mp (hdel ▸ List.mem_map_of_mem hkey : Call.unlink key ∈ u.map (·.call))
      cases hc
      exact .inl ⟨a, by simp [he]⟩

/-- A migration asks only about its keys. -/
theorem Succeeded.about {mconf : MgrtConf} {keys : List Bytes} {t : Trace} {objs : List DumpObj}
    (h : Succeeded mconf keys t objs) {key : Bytes} (hkey : key ∉ keys) :
    ∀ e ∈ t, Label.about key (.call e) = false := by
  cases h with
  | @mk d n u slots _ ks hd hslots hnet hdel hsub hack =>
    intro e he
    rcases List.mem_append.mp he with he | he
    · rcases List.mem_append.mp he with he | he
      · obtain ⟨k, hk, hc⟩ := hd.mem_keys e he
        have hne : k ≠ key := fun hc => hkey (hc ▸ hk)
        obtain ⟨c, a⟩ := e
        rcases hc with hc | hc <;> (cases hc; simp [Label.about, hne])
      · have := hnet e he
        obtain ⟨c, a⟩ := e
        cases c <;> simp_all [Call.isNet, Label.about]
    · have hc : e.call ∈ ks.map Call.unlink := hdel ▸ List.mem_map_of_mem he
      obtain ⟨k, hk, hc⟩ := List.mem_map.mp hc
      have hne : k ≠ key := fun hc => hkey (hc ▸ hsub hk)
      obtain ⟨c, a⟩ := e
      cases hc
      simp [Label.about, hne]

/-- **A migration that ends without an error removes its keys.** -/
theorem migrateKeys_removes {mconf : MgrtConf} {keys : List Bytes} {s s' : Source} {t : Trace} {r : Int}
    (hq : s.mod.Quiet hash conf) (hrun : Runs (migrateKeys mconf keys) t (some r)) (hr : r ≠ SLOTS_MGRT_ERR)
    (h : Path (Source.step hash conf db) s (t.map .call) s') : Removes hash conf db keys s s' := by
  obtain ⟨objs, hs⟩ := (migrateKeys_runs hrun).succeeded hr
  have httl (k : Bytes) (a : Reply) (hm : (⟨.pttl k, a⟩ : Event) ∈ t) : ∃ n, a = Reply.integer n := by
    obtain ⟨m, m', _, _, -, ⟨⟨n, hn, -⟩, -⟩, -⟩ := Source.path_split h hm
    exact ⟨n, hn⟩
  exact (Shrinks.path hq h).removes (fun k hk => Source.keyspace_gone hq h (hs.gone httl k hk))
    fun k hk => Source.keyspace_calls (hs.about hk) h

end RedisXSlot
