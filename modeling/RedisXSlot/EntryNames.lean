import RedisXSlot.Ownership

/-! The names of the entries.

The tables of a database are a list here, and dictionaries in the index. Whatever callbacks
there are, the entries have the names that the index has as its keys (`names_run`), so
that the branches on whether a key is indexed are the same. -/
namespace RedisXSlot

/-- What the module hears, as the index sees it. -/
def Callback.event (draws : Nat) : Callback → ModuleEvent
  | .typeChange db key => .notification ⟨.string, "set", db, key.text⟩ draws
  | .generic event db key => .notification ⟨.generic, event, db, key.text⟩ draws
  | .flush start dbnum => .flush start dbnum

namespace RefState

/-- The entries have the keys of the index, and the static variables say the same. -/
structure Tracks (hash : Bytes → Nat) (conf : SlotsMetaInfo) (s : RefState) (m : ModuleState) : Prop where
  wf : m.slots.Wf hash conf
  nodup : s.names.Nodup
  names : ∀ db key, (db, key) ∈ s.names ↔ key ∈ m.slots.keys conf db
  pair : (m.from_key, m.to_key, m.from_dbid, m.to_dbid, m.cmd_flag) =
    (s.from_key.map Str.text, s.to_key.map Str.text, s.from_dbid, s.to_dbid, s.cmd_flag)

section
variable {hash : Bytes → Nat} {conf : SlotsMetaInfo} {s : RefState} {m : ModuleState}

/-- The static variables as the index has them. -/
def texts (p : Option Str × Option Str × Nat × Nat × CmdFlag) : Option Bytes × Option Bytes × Nat × Nat × CmdFlag :=
  (p.1.map Str.text, p.2.1.map Str.text, p.2.2)

theorem tracks_init : Tracks hash conf init .init where
  wf _ := DbSlotInfo.wf_init
  nodup := List.nodup_nil
  names _ _ := iff_of_false List.not_mem_nil (by
    rintro ⟨⟩)
  pair := rfl

theorem Tracks.slotsAdd (h : Tracks hash conf s m) (auto : Bool) (db : Nat) (key : Str) (draws : Nat) :
    Tracks hash conf (s.slotsAdd auto db key)
      { m with slots := RedisXSlot.slotsAdd hash conf m.slots db key.text draws } := by
  obtain ⟨hwf, hkeys⟩ := keys_slotsAdd h.wf db key.text draws
  have hpair := slotsAdd_pairState s auto db key
  have hnames : (s.slotsAdd auto db key).names.Nodup ∧
      ∀ name, name ∈ (s.slotsAdd auto db key).names ↔ name = (db, key.text) ∨ name ∈ s.names := by
    by_cases hmem : (db, key.text) ∈ s.names
    · rw [slotsAdd_of_mem auto hmem]
      exact ⟨h.nodup, fun name => ⟨.inr, fun hor => hor.elim (fun heq => heq ▸ hmem) id⟩⟩
    · obtain ⟨entries, nodes, heq, -, hnames, -⟩ := slotsAdd_spec auto hmem
      rw [heq]
      show (entries.map TableEntry.name).Nodup ∧ ∀ name, name ∈ entries.map TableEntry.name ↔ _
      rw [hnames]
      exact ⟨List.nodup_cons.mpr ⟨hmem, h.nodup⟩, fun name => List.mem_cons⟩
  refine ⟨hwf, hnames.1, fun i k => ?_, ?_⟩
  · rw [hnames.2, hkeys, h.names, Prod.mk.injEq]
  · exact h.pair.trans (congrArg texts hpair).symm

theorem Tracks.slotsDel (h : Tracks hash conf s m) (db : Nat) (key : Str) :
    Tracks hash conf (s.slotsDel db key) { m with slots := RedisXSlot.slotsDel hash conf m.slots db key.text } := by
  obtain ⟨hwf, hkeys⟩ := keys_slotsDel h.wf db key.text
  obtain ⟨entries, nodes, freed, heq, -, hnames, -⟩ := slotsDel_spec s db key
  have hnames : (s.slotsDel db key).names = s.names.erase (db, key.text) := heq ▸ hnames
  refine ⟨hwf, hnames ▸ h.nodup.erase _, fun i k => ?_, ?_⟩
  · rw [hnames, h.nodup.mem_erase_iff, hkeys, h.names, ne_eq, Prod.mk.injEq]
  · exact h.pair.trans (congrArg texts (slotsDel_pairState s db key)).symm

theorem Tracks.flush (h : Tracks hash conf s m) (start : Bool) (dbnum : Option Nat) :
    Tracks hash conf (s.flushdbCallback conf.databases start dbnum)
      { m with slots := RedisXSlot.flushdbCallback conf m.slots start dbnum } := by
  obtain ⟨hwf, hkeys⟩ := flushdbCallback_spec h.wf start dbnum
  have hflush (hit : Nat → Bool)
      (hhit : ∀ db, hit db = true ↔ start = true ∧ (dbnum = some db ∨ dbnum = none ∧ db < conf.databases)) :
      Tracks hash conf (s.flushDbs hit) { m with slots := RedisXSlot.flushdbCallback conf m.slots start dbnum } := by
    obtain ⟨entries, nodes, freed, heq, -, hnames, -⟩ := flushDbs_spec s hit
    have hnames : (s.flushDbs hit).names = s.names.filter fun name => !hit name.1 := heq ▸ hnames
    refine ⟨hwf, hnames ▸ h.nodup.filter _, fun db key => ?_, ?_⟩
    · rw [hnames, hkeys, List.mem_filter, h.names]
      split
      next hif => simp [(hhit db).mpr hif]
      next hif => simp [Bool.eq_false_iff.mpr fun htrue => hif ((hhit db).mp htrue)]
    · rw [heq]
      exact h.pair
  cases start with
  | false => exact h
  | true =>
    cases dbnum with
    | none => exact hflush (fun i => i < conf.databases) fun i => by simp
    | some db => exact hflush (fun i => i = db) fun i => by simp [eq_comm (a := i)]

theorem Tracks.moveKey (h : Tracks hash conf s m) (src dst : Nat) (from_key to_key : Option Str) (draws : Nat) :
    Tracks hash conf (s.moveKey src from_key dst to_key)
      (RedisXSlot.moveKey hash conf m src (from_key.map Str.text) dst (to_key.map Str.text) draws) := by
  cases from_key with
  | none => exact h
  | some from_key =>
    cases to_key with
    | none => exact h
    | some to_key => exact (h.slotsDel src from_key).slotsAdd true dst to_key draws

theorem Tracks.callbackReturn (h : Tracks hash conf s m) : Tracks hash conf s.callbackReturn m :=
  ⟨h.wf, h.nodup, h.names, h.pair⟩

theorem Tracks.releaseSources (h : Tracks hash conf s m) :
    Tracks hash conf s.releaseSources { m with from_key := none, to_key := none } := by
  have hpair := h.pair
  simp only [Prod.mk.injEq] at hpair
  obtain ⟨-, -, hrest⟩ := hpair
  unfold RefState.releaseSources
  cases hto' : s.to_key with
  | none =>
    dsimp only
    cases hfrom' : s.from_key with
    | none => exact ⟨h.wf, h.nodup, h.names, by simp [hfrom', hto', hrest]⟩
    | some from_key => exact ⟨h.wf, h.nodup, h.names, by simp [freeString, hto', hrest]⟩
  | some to_key =>
    dsimp only [freeString]
    cases hfrom' : s.from_key with
    | none => exact ⟨h.wf, h.nodup, h.names, by simp [hrest]⟩
    | some from_key => exact ⟨h.wf, h.nodup, h.names, by simp [hrest]⟩

theorem Tracks.endOfCallback (h : Tracks hash conf s m) (db : Nat) (key : EventKey) (draws : Nat) :
    Tracks hash conf
      (match s.cmd_flag with
        | .CMD_NONE => s.callbackReturn
        | .CMD_RENAME =>
          { (s.moveKey db s.from_key db s.to_key).releaseSources with cmd_flag := .CMD_NONE }.callbackReturn
        | .CMD_MOVE =>
          { s.moveKey s.from_dbid (some key.str) s.to_dbid (some key.str) with cmd_flag := .CMD_NONE }.callbackReturn)
      (match m.cmd_flag with
        | .CMD_NONE => m
        | .CMD_RENAME =>
          { RedisXSlot.moveKey hash conf m db m.from_key db m.to_key draws with
            from_key := none, to_key := none, cmd_flag := .CMD_NONE }
        | .CMD_MOVE =>
          { RedisXSlot.moveKey hash conf m m.from_dbid (some key.text) m.to_dbid (some key.text) draws with
            cmd_flag := .CMD_NONE }) := by
  have hpair := h.pair
  simp only [Prod.mk.injEq] at hpair
  obtain ⟨hfrom, hto, hfromdb, htodb, hflag⟩ := hpair
  have hreset {s : RefState} {m : ModuleState} (h : Tracks hash conf s m) :
      Tracks hash conf { s with cmd_flag := .CMD_NONE } { m with cmd_flag := .CMD_NONE } := by
    have hpair := h.pair
    simp only [Prod.mk.injEq] at hpair
    exact ⟨h.wf, h.nodup, h.names, by simp [hpair]⟩
  rw [hflag, hfrom, hto, hfromdb, htodb]
  cases s.cmd_flag with
  | CMD_NONE => exact h.callbackReturn
  | CMD_RENAME => exact (hreset (h.moveKey db db s.from_key s.to_key draws).releaseSources).callbackReturn
  | CMD_MOVE => exact (hreset (h.moveKey s.from_dbid s.to_dbid (some key.str) (some key.str) draws)).callbackReturn

theorem Tracks.generic (h : Tracks hash conf s m) (event : String) (db : Nat) (key : EventKey) (draws : Nat) :
    Tracks hash conf (s.notifyGenericCallback event db key)
      (RedisXSlot.notifyGenericCallback hash conf m ⟨.generic, event, db, key.text⟩ draws) := by
  have hpair := h.pair
  simp only [Prod.mk.injEq] at hpair
  unfold RefState.notifyGenericCallback RedisXSlot.notifyGenericCallback
  by_cases hdel : event = "del" ∨ event = "expired"
  · rw [if_pos hdel, if_pos hdel]
    exact (h.slotsDel db key.str).callbackReturn
  · rw [if_neg hdel, if_neg hdel]
    refine Tracks.endOfCallback ?_ db key draws
    dsimp only
    split_ifs
    next => exact ⟨h.wf, h.nodup, h.names, by simp [createStringFromString, EventKey.str, hpair]⟩
    next => exact ⟨h.wf, h.nodup, h.names, by simp [createStringFromString, EventKey.str, hpair]⟩
    next => exact ⟨h.wf, h.nodup, h.names, by simp [hpair]⟩
    next => exact ⟨h.wf, h.nodup, h.names, by simp [hpair]⟩
    next => exact h

/-- **Each callback does to the names what it does to the index.** -/
theorem Tracks.callback (h : Tracks hash conf s m) (c : Callback) (draws : Nat) :
    Tracks hash conf (s.callback conf.databases c) (m.handle hash conf (c.event draws)) := by
  cases c with
  | typeChange db key =>
    have hmask : NotifyType.string ∈ typeChangeMask := List.mem_cons_of_mem _ (List.mem_cons_of_mem _ List.mem_cons_self)
    rw [Callback.event, ModuleState.handle, notify_of_typeChange (e := ⟨.string, "set", db, key.text⟩) hmask]
    exact (h.slotsAdd false db key.str draws).callbackReturn
  | generic event db key =>
    rw [Callback.event, ModuleState.handle, notify_of_generic (e := ⟨.generic, event, db, key.text⟩) List.mem_cons_self]
    exact h.generic event db key draws
  | flush start dbnum => exact h.flush start dbnum

/-- **The names are the keys of the index** after every run. -/
theorem names_run (hash : Bytes → Nat) (conf : SlotsMetaInfo) (cs : List (Callback × Nat)) (db : Nat) (key : Bytes) :
    (db, key) ∈ (init.run conf.databases (cs.map Prod.fst)).names ↔
      key ∈ ((cs.map fun c => c.1.event c.2).foldl (ModuleState.handle hash conf) .init).slots.keys conf db := by
  suffices h : ∀ (s : RefState) (m : ModuleState), Tracks hash conf s m →
      Tracks hash conf (s.run conf.databases (cs.map Prod.fst))
        ((cs.map fun c => c.1.event c.2).foldl (ModuleState.handle hash conf) m) from
    (h init .init tracks_init).names db key
  induction cs with
  | nil => exact fun s m h => h
  | cons c cs ih => exact fun s m h => ih _ _ (h.callback c.1 c.2)

end
end RefState
end RedisXSlot
