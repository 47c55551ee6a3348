import RedisXSlot.Replay
import RedisXSlot.References

/-! What the index owns.

Each entry uses one reference to its key and one to its value, and each node of a skiplist
one to its member. The end of a pair of events makes the value in a context with automatic
memory, which takes its only reference away at the return (`owned_iff`), and adding a key
that is indexed gives back neither the key nor the value (`balanced_iff`). -/
namespace RedisXSlot
namespace RefState

/-- The references of some entries and nodes. -/
def usesOf (entries : List TableEntry) (nodes : List TagNode) : List StrId :=
  (entries.flatMap fun e => [e.key.id, e.val]) ++ nodes.map fun z => z.member.id

def uses (s : RefState) : List StrId := usesOf s.entries s.nodes

/-- The references of the static variables. -/
def statics (s : RefState) : List StrId := s.from_key.toList.map Str.id ++ s.to_key.toList.map Str.id

def names (s : RefState) : List (Nat × Bytes) := s.entries.map TableEntry.name
def nodeNames (s : RefState) : List (Nat × Bytes) := s.nodes.map TagNode.name

/-! ### What the operations do -/

section
variable {s : RefState} {db : Nat} {key : Str}

theorem dictAdd_of_mem (val : StrId) (h : (db, key.text) ∈ s.names) : s.dictAdd db key val = (s, false) := if_pos h

theorem dictAdd_of_not_mem (val : StrId) (h : (db, key.text) ∉ s.names) :
    s.dictAdd db key val = ({ s with entries := ⟨db, key, val⟩ :: s.entries }, true) := if_neg h

/-- Finding the key indexed, `Slots_Add` keeps what it took. -/
theorem slotsAdd_of_mem (auto : Bool) (h : (db, key.text) ∈ s.names) :
    s.slotsAdd auto db key = (s.createStringFromLongLong auto).1.takeAndRef key := by
  have hadd := dictAdd_of_mem (s := (s.createStringFromLongLong auto).1.takeAndRef key) (.value s.made) h
  rw [slotsAdd]
  dsimp only [createStringFromLongLong] at hadd ⊢
  rw [hadd]

theorem slotsAdd_of_not_mem (auto : Bool) (h : (db, key.text) ∉ s.names) :
    s.slotsAdd auto db key =
      let s' := (s.createStringFromLongLong auto).1.takeAndRef key
      let s' := { s' with entries := ⟨db, key, .value s.made⟩ :: s.entries }
      if hasTag key.text then { s'.takeAndRef key with nodes := ⟨db, key⟩ :: s.nodes } else s' := by
  have hadd := dictAdd_of_not_mem (s := (s.createStringFromLongLong auto).1.takeAndRef key) (.value s.made) h
  rw [slotsAdd]
  dsimp only [createStringFromLongLong] at hadd ⊢
  rw [hadd]
  rfl

theorem find_name {α : Type} {l : List α} {f : α → Nat × Bytes} {name : Nat × Bytes} :
    (l.find? (fun a => f a = name) = none ∧ name ∉ l.map f) ∨
      ∃ a, l.find? (fun a => f a = name) = some a ∧ name ∈ l.map f ∧ l.Perm (a :: l.eraseP fun a => f a = name) := by
  cases h : l.find? fun a => f a = name with
  | none =>
    left
    refine ⟨rfl, fun hmem => ?_⟩
    obtain ⟨a, ha, hname⟩ := List.mem_map.mp hmem
    exact absurd (decide_eq_true hname) (List.find?_eq_none.mp h a ha)
  | some a =>
    right
    refine ⟨a, rfl, ?_, ?_⟩
    · have hname : f a = name := of_decide_eq_true (List.find?_some (p := fun a => decide (f a = name)) h)
      exact hname ▸ List.mem_map_of_mem (List.mem_of_find?_eq_some h)
    · obtain ⟨hp, l₁, l₂, heq, hl₁⟩ := List.find?_eq_some_iff_append.mp h
      rw [heq, List.eraseP_append_right _ (by simpa using hl₁), List.eraseP_cons_of_pos (p := fun a => decide (f a = name)) hp]
      exact List.perm_middle

theorem map_eraseP_name {α : Type} (l : List α) (f : α → Nat × Bytes) (name : Nat × Bytes) :
    (l.eraseP fun a => f a = name).map f = (l.map f).erase name := by
  rw [List.erase_eq_eraseP', List.eraseP_map]
  congr 2
  funext a
  exact (beq_eq_decide (f a) name).symm

theorem usesOf_cons (e : TableEntry) (entries : List TableEntry) (nodes : List TagNode) :
    usesOf (e :: entries) nodes = e.key.id :: e.val :: usesOf entries nodes := rfl

theorem usesOf_perm {entries entries' : List TableEntry} {nodes nodes' : List TagNode} (he : entries.Perm entries')
    (hn : nodes.Perm nodes') : (usesOf entries nodes).Perm (usesOf entries' nodes') :=
  (he.flatMap_right _).append (hn.map _)

theorem usesOf_cons_node (entries : List TableEntry) (z : TagNode) (nodes : List TagNode) :
    (usesOf entries (z :: nodes)).Perm (z.member.id :: usesOf entries nodes) := List.perm_middle

/-- What the static variables hold. -/
def pairState (s : RefState) : Option Str × Option Str × Nat × Nat × CmdFlag :=
  (s.from_key, s.to_key, s.from_dbid, s.to_dbid, s.cmd_flag)

theorem slotsAdd_pairState (s : RefState) (auto : Bool) (db : Nat) (key : Str) :
    (s.slotsAdd auto db key).pairState = s.pairState := by
  by_cases h : (db, key.text) ∈ s.names
  · rw [slotsAdd_of_mem auto h]
    rfl
  · rw [slotsAdd_of_not_mem auto h]
    cases hasTag key.text <;> rfl

theorem releaseSources_eq {from_key to_key : Str} (hfrom : s.from_key = some from_key) (hto : s.to_key = some to_key) :
    s.releaseSources =
      { s with ledger := s.ledger.giveAll [to_key.id, from_key.id], from_key := none, to_key := none } := by
  simp only [releaseSources, hfrom, hto, freeString]
  rfl

/-- **`Slots_Del` frees what it unlinks.** -/
theorem slotsDel_spec (s : RefState) (db : Nat) (key : Str) : ∃ entries nodes freed,
    s.slotsDel db key = { s with ledger := s.ledger.giveAll freed, entries := entries, nodes := nodes } ∧
      s.uses.Perm (freed ++ usesOf entries nodes) ∧ entries.map TableEntry.name = s.names.erase (db, key.text) ∧
      nodes.map TagNode.name =
        (if (db, key.text) ∈ s.names ∧ hasTag key.text = true then s.nodeNames.erase (db, key.text) else s.nodeNames) ∧
      entries.Sublist s.entries ∧ nodes.Sublist s.nodes := by
  rw [slotsDel, dictDelete]
  rcases @find_name _ s.entries TableEntry.name (db, key.text) with ⟨hfind, hmem⟩ | ⟨e, hfind, hmem, hperm⟩
  · rw [hfind]
    refine ⟨s.entries, s.nodes, [], rfl, .refl _, (List.erase_of_not_mem hmem).symm, ?_, .refl _, .refl _⟩
    rw [if_neg fun h => hmem h.1]
    rfl
  · rw [hfind]
    have hentries := map_eraseP_name s.entries TableEntry.name (db, key.text)
    have huses := usesOf_perm hperm (List.Perm.refl s.nodes)
    cases htag : hasTag key.text with
    | false =>
      refine ⟨_, s.nodes, [e.key.id, e.val], rfl, huses, hentries, ?_, List.eraseP_sublist, .refl _⟩
      rw [if_neg fun h => Bool.false_ne_true h.2]
      rfl
    | true =>
      rw [if_pos ⟨hmem, rfl⟩]
      dsimp only
      rw [if_pos rfl, zslDelete]
      rcases @find_name _ s.nodes TagNode.name (db, key.text) with ⟨hfind', hmem'⟩ | ⟨z, hfind', -, hperm'⟩
      · simp only [freeString, hfind']
        exact ⟨_, s.nodes, [e.key.id, e.val], rfl, huses, hentries, (List.erase_of_not_mem hmem').symm,
          List.eraseP_sublist, .refl _⟩
      · simp only [freeString, hfind']
        refine ⟨_, _, [e.key.id, e.val, z.member.id], rfl, ?_, hentries, map_eraseP_name s.nodes TagNode.name _,
          List.eraseP_sublist, List.eraseP_sublist⟩
        refine (usesOf_perm hperm hperm').trans ?_
        exact ((usesOf_cons_node _ z _).cons _).cons _

/-- The references to a new key: one for its entry, and one for its node if it is tagged. -/
def links (key : Str) : List StrId := key.id :: if hasTag key.text then [key.id] else []

theorem eq_of_mem_links {r : StrId} (h : r ∈ links key) : r = key.id := by
  rw [links] at h
  split at h <;> simpa using h

/-- **`Slots_Add` takes what it links**, if the key is new. -/
theorem slotsAdd_spec (auto : Bool) (h : (db, key.text) ∉ s.names) : ∃ entries nodes,
    s.slotsAdd auto db key = { (s.createStringFromLongLong auto).1 with
      ledger := s.ledger.takeAll (.value s.made :: links key), entries := entries, nodes := nodes } ∧
      (usesOf entries nodes).Perm (.value s.made :: links key ++ s.uses) ∧ entries.map TableEntry.name = (db, key.text) :: s.names ∧
      nodes.map TagNode.name = (if hasTag key.text = true then (db, key.text) :: s.nodeNames else s.nodeNames) ∧
      (∀ e ∈ entries, e = ⟨db, key, .value s.made⟩ ∨ e ∈ s.entries) ∧ ∀ z ∈ nodes, z = ⟨db, key⟩ ∨ z ∈ s.nodes := by
  rw [slotsAdd_of_not_mem auto h, links]
  cases hasTag key.text with
  | false =>
    exact ⟨⟨db, key, .value s.made⟩ :: s.entries, s.nodes, rfl, .swap .., rfl, rfl, fun _ => List.mem_cons.mp,
      fun _ => .inr⟩
  | true =>
    refine ⟨⟨db, key, .value s.made⟩ :: s.entries, ⟨db, key⟩ :: s.nodes, rfl, ?_, rfl, rfl, fun _ => List.mem_cons.mp,
      fun _ => List.mem_cons.mp⟩
    refine (usesOf_cons_node _ _ _).trans ?_
    exact (List.Perm.swap _ _ _).trans ((List.Perm.swap ..).symm.cons _ |>.trans (.swap ..))

theorem slotsDel_pairState (s : RefState) (db : Nat) (key : Str) : (s.slotsDel db key).pairState = s.pairState := by
  obtain ⟨entries, nodes, freed, heq, -⟩ := slotsDel_spec s db key
  rw [heq]
  rfl

/-- **A flush frees what it unlinks.** -/
theorem flushDbs_spec (s : RefState) (hit : Nat → Bool) : ∃ entries nodes freed,
    s.flushDbs hit = { s with ledger := s.ledger.giveAll freed, entries := entries, nodes := nodes } ∧
      s.uses.Perm (freed ++ usesOf entries nodes) ∧ entries.map TableEntry.name = s.names.filter (fun name => !hit name.1) ∧
      nodes.map TagNode.name = s.nodeNames.filter (fun name => !hit name.1) ∧
      entries.Sublist s.entries ∧ nodes.Sublist s.nodes := by
  refine ⟨s.entries.filter fun e => !hit e.db, s.nodes.filter fun z => !hit z.db,
    usesOf (s.entries.filter fun e => hit e.db) (s.nodes.filter fun z => hit z.db), ?_, ?_, ?_, ?_,
    List.filter_sublist, List.filter_sublist⟩
  · rw [flushDbs, Ledger.giveAll_append]
    rfl
  · have he := (List.filter_append_perm (fun e : TableEntry => hit e.db) s.entries).symm
    have hn := (List.filter_append_perm (fun z : TagNode => hit z.db) s.nodes).symm
    refine (usesOf_perm he hn).trans ?_
    rw [usesOf, usesOf, List.flatMap_append, List.map_append, List.append_assoc, List.append_assoc]
    refine List.Perm.append_left _ ?_
    rw [← List.append_assoc, usesOf, ← List.append_assoc]
    exact List.perm_append_comm.append_right _
  · rw [names, List.filter_map]
    rfl
  · rw [nodeNames, List.filter_map]
    rfl

theorem callbackReturn_eq (h : s.autoMemory = []) : s.callbackReturn = s := by
  rw [callbackReturn, h]
  cases s
  cases h
  rfl

/-! ### Every reference covered -/

/-- Each entry and each node has references of its own to the strings it points to, and none
has been given back that was not held. -/
def Owned (s : RefState) : Prop := s.ledger.Covers s.uses

/-- What else holds of a module that owns its strings, at any time in a callback but the end of
a pair. -/
structure Kept (s : RefState) : Prop where
  covers : s.ledger.Covers (s.uses ++ s.statics)
  made : ∀ n, .value n ∈ s.ledger.held → n < s.made
  returned : s.autoMemory = []
  nodup : s.names.Nodup

theorem Kept.owned (h : s.Kept) : s.Owned :=
  h.covers.mono fun r => by
    rw [List.count_append]
    exact Nat.le_add_right ..

theorem kept_init : init.Kept where
  covers := Ledger.covers_init
  made _ h := absurd h (by simp [init, Ledger.init])
  returned := rfl
  nodup := List.nodup_nil

/-- Unlinking with giving back keeps the references covered. -/
theorem Kept.unlink (h : s.Kept) {entries : List TableEntry} {nodes : List TagNode} {freed : List StrId}
    (huses : s.uses.Perm (freed ++ usesOf entries nodes)) (hnodup : (entries.map TableEntry.name).Nodup) :
    Kept { s with ledger := s.ledger.giveAll freed, entries := entries, nodes := nodes } where
  covers := Ledger.Covers.giveAll (h.covers.of_perm (by
    rw [← List.append_assoc]
    exact (huses.append_right s.statics).symm))
  made n hn := h.made n (Ledger.mem_of_mem_giveAll hn)
  returned := h.returned
  nodup := hnodup

theorem Kept.slotsDel (h : s.Kept) (db : Nat) (key : Str) :
    (s.slotsDel db key).Kept ∧ (s.slotsDel db key).names = s.names.erase (db, key.text) := by
  obtain ⟨entries, nodes, freed, heq, huses, hnames, -⟩ := slotsDel_spec s db key
  rw [heq]
  exact ⟨h.unlink huses (hnames ▸ h.nodup.erase _), hnames⟩

theorem Kept.flushdbCallback (h : s.Kept) (databases : Nat) (start : Bool) (dbnum : Option Nat) :
    (s.flushdbCallback databases start dbnum).Kept := by
  have hflush (hit : Nat → Bool) : (s.flushDbs hit).Kept := by
    obtain ⟨entries, nodes, freed, heq, huses, hnames, -⟩ := flushDbs_spec s hit
    rw [heq]
    exact h.unlink huses (hnames ▸ h.nodup.filter _)
  unfold RefState.flushdbCallback
  split
  next => exact h
  next => split <;> exact hflush _

/-- What `Slots_Add` takes is not older than the value it makes. -/
theorem Kept.lt_of_takeAll (h : s.Kept) (hkey : ∀ n, key.id ≠ .value n) {taken : List StrId}
    (htaken : ∀ r ∈ taken, r = key.id) {n : Nat} (hn : .value n ∈ (s.ledger.takeAll (.value s.made :: taken)).held) :
    n < s.made + 1 := by
  rcases List.mem_append.mp ((Ledger.held_takeAll s.ledger _).mem_iff.mp hn) with hmem | hmem
  · rcases List.mem_cons.mp hmem with heq | hmem
    · exact (StrId.value.inj heq).trans_lt (Nat.lt_succ_self _)
    · exact absurd (htaken _ hmem).symm (hkey n)
  · exact Nat.lt_succ_of_lt (h.made n hmem)

/-- Outside automatic memory `Slots_Add` keeps the references covered. -/
theorem Kept.slotsAdd (h : s.Kept) (db : Nat) (key : EventKey) : (s.slotsAdd false db key.str).Kept := by
  have hkey (n : Nat) : key.str.id ≠ .value n := nofun
  by_cases hmem : (db, key.str.text) ∈ s.names
  · rw [slotsAdd_of_mem false hmem]
    exact ⟨(h.covers.take_spare _).take_spare _,
      fun _ hn => h.lt_of_takeAll hkey (fun _ => List.mem_singleton.mp) hn, h.returned, h.nodup⟩
  · obtain ⟨entries, nodes, heq, huses, hnames, -⟩ := slotsAdd_spec false hmem
    rw [heq]
    refine ⟨(h.covers.takeAll _).of_perm ?_, fun _ hn => h.lt_of_takeAll hkey (fun _ => eq_of_mem_links) hn,
      h.returned, ?_⟩
    · rw [← List.append_assoc]
      exact huses.append_right s.statics
    · show (entries.map TableEntry.name).Nodup
      exact hnames ▸ List.nodup_cons.mpr ⟨hmem, h.nodup⟩

/-- In automatic memory `Slots_Add` keeps the references covered if the key is indexed, and if not
leaves the value with the only reference that the return of the callback takes away. -/
theorem Kept.slotsAdd_autoMemory (h : s.Kept) (db : Nat) (key : Str) (hkey : ∀ n, key.id ≠ .value n) :
    ∃ ledger entries nodes, s.slotsAdd true db key = { s with
        ledger := ledger, made := s.made + 1, autoMemory := [.value s.made], entries := entries, nodes := nodes } ∧
      (entries.map TableEntry.name).Nodup ∧ (∀ n, .value n ∈ ledger.held → n < s.made + 1) ∧
      if (db, key.text) ∈ s.names then ledger.Covers (.value s.made :: (usesOf entries nodes ++ s.statics))
      else .value s.made ∈ usesOf entries nodes ∧ ledger.held.count (.value s.made) ≤ 1 := by
  by_cases hmem : (db, key.text) ∈ s.names
  · refine ⟨s.ledger.takeAll [.value s.made, key.id], s.entries, s.nodes, ?_, h.nodup, ?_, ?_⟩
    · rw [slotsAdd_of_mem true hmem, createStringFromLongLong, h.returned]
      rfl
    · exact fun _ hn => h.lt_of_takeAll hkey (fun _ => List.mem_singleton.mp) hn
    · rw [if_pos hmem]
      exact (h.covers.take (.value s.made)).take_spare key.id
  · obtain ⟨entries, nodes, heq, huses, hnames, -⟩ := slotsAdd_spec true hmem
    refine ⟨_, entries, nodes, by rw [heq, createStringFromLongLong, h.returned]; rfl, ?_, ?_, ?_⟩
    · exact hnames ▸ List.nodup_cons.mpr ⟨hmem, h.nodup⟩
    · exact fun _ hn => h.lt_of_takeAll hkey (fun _ => eq_of_mem_links) hn
    · rw [if_neg hmem]
      refine ⟨huses.mem_iff.mpr List.mem_cons_self, ?_⟩
      have hold : s.ledger.held.count (.value s.made) = 0 :=
        List.count_eq_zero_of_not_mem fun hin => Nat.lt_irrefl _ (h.made _ hin)
      have hlinks : (links key).count (.value s.made) = 0 :=
        List.count_eq_zero_of_not_mem fun hin => hkey _ (eq_of_mem_links hin).symm
      rw [(Ledger.held_takeAll s.ledger _).count_eq, List.count_append, hold, List.count_cons_self, hlinks]

/-- Between callbacks no pair is being handled. -/
structure Idle (s : RefState) : Prop extends Kept s where
  flag : s.cmd_flag = .CMD_NONE

theorem idle_init : init.Idle := ⟨kept_init, rfl⟩

/-! ### Callbacks -/

theorem notify_removed (expired : Bool) (db : Nat) (key : EventKey) :
    s.notifyGenericCallback (if expired then "expired" else "del") db key = (s.slotsDel db key.str).callbackReturn := by
  cases expired <;> exact if_pos (by decide)

theorem notify_rename_from (hflag : s.cmd_flag = .CMD_NONE) (db : Nat) (key : EventKey) :
    s.notifyGenericCallback "rename_from" db key =
      { (s.createStringFromString key.str).1 with from_key := some ⟨.copy s.made, key.text⟩ }.callbackReturn := by
  simp [notifyGenericCallback, createStringFromString, hflag, EventKey.str]

theorem notify_rename_to (db : Nat) (newkey : EventKey) {from_key : Str} (hfrom : s.from_key = some from_key) :
    s.notifyGenericCallback "rename_to" db newkey =
      let to_key := ⟨.copy s.made, newkey.text⟩
      let s := { (s.createStringFromString newkey.str).1 with to_key := some to_key, cmd_flag := .CMD_RENAME }
      { ((s.slotsDel db from_key).slotsAdd true db to_key).releaseSources with cmd_flag := .CMD_NONE }.callbackReturn := by
  simp [notifyGenericCallback, createStringFromString, hfrom, EventKey.str, moveKey]

theorem notify_move_from (hflag : s.cmd_flag = .CMD_NONE) (db : Nat) (key : EventKey) :
    s.notifyGenericCallback "move_from" db key = { s with from_dbid := db }.callbackReturn := by
  simp [notifyGenericCallback, hflag]

theorem notify_move_to (db : Nat) (key : EventKey) :
    s.notifyGenericCallback "move_to" db key =
      let src := s.from_dbid
      let s := { s with to_dbid := db, cmd_flag := .CMD_MOVE }
      { (s.slotsDel src key.str).slotsAdd true db key.str with cmd_flag := .CMD_NONE }.callbackReturn := by
  simp [notifyGenericCallback, moveKey]

/-- Copying a name keeps the references covered, if the copy is kept. -/
theorem Kept.createStringFromString (h : s.Kept) :
    (s.ledger.take (.copy s.made)).Covers (.copy s.made :: (s.uses ++ s.statics)) ∧
      ∀ n, .value n ∈ (s.ledger.take (.copy s.made)).held → n < s.made + 1 := by
  refine ⟨h.covers.take _, fun n hn => ?_⟩
  rcases List.mem_cons.mp hn with heq | hmem
  · cases heq
  · exact Nat.lt_succ_of_lt (h.made n hmem)

/-- **The end of a pair**: the references stay covered if the new name is indexed, the old one
being gone; otherwise the new entry's value is gone. -/
theorem Kept.endOfPair (h : s.Kept) (db : Nat) (key : Str) (hkey : ∀ n, key.id ≠ .value n) (freed : List StrId)
    (from_key to_key : Option Str)
    (hfreed : s.statics.Perm (freed ++ (from_key.toList.map Str.id ++ to_key.toList.map Str.id))) :
    let s' := s.slotsAdd true db key
    let s' := callbackReturn
      { s' with ledger := s'.ledger.giveAll freed, from_key := from_key, to_key := to_key, cmd_flag := .CMD_NONE }
    if (db, key.text) ∈ s.names then s'.Idle else ¬ s'.Owned := by
  obtain ⟨ledger, entries, nodes, heq, hnodup, hmade, hif⟩ := h.slotsAdd_autoMemory db key hkey
  rw [heq]
  by_cases hmem : (db, key.text) ∈ s.names
  · rw [if_pos hmem] at hif ⊢
    have hcovers : ((ledger.giveAll freed).giveAll [.value s.made]).Covers
        (usesOf entries nodes ++ (from_key.toList.map Str.id ++ to_key.toList.map Str.id)) := by
      refine Ledger.Covers.giveAll (Ledger.Covers.giveAll (hif.of_perm ?_))
      have hlast : (freed ++ ([StrId.value s.made] ++ (usesOf entries nodes ++ (from_key.toList.map Str.id ++
          to_key.toList.map Str.id)))).Perm (.value s.made :: (freed ++ (usesOf entries nodes ++
          (from_key.toList.map Str.id ++ to_key.toList.map Str.id)))) := List.perm_middle
      refine hlast.trans (.cons _ ((List.perm_append_comm_assoc ..).trans ?_))
      exact hfreed.symm.append_left _
    exact ⟨⟨hcovers, fun n hn => hmade n (Ledger.mem_of_mem_giveAll (Ledger.mem_of_mem_giveAll hn)), rfl, hnodup⟩, rfl⟩
  · rw [if_neg hmem] at hif ⊢
    exact Ledger.not_covers_give hif.1 ((Ledger.count_giveAll_le ledger freed _).trans hif.2)

theorem Idle.moved (h : s.Idle) (src dst : Nat) (key : EventKey) :
    (s.notifyGenericCallback "move_from" src key).Idle ∧
      let s' := (s.notifyGenericCallback "move_from" src key).notifyGenericCallback "move_to" dst key
      if (dst, key.text) ∈ s.names.erase (src, key.text) then s'.Idle else ¬ s'.Owned := by
  have hfrom : s.notifyGenericCallback "move_from" src key = { s with from_dbid := src } := by
    rw [notify_move_from h.flag, callbackReturn_eq]
    exact h.returned
  have hkept : Kept { s with from_dbid := src, to_dbid := dst, cmd_flag := .CMD_MOVE } :=
    ⟨h.covers, h.made, h.returned, h.nodup⟩
  obtain ⟨hdel, hnames⟩ := hkept.slotsDel src key.str
  rw [hfrom]
  refine ⟨⟨⟨h.covers, h.made, h.returned, h.nodup⟩, h.flag⟩, ?_⟩
  rw [notify_move_to]
  dsimp only
  generalize slotsDel { s with from_dbid := src, to_dbid := dst, cmd_flag := .CMD_MOVE } src key.str = t at hdel hnames
  have hf : (t.slotsAdd true dst key.str).from_key = t.from_key := congrArg Prod.fst (slotsAdd_pairState t ..)
  have ht : (t.slotsAdd true dst key.str).to_key = t.to_key := congrArg (·.2.1) (slotsAdd_pairState t ..)
  have hend := hdel.endOfPair dst key.str nofun [] t.from_key t.to_key (.refl _)
  rw [hnames, ← hf, ← ht] at hend
  exact hend

theorem Idle.renamed (h : s.Idle) (db : Nat) (key newkey : EventKey) :
    (s.notifyGenericCallback "rename_from" db key).Idle ∧
      let s' := (s.notifyGenericCallback "rename_from" db key).notifyGenericCallback "rename_to" db newkey
      if (db, newkey.text) ∈ s.names.erase (db, key.text) then s'.Idle else ¬ s'.Owned := by
  have hfrom : s.notifyGenericCallback "rename_from" db key =
      { (s.createStringFromString key.str).1 with from_key := some ⟨.copy s.made, key.text⟩ } := by
    rw [notify_rename_from h.flag, callbackReturn_eq]
    exact h.returned
  have hkept₁ : Kept { (s.createStringFromString key.str).1 with from_key := some ⟨.copy s.made, key.text⟩ } := by
    obtain ⟨hcov, hmade⟩ := h.createStringFromString
    refine ⟨hcov.mono fun r => ?_, hmade, h.returned, h.nodup⟩
    simp only [uses, statics, createStringFromString, Option.toList_some, List.map_singleton, List.count_append,
      List.count_cons, List.count_nil]
    omega
  rw [hfrom]
  refine ⟨⟨hkept₁, h.flag⟩, ?_⟩
  generalize hs₁ : ({ (s.createStringFromString key.str).1 with from_key := some ⟨.copy s.made, key.text⟩ } : RefState) = s₁
    at hkept₁
  have hfrom₁ : s₁.from_key = some ⟨.copy s.made, key.text⟩ := hs₁ ▸ rfl
  have hnames₁ : s₁.names = s.names := hs₁ ▸ rfl
  rw [notify_rename_to db newkey hfrom₁]
  dsimp only
  have hkept₂ : Kept { (s₁.createStringFromString newkey.str).1 with
      to_key := some ⟨.copy s₁.made, newkey.text⟩, cmd_flag := .CMD_RENAME } := by
    obtain ⟨hcov, hmade⟩ := hkept₁.createStringFromString
    refine ⟨hcov.mono fun r => ?_, hmade, hkept₁.returned, hkept₁.nodup⟩
    simp only [uses, statics, createStringFromString, Option.toList_some, List.map_singleton, List.count_append,
      List.count_cons, List.count_nil]
    omega
  obtain ⟨hdel, hnames⟩ := hkept₂.slotsDel db ⟨.copy s.made, key.text⟩
  have hdpair := slotsDel_pairState { (s₁.createStringFromString newkey.str).1 with
    to_key := some ⟨.copy s₁.made, newkey.text⟩, cmd_flag := .CMD_RENAME } db ⟨.copy s.made, key.text⟩
  generalize slotsDel { (s₁.createStringFromString newkey.str).1 with
    to_key := some ⟨.copy s₁.made, newkey.text⟩, cmd_flag := .CMD_RENAME } db ⟨.copy s.made, key.text⟩ = t at hdel hnames hdpair
  have hpair := slotsAdd_pairState t true db ⟨.copy s₁.made, newkey.text⟩
  have hdf : t.from_key = some ⟨.copy s.made, key.text⟩ := (congrArg Prod.fst hdpair).trans hfrom₁
  have hdt : t.to_key = some ⟨.copy s₁.made, newkey.text⟩ := congrArg (·.2.1) hdpair
  have hend := hdel.endOfPair db ⟨.copy s₁.made, newkey.text⟩ nofun [.copy s₁.made, .copy s.made] none none (by
    rw [statics, hdf, hdt]
    exact .swap ..)
  have hrel := releaseSources_eq ((congrArg Prod.fst hpair).trans hdf) ((congrArg (·.2.1) hpair).trans hdt)
  rw [hnames] at hend
  rw [hrel, ← hnames₁]
  exact hend

theorem Idle.typeChange (h : s.Idle) (db : Nat) (key : EventKey) : (s.notifyTypeChangeCallback db key).Idle := by
  have hkept := h.slotsAdd db key
  rw [notifyTypeChangeCallback, callbackReturn_eq hkept.returned]
  refine ⟨hkept, ?_⟩
  by_cases hmem : (db, key.str.text) ∈ s.names
  · rw [slotsAdd_of_mem false hmem]
    exact h.flag
  · rw [slotsAdd_of_not_mem false hmem]
    cases hasTag key.str.text <;> exact h.flag

theorem Idle.removed (h : s.Idle) (expired : Bool) (db : Nat) (key : EventKey) :
    (s.notifyGenericCallback (if expired then "expired" else "del") db key).Idle := by
  have hkept := (h.slotsDel db key.str).1
  obtain ⟨entries, nodes, freed, heq, -⟩ := slotsDel_spec s db key.str
  rw [notify_removed, callbackReturn_eq hkept.returned]
  refine ⟨hkept, ?_⟩
  rw [heq]
  exact h.flag

theorem Idle.flush (h : s.Idle) (databases : Nat) (start : Bool) (dbnum : Option Nat) :
    (s.flushdbCallback databases start dbnum).Idle := by
  refine ⟨h.flushdbCallback databases start dbnum, ?_⟩
  unfold flushdbCallback
  split
  next => exact h.flag
  next => split <;> exact h.flag

/-! ### Runs -/

def run (databases : Nat) (s : RefState) (cs : List Callback) : RefState := cs.foldl (callback databases) s

/-- Now and after each of the callbacks. -/
def Always (databases : Nat) (P : RefState → Prop) (s : RefState) : List Callback → Prop
  | [] => P s
  | c :: cs => P s ∧ Always databases P (s.callback databases c) cs

/-- A pair of events makes a new entry: when the old name is gone, the new one is not indexed. -/
def addsInPair (s : RefState) : Report → Bool
  | .renamed db key newkey => (db, newkey.text) ∉ s.names.erase (db, key.text)
  | .moved src dst key => (dst, key.text) ∉ s.names.erase (src, key.text)
  | _ => false

/-- No pair of the reports makes a new entry. -/
def noPairAdds (databases : Nat) (s : RefState) : List Report → Bool
  | [] => true
  | r :: rs => !s.addsInPair r && noPairAdds databases (s.run databases r.callbacks) rs

section
variable {databases : Nat} {P : RefState → Prop}

theorem Always.now {cs : List Callback} (h : s.Always databases P cs) : P s := by
  cases cs with
  | nil => exact h
  | cons c cs => exact h.1

theorem always_append (cs cs' : List Callback) :
    s.Always databases P (cs ++ cs') ↔ s.Always databases P cs ∧ (s.run databases cs).Always databases P cs' := by
  induction cs generalizing s with
  | nil => exact ⟨fun h => ⟨h.now, h⟩, And.right⟩
  | cons c cs ih => exact (and_congr_right fun _ => ih).trans and_assoc.symm

end

/-- **A report keeps every string owned exactly if it makes no entry in a pair.** -/
theorem Idle.report (h : s.Idle) (databases : Nat) (r : Report) :
    if s.addsInPair r then ¬ s.Always databases Owned r.callbacks
    else s.Always databases Owned r.callbacks ∧ (s.run databases r.callbacks).Idle := by
  cases r with
  | changed db key => exact ⟨⟨h.owned, (h.typeChange db key).owned⟩, h.typeChange db key⟩
  | removed expired db key => exact ⟨⟨h.owned, (h.removed expired db key).owned⟩, h.removed expired db key⟩
  | flushed start dbnum =>
    exact ⟨⟨h.owned, (h.flush databases start dbnum).owned⟩, h.flush databases start dbnum⟩
  | renamed db key newkey =>
    obtain ⟨hfirst, hsecond⟩ := h.renamed db key newkey
    by_cases hmem : (db, newkey.text) ∈ s.names.erase (db, key.text)
    · rw [if_pos hmem] at hsecond
      rw [addsInPair, if_neg (by simpa using hmem)]
      exact ⟨⟨h.owned, hfirst.owned, hsecond.owned⟩, hsecond⟩
    · rw [if_neg hmem] at hsecond
      rw [addsInPair, if_pos (by simpa using hmem)]
      exact fun halways => hsecond halways.2.2
  | moved src dst key =>
    obtain ⟨hfirst, hsecond⟩ := h.moved src dst key
    by_cases hmem : (dst, key.text) ∈ s.names.erase (src, key.text)
    · rw [if_pos hmem] at hsecond
      rw [addsInPair, if_neg (by simpa using hmem)]
      exact ⟨⟨h.owned, hfirst.owned, hsecond.owned⟩, hsecond⟩
    · rw [if_neg hmem] at hsecond
      rw [addsInPair, if_pos (by simpa using hmem)]
      exact fun halways => hsecond halways.2.2

theorem Idle.reports (h : s.Idle) (databases : Nat) (rs : List Report) :
    s.Always databases Owned (rs.flatMap Report.callbacks) ↔ s.noPairAdds databases rs = true := by
  induction rs generalizing s with
  | nil => exact iff_of_true h.owned rfl
  | cons r rs ih =>
    have hr := h.report databases r
    rw [List.flatMap_cons, always_append, noPairAdds, Bool.and_eq_true, Bool.not_eq_true']
    cases hadds : s.addsInPair r with
    | true =>
      rw [hadds, if_pos rfl] at hr
      exact iff_of_false (fun h => hr h.1) (fun h => Bool.true_eq_false_eq_False h.1)
    | false =>
      rw [hadds, if_neg Bool.false_ne_true] at hr
      rw [ih hr.2, and_iff_right hr.1, and_iff_right rfl]

end

/-- **When the index owns its strings**: at every point between callbacks each entry and each node
has a reference of its own to what it points to, and nothing is given back that is not held,
if and only if no pair of events makes a new entry. -/
theorem owned_iff (databases : Nat) (rs : List Report) :
    init.Always databases Owned (rs.flatMap Report.callbacks) ↔ init.noPairAdds databases rs = true :=
  idle_init.reports databases rs

/-- The value of a renamed key is gone at once, and freed again with the key. -/
theorem not_owned :
    ¬ init.Always 16 Owned ([.changed 0 ⟨0, [97]⟩, .renamed 0 ⟨1, [97]⟩ ⟨2, [98]⟩].flatMap Report.callbacks) ∧
      (init.run 16 ([.changed 0 ⟨0, [97]⟩, .renamed 0 ⟨1, [97]⟩ ⟨2, [98]⟩, .removed false 0 ⟨3, [98]⟩].flatMap
        Report.callbacks)).ledger.fault = true := by
  refine ⟨fun h => ?_, by decide +kernel⟩
  exact absurd (h.2.2.2.le (.value 3)) (by decide +kernel)

end RefState
end RedisXSlot
