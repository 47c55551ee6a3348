import RedisXSlot.Ownership

/-! Whether what is taken is given back.

As long as no key is reported changed that is indexed, the references that the module has
are those of the entries and the nodes, no more and no fewer (`balanced_iff`). -/
namespace RedisXSlot

def StrId.isServer : StrId → Bool
  | .server _ => true
  | _ => false

def StrId.isValue : StrId → Bool
  | .value _ => true
  | _ => false

def Report.isPair : Report → Bool
  | .renamed .. | .moved .. => true
  | _ => false

namespace RefState

/-- As many references to keys have been taken and not released as there are entries and nodes, and
as many values have been made and not released as there are entries; without entries none
is left. -/
structure Balanced (s : RefState) : Prop where
  keys : s.ledger.held.countP StrId.isServer = s.entries.length + s.nodes.length
  values : s.ledger.held.countP StrId.isValue = s.entries.length
  none : s.entries = [] → s.ledger.held = []

/-- The references are those of the entries and the nodes, and the nodes are those of the tagged keys. -/
structure Even (s : RefState) : Prop where
  exact : s.ledger.Exact s.uses
  entries : ∀ e ∈ s.entries, e.key.id.isServer = true ∧ e.val.isValue = true
  nodes : ∀ z ∈ s.nodes, z.member.id.isServer = true
  tagged : s.nodeNames.Perm (s.names.filter fun name => hasTag name.2)
  returned : s.autoMemory = []

section
variable {s : RefState}

theorem even_init : init.Even := ⟨Ledger.exact_init, nofun, nofun, .refl _, rfl⟩

theorem countP_usesOf {entries : List TableEntry} {nodes : List TagNode}
    (hentries : ∀ e ∈ entries, e.key.id.isServer = true ∧ e.val.isValue = true)
    (hnodes : ∀ z ∈ nodes, z.member.id.isServer = true) :
    (usesOf entries nodes).countP StrId.isServer = entries.length + nodes.length ∧
      (usesOf entries nodes).countP StrId.isValue = entries.length := by
  have hexcl {id : StrId} : (id.isServer = true → id.isValue = false) ∧ (id.isValue = true → id.isServer = false) := by
    cases id <;> simp [StrId.isServer, StrId.isValue]
  induction entries with
  | nil =>
    constructor
    · rw [usesOf, List.flatMap_nil, List.nil_append, List.countP_map, List.length_nil, Nat.zero_add,
        List.countP_eq_length]
      exact hnodes
    · rw [usesOf, List.flatMap_nil, List.nil_append, List.countP_map, List.length_nil, List.countP_eq_zero]
      intro z hz
      simp [hexcl.1 (hnodes z hz)]
  | cons e entries ih =>
    obtain ⟨hkey, hval⟩ := hentries e List.mem_cons_self
    obtain ⟨h1, h2⟩ := ih fun e he => hentries e (List.mem_cons_of_mem _ he)
    rw [usesOf_cons, List.length_cons]
    constructor
    · rw [List.countP_cons_of_pos hkey, List.countP_cons_of_neg (by simp [hexcl.2 hval]), h1]
      omega
    · rw [List.countP_cons_of_neg (by simp [hexcl.1 hkey]), List.countP_cons_of_pos hval, h2]

theorem Even.balanced (h : s.Even) : s.Balanced := by
  obtain ⟨hkeys, hvalues⟩ := countP_usesOf h.entries h.nodes
  refine ⟨(h.exact.perm.countP_eq _).trans hkeys, (h.exact.perm.countP_eq _).trans hvalues, fun hnil => ?_⟩
  have hnodes : s.nodes = [] := by
    have hperm := h.tagged
    rw [names, hnil] at hperm
    exact List.map_eq_nil_iff.mp hperm.eq_nil
  have hperm := h.exact.perm
  rw [uses, hnil, hnodes] at hperm
  exact hperm.eq_nil

/-- Unlinking with giving back keeps the balance. -/
theorem Even.unlink (h : s.Even) {entries : List TableEntry} {nodes : List TagNode} {freed : List StrId}
    (huses : s.uses.Perm (freed ++ usesOf entries nodes)) (he : entries.Sublist s.entries) (hn : nodes.Sublist s.nodes)
    (htagged : (nodes.map TagNode.name).Perm ((entries.map TableEntry.name).filter fun name => hasTag name.2)) :
    Even { s with ledger := s.ledger.giveAll freed, entries := entries, nodes := nodes } where
  exact := Ledger.Exact.giveAll (h.exact.of_perm huses.symm)
  entries e hmem := h.entries e (he.subset hmem)
  nodes z hmem := h.nodes z (hn.subset hmem)
  tagged := htagged
  returned := h.returned

theorem Even.slotsDel (h : s.Even) (db : Nat) (key : Str) : (s.slotsDel db key).Even := by
  obtain ⟨entries, nodes, freed, heq, huses, hnames, hnodes, he, hn⟩ := slotsDel_spec s db key
  rw [heq]
  refine h.unlink huses he hn ?_
  rw [hnames, hnodes, ← List.erase_filter]
  by_cases hmem : (db, key.text) ∈ s.names ∧ hasTag key.text = true
  · rw [if_pos hmem]
    exact h.tagged.erase _
  · rw [if_neg hmem, List.erase_of_not_mem]
    · exact h.tagged
    · exact fun hin => hmem (List.mem_filter.mp hin)

theorem Even.flush (h : s.Even) (databases : Nat) (start : Bool) (dbnum : Option Nat) :
    (s.flushdbCallback databases start dbnum).Even := by
  have hflush (hit : Nat → Bool) : (s.flushDbs hit).Even := by
    obtain ⟨entries, nodes, freed, heq, huses, hnames, hnodes, he, hn⟩ := flushDbs_spec s hit
    rw [heq]
    refine h.unlink huses he hn ?_
    rw [hnames, hnodes, List.filter_comm]
    exact h.tagged.filter _
  unfold flushdbCallback
  split
  next => exact h
  next => split <;> exact hflush _

theorem Even.slotsAdd (h : s.Even) {db : Nat} {key : EventKey} (hmem : (db, key.text) ∉ s.names) :
    (s.slotsAdd false db key.str).Even := by
  obtain ⟨entries, nodes, heq, huses, hnames, hnodes, he, hn⟩ := @slotsAdd_spec s db key.str false hmem
  rw [heq]
  refine ⟨(h.exact.takeAll _).of_perm huses, fun e hin => ?_, fun z hin => ?_, ?_, h.returned⟩
  · rcases he e hin with rfl | hin
    · exact ⟨rfl, rfl⟩
    · exact h.entries e hin
  · rcases hn z hin with rfl | hin
    · rfl
    · exact h.nodes z hin
  · show (nodes.map TagNode.name).Perm ((entries.map TableEntry.name).filter fun name => hasTag name.2)
    rw [hnames, hnodes]
    cases htag : hasTag key.str.text with
    | false =>
      rw [List.filter_cons_of_neg (by simp [htag])]
      exact h.tagged
    | true =>
      rw [List.filter_cons_of_pos (by simp [htag])]
      exact h.tagged.cons _

/-- **A key that is indexed costs two references** when it is reported changed. -/
theorem Even.not_balanced_slotsAdd (h : s.Even) {db : Nat} {key : EventKey} (hmem : (db, key.text) ∈ s.names) :
    ¬ (s.slotsAdd false db key.str).Balanced := by
  intro hbal
  have hkeys := hbal.keys
  have hheld : ((s.createStringFromLongLong false).1.takeAndRef key.str).ledger.held =
    key.str.id :: .value s.made :: s.ledger.held := rfl
  rw [slotsAdd_of_mem false hmem, hheld, List.countP_cons_of_pos (p := StrId.isServer) rfl,
    List.countP_cons_of_neg (p := StrId.isServer) (by simp [StrId.isServer]), h.balanced.keys] at hkeys
  exact absurd hkeys (Nat.succ_ne_self _)

end

/-! ### Runs -/

/-- A key is reported changed that is indexed. -/
def repeats (s : RefState) : Report → Bool
  | .changed db key => (db, key.text) ∈ s.names
  | _ => false

def noneRepeats (databases : Nat) (s : RefState) : List Report → Bool
  | [] => true
  | r :: rs => !s.repeats r && noneRepeats databases (s.run databases r.callbacks) rs

section
variable {s : RefState}

/-- **A report that is not of a pair keeps the balance exactly if it repeats nothing.** -/
theorem Even.report (h : s.Even) (databases : Nat) {r : Report} (hr : r.isPair = false) :
    if s.repeats r then ¬ s.Always databases Balanced r.callbacks
    else s.Always databases Balanced r.callbacks ∧ (s.run databases r.callbacks).Even := by
  have hone {c : Callback} {t : RefState} (hc : s.callback databases c = t) (ht : t.Even) :
      s.Always databases Balanced [c] ∧ (s.run databases [c]).Even := by
    subst hc
    exact ⟨⟨h.balanced, ht.balanced⟩, ht⟩
  cases r with
  | changed db key =>
    by_cases hmem : (db, key.text) ∈ s.names
    · have hcall : s.callback databases (.typeChange db key) = s.slotsAdd false db key.str :=
        callbackReturn_eq (by
          rw [@slotsAdd_of_mem s db key.str false hmem]
          exact h.returned)
      rw [repeats, if_pos (decide_eq_true hmem)]
      intro halways
      have hbal : (s.callback databases (.typeChange db key)).Balanced := halways.2
      rw [hcall] at hbal
      exact h.not_balanced_slotsAdd hmem hbal
    · have heven := h.slotsAdd hmem
      rw [repeats, if_neg (by simpa using hmem)]
      exact hone (callbackReturn_eq heven.returned) heven
  | removed expired db key =>
    have heven := h.slotsDel db key.str
    exact hone ((notify_removed expired db key).trans (callbackReturn_eq heven.returned)) heven
  | flushed start dbnum => exact hone rfl (h.flush databases start dbnum)
  | renamed db key newkey => cases hr
  | moved src dst key => cases hr

theorem Even.reports (h : s.Even) (databases : Nat) {rs : List Report} (hrs : ∀ r ∈ rs, r.isPair = false) :
    s.Always databases Balanced (rs.flatMap Report.callbacks) ↔ s.noneRepeats databases rs = true := by
  induction rs generalizing s with
  | nil => exact iff_of_true h.balanced rfl
  | cons r rs ih =>
    obtain ⟨hfirst, hrest⟩ := List.forall_mem_cons.mp hrs
    have hr := h.report databases hfirst
    rw [List.flatMap_cons, always_append, noneRepeats, Bool.and_eq_true, Bool.not_eq_true']
    cases hrep : s.repeats r with
    | true =>
      rw [hrep, if_pos rfl] at hr
      exact iff_of_false (fun h => hr h.1) (fun h => Bool.true_eq_false_eq_False h.1)
    | false =>
      rw [hrep, if_neg Bool.false_ne_true] at hr
      rw [ih hr.2 hrest, and_iff_right hr.1, and_iff_right rfl]

end

/-- **When what is taken is given back**: over keys reported changed, keys removed and flushes, the
references to keys always come to the entries and the nodes and the values to the entries,
if and only if no key is reported changed while it is indexed. -/
theorem balanced_iff (databases : Nat) {rs : List Report} (hrs : ∀ r ∈ rs, r.isPair = false) :
    init.Always databases Balanced (rs.flatMap Report.callbacks) ↔ init.noneRepeats databases rs = true :=
  even_init.reports databases hrs

/-- Writing a key, deleting it and writing it again. -/
theorem balanced_iff_again : init.Always 16 Balanced
    ([.changed 0 ⟨0, [97]⟩, .removed false 0 ⟨1, [97]⟩, .changed 0 ⟨2, [97]⟩].flatMap Report.callbacks) :=
  (balanced_iff 16 (by decide)).mpr (by decide +kernel)

/-- A key is written twice and deleted, and a key and a value are still retained. -/
theorem not_balanced :
    ¬ init.Always 16 Balanced
      ([.changed 0 ⟨0, [97]⟩, .changed 0 ⟨1, [97]⟩, .removed false 0 ⟨2, [97]⟩].flatMap Report.callbacks) ∧
    (init.run 16 ([.changed 0 ⟨0, [97]⟩, .changed 0 ⟨1, [97]⟩, .removed false 0 ⟨2, [97]⟩].flatMap
      Report.callbacks)).ledger.held = [.server 1, .value 1] := by
  refine ⟨fun h => absurd h.2.2.1.values (by decide +kernel), by decide +kernel⟩

end RefState
end RedisXSlot
