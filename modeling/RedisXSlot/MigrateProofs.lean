import RedisXSlot.Migrate
import RedisXSlot.MgrtProofs

/-! The shape of a migration.

`Migration` lists the ways `migrateKeys` can go: nothing was there to dump, a dump went
wrong, the written slots are not the first ones and the send loop reads an indeterminate
pointer, a connect failed with a text that overruns `errLog`, the transfer failed, or the
transfer succeeded and the keys were unlinked. Every run is one of these
(`migrateKeys_runs`), and what a migration does is read off its trace. -/
namespace RedisXSlot
open Interaction

/-! ### Dumping -/

/-- A key that is absent, or gone by the time its TTL is asked for. -/
inductive Skipped (key : Bytes) : Trace → Prop where
  | absent (a : Reply) : a = .null ∨ a = .nil → Skipped key [⟨.dump key, a⟩]
  | gone (val : Bytes) (a : Reply) : a = .null ∨ a = .nil →
      Skipped key [⟨.dump key, Reply.string val⟩, ⟨.pttl key, a⟩]

/-- The two calls that make an object. -/
def DumpObj.dumpEvents (obj : DumpObj) : Trace :=
  [⟨.dump obj.key, Reply.string obj.val⟩, ⟨.pttl obj.key, Reply.integer obj.ttlms⟩]

/-- `getRdbDumpObjs` got through `keys` by `t` and left the slots like this. -/
inductive Dumped : List Bytes → Trace → List (Option DumpObj) → Prop where
  | nil : Dumped [] [] []
  | skip {key : Bytes} {keys : List Bytes} {u t : Trace} {slots : List (Option DumpObj)} :
      Skipped key u → Dumped keys t slots → Dumped (key :: keys) (u ++ t) (none :: slots)
  | dump {keys : List Bytes} {t : Trace} {slots : List (Option DumpObj)} (obj : DumpObj) :
      Dumped keys t slots → Dumped (obj.key :: keys) (obj.dumpEvents ++ t) (some obj :: slots)

/-- The number of slots written. -/
def written (slots : List (Option DumpObj)) : Nat := slots.countP Option.isSome

/-- A reply to DUMP that `dumpObj` takes for an error. -/
def Reply.badDump : Reply → Bool
  | .null | .nil | .string _ => false
  | _ => true

/-- A reply to PTTL that `dumpObj` takes for an error. -/
def Reply.badTtl : Reply → Bool
  | .null | .nil | .integer _ => false
  | _ => true

def DumpError (t : Trace) : Prop :=
  (∃ key a, (⟨.dump key, a⟩ : Event) ∈ t ∧ Reply.badDump a = true) ∨
    ∃ key a, (⟨.pttl key, a⟩ : Event) ∈ t ∧ Reply.badTtl a = true

theorem DumpError.append_left {t : Trace} (h : DumpError t) (u : Trace) : DumpError (u ++ t) := by
  rcases h with ⟨key, a, hm, h⟩ | ⟨key, a, hm, h⟩
  · exact .inl ⟨key, a, List.mem_append_right u hm, h⟩
  · exact .inr ⟨key, a, List.mem_append_right u hm, h⟩

/-- The trace only asks the server for dumps and TTLs. -/
def OnlyDumps (t : Trace) : Prop := ∀ e ∈ t, ∃ key, e.call = .dump key ∨ e.call = .pttl key

theorem OnlyDumps.append {t t' : Trace} (h : OnlyDumps t) (h' : OnlyDumps t') : OnlyDumps (t ++ t') :=
  fun e he => (List.mem_append.mp he).elim (h e) (h' e)

theorem OnlyDumps.clean {t : Trace} (h : OnlyDumps t) : Clean t := by
  intro e he
  obtain ⟨c, a⟩ := e
  obtain ⟨key, hc | hc⟩ := h _ he <;> (cases hc; rfl)

theorem dumpObj_spec (key : Bytes) :
    Spec (dumpObj key) fun t out => OnlyDumps t ∧ match out with
      | .nothing => Skipped key t
      | .err => DumpError t
      | .obj obj => obj.key = key ∧ t = obj.dumpEvents := by
  dsimp only [dumpObj]
  rw [Prog.perform_bind]
  refine .call fun (a : Reply) => ?_
  have hone : OnlyDumps [(⟨.dump key, a⟩ : Event)] := by
    intro e he
    cases List.mem_singleton.mp he
    exact ⟨key, .inl rfl⟩
  cases a with
  | null => exact .ret ⟨hone, .absent _ (.inl rfl)⟩
  | nil => exact .ret ⟨hone, .absent _ (.inr rfl)⟩
  | integer | error | other => exact .ret ⟨hone, .inl ⟨key, _, List.mem_singleton.mpr rfl, rfl⟩⟩
  | string val =>
    refine .call fun (b : Reply) => ?_
    have htwo : OnlyDumps [(⟨.dump key, Reply.string val⟩ : Event), ⟨.pttl key, b⟩] :=
      OnlyDumps.append (t := [_]) hone fun e he => by
        cases List.mem_singleton.mp he
        exact ⟨key, .inr rfl⟩
    cases b with
    | null => exact .ret ⟨htwo, .gone val _ (.inl rfl)⟩
    | nil => exact .ret ⟨htwo, .gone val _ (.inr rfl)⟩
    | integer n => exact .ret ⟨htwo, rfl, rfl⟩
    | string | error | other =>
      exact .ret ⟨htwo, .inr ⟨key, _, List.mem_cons_of_mem _ (List.mem_singleton.mpr rfl), rfl⟩⟩

theorem dumpLoop_spec (keys : List Bytes) (j : Int) (objs : List (Option DumpObj)) :
    Spec (dumpLoop keys j objs) fun t out => OnlyDumps t ∧
      ((out.1 = SLOTS_MGRT_ERR ∧ DumpError t) ∨
        ∃ slots, Dumped keys t slots ∧ out = (j + written slots, objs ++ slots)) := by
  induction keys generalizing j objs with
  | nil => exact .ret ⟨by simp [OnlyDumps], .inr ⟨[], .nil, by simp [written]⟩⟩
  | cons key keys ih =>
    simp only [dumpLoop]
    refine (dumpObj_spec key).bind ?_
    rintro t out ⟨honly, hout⟩
    cases out with
    | nothing =>
      refine (ih j (objs ++ [none])).mono ?_
      rintro t' out' ⟨honly', ⟨herr, hd⟩ | ⟨slots, hd, rfl⟩⟩
      · exact ⟨honly.append honly', .inl ⟨herr, hd.append_left t⟩⟩
      · exact ⟨honly.append honly', .inr ⟨none :: slots, .skip hout hd, by simp [written]⟩⟩
    | err => exact .ret ⟨by simpa using honly, .inl ⟨rfl, by simpa using hout⟩⟩
    | obj obj =>
      obtain ⟨rfl, rfl⟩ := hout
      refine (ih (j + 1) (objs ++ [some obj])).mono ?_
      rintro t' out' ⟨honly', ⟨herr, hd⟩ | ⟨slots, hd, rfl⟩⟩
      · exact ⟨honly.append honly', .inl ⟨herr, hd.append_left _⟩⟩
      · refine ⟨honly.append honly', .inr ⟨some obj :: slots, .dump obj hd, ?_⟩⟩
        simp [written, add_assoc, add_comm]

theorem getRdbDumpObjs_spec (keys : List Bytes) :
    Spec (getRdbDumpObjs keys) fun t out => OnlyDumps t ∧
      ((out.1 = SLOTS_MGRT_ERR ∧ DumpError t) ∨
        ∃ slots, Dumped keys t slots ∧ out = ((written slots : Int), slots)) := by
  rw [getRdbDumpObjs]
  split
  next h =>
    obtain rfl := List.eq_nil_of_length_eq_zero (Nat.le_zero.mp h)
    exact .ret ⟨by simp [OnlyDumps], .inr ⟨[], .nil, rfl⟩⟩
  next => simpa using dumpLoop_spec keys 0 []

theorem Dumped.length {keys : List Bytes} {t : Trace} {slots : List (Option DumpObj)}
    (h : Dumped keys t slots) : slots.length = keys.length := by
  induction h with
  | nil => rfl
  | skip _ _ ih => simpa using ih
  | dump _ _ ih => simpa using ih

theorem written_cons (slot : Option DumpObj) (slots : List (Option DumpObj)) :
    written (slot :: slots) = written slots + if slot.isSome then 1 else 0 := List.countP_cons

/-- If the first slots can be read, the written slots are the first ones. -/
theorem readObjs_eq_some {slots : List (Option DumpObj)} {objs : List DumpObj}
    (h : readObjs (written slots) slots = some objs) :
    ∃ n, slots = objs.map some ++ List.replicate n none := by
  induction slots generalizing objs with
  | nil =>
    cases h
    exact ⟨0, rfl⟩
  | cons slot slots ih =>
    cases slot with
    | none =>
      rw [written_cons] at h
      cases hw : written slots with
      | zero =>
        rw [hw] at h
        cases h
        obtain ⟨n, hn⟩ := @ih [] (by rw [hw]; rfl)
        exact ⟨n + 1, by rw [hn]; rfl⟩
      | succ k =>
        rw [hw] at h
        cases h
    | some obj =>
      rw [written_cons, Option.isSome_some, if_pos rfl] at h
      obtain ⟨objs', hobjs', rfl⟩ := Option.map_eq_some_iff.mp h
      obtain ⟨n, hn⟩ := ih hobjs'
      exact ⟨n, by rw [hn]; rfl⟩

/-- If every slot was written, they can all be read. -/
theorem readObjs_map_some (objs : List DumpObj) : readObjs objs.length (objs.map some) = some objs := by
  induction objs with
  | nil => rfl
  | cons obj objs ih =>
    rw [List.length_cons, List.map_cons, readObjs, ih]
    rfl

/-! ### Unlinking -/

theorem delLoop_spec (keys : List Bytes) (ret : Int) :
    Spec (delLoop keys ret) fun t r => ∃ n, t.map (·.call) = (keys.take n).map Call.unlink ∧
      ((∀ key a, (⟨.unlink key, a⟩ : Event) ∈ t → ∃ m, a = Reply.integer m) →
        r = ret + keys.length ∧ keys.length ≤ n) ∧ (r = SLOTS_MGRT_ERR ∨ keys.length ≤ n) := by
  induction keys generalizing ret with
  | nil => exact .ret ⟨0, rfl, fun _ => ⟨by simp, le_rfl⟩, .inr le_rfl⟩
  | cons key keys ih =>
    dsimp only [delLoop]
    rw [Prog.perform_bind]
    refine .call fun (a : Reply) => ?_
    have hnext (ret' : Int) (hret : (∃ m, a = .integer m) → ret' = ret + 1) : Spec (delLoop keys ret') fun t r =>
        ∃ n, ((⟨.unlink key, a⟩ : Event) :: t).map (·.call) = ((key :: keys).take n).map Call.unlink ∧
          ((∀ k b, (⟨.unlink k, b⟩ : Event) ∈ (⟨.unlink key, a⟩ : Event) :: t → ∃ m, b = Reply.integer m) →
            r = ret + (key :: keys).length ∧ (key :: keys).length ≤ n) ∧
          (r = SLOTS_MGRT_ERR ∨ (key :: keys).length ≤ n) := by
      refine (ih ret').mono ?_
      rintro t r ⟨n, hcalls, hint, hlen⟩
      refine ⟨n + 1, by simp [hcalls], fun h => ?_, by simpa using hlen⟩
      obtain ⟨hr, hn⟩ := hint fun k b hb => h k b (List.mem_cons_of_mem _ hb)
      have := hret (h key a (List.mem_cons_self ..))
      simp only [List.length_cons]
      exact ⟨by push_cast; omega, by omega⟩
    have hstop : (¬ ∃ m, a = .integer m) → Spec (.ret SLOTS_MGRT_ERR : Act Int) fun t r =>
        ∃ n, ((⟨.unlink key, a⟩ : Event) :: t).map (·.call) = ((key :: keys).take n).map Call.unlink ∧
          ((∀ k b, (⟨.unlink k, b⟩ : Event) ∈ (⟨.unlink key, a⟩ : Event) :: t → ∃ m, b = Reply.integer m) →
            r = ret + (key :: keys).length ∧ (key :: keys).length ≤ n) ∧
          (r = SLOTS_MGRT_ERR ∨ (key :: keys).length ≤ n) := by
      intro ha
      exact .ret ⟨1, by simp, fun h => absurd (h key a (List.mem_cons_self ..)) ha, .inl rfl⟩
    cases a with
    | null | nil => exact hnext ret (by rintro ⟨m, hm⟩; cases hm)
    | integer n => exact hnext (ret + 1) fun _ => rfl
    | string | error | other => exact hstop (by rintro ⟨m, hm⟩; cases hm)

theorem exists_unlink {t : Trace} {ks : List Bytes} (h : t.map (·.call) = ks.map Call.unlink) :
    ∀ e ∈ t, ∃ key, e.call = .unlink key := by
  intro e he
  have hc : e.call ∈ ks.map Call.unlink := h ▸ List.mem_map_of_mem he
  obtain ⟨key, -, hc⟩ := List.mem_map.mp hc
  exact ⟨key, hc.symm⟩

theorem unlinks_clean {t : Trace} (h : ∀ e ∈ t, ∃ key, e.call = .unlink key) : Clean t := by
  intro e he
  obtain ⟨key, hc⟩ := h e he
  obtain ⟨c, a⟩ := e
  cases hc
  rfl

/-! ### A migration -/

/-- How `migrateKeys` can go; `none` is undefined behaviour. -/
inductive Migration (conf : MgrtConf) (keys : List Bytes) : Trace → Option Int → Prop where
  | nothing {t : Trace} {slots : List (Option DumpObj)} :
      Dumped keys t slots → written slots = 0 → Migration conf keys t (some 0)
  | dumpError {t : Trace} : OnlyDumps t → DumpError t → Migration conf keys t (some SLOTS_MGRT_ERR)
  | fault {t : Trace} {slots : List (Option DumpObj)} :
      Dumped keys t slots → readObjs (written slots) slots = none → Migration conf keys t none
  | overran {t t' : Trace} {slots : List (Option DumpObj)} {objs : List DumpObj} :
      Dumped keys t slots → readObjs (written slots) slots = some objs → objs ≠ [] →
      Overran (mgrtCommands conf objs) t' → Migration conf keys (t ++ t') none
  | failed {t t' : Trace} {slots : List (Option DumpObj)} {objs : List DumpObj} :
      Dumped keys t slots → readObjs (written slots) slots = some objs → objs ≠ [] →
      Sends objs.length (mgrtCommands conf objs) t' SLOTS_MGRT_ERR →
      Migration conf keys (t ++ t') (some SLOTS_MGRT_ERR)
  | sent {t t' t'' : Trace} {slots : List (Option DumpObj)} {objs : List DumpObj} {o : Option Int} :
      Dumped keys t slots → readObjs (written slots) slots = some objs → objs ≠ [] →
      Sends objs.length (mgrtCommands conf objs) t' objs.length →
      Runs (delKeys keys) t'' o → Migration conf keys (t ++ t' ++ t'') o

/-- **Every run of `migrateKeys` is a migration.** -/
theorem migrateKeys_runs {conf : MgrtConf} {keys : List Bytes} {t : Trace} {o : Option Int}
    (h : Runs (migrateKeys conf keys) t o) : Migration conf keys t o := by
  rw [migrateKeys] at h
  split at h
  next hlen =>
    obtain rfl := List.eq_nil_of_length_eq_zero (Nat.le_zero.mp hlen)
    obtain ⟨rfl, rfl⟩ := Runs.ret_iff.mp h
    exact .nothing .nil rfl
  next =>
    obtain ⟨out, t₁, t₂, rfl, ⟨honly, hout⟩, h⟩ := (getRdbDumpObjs_spec keys).bind_runs h
    rcases hout with ⟨herr, hd⟩ | ⟨slots, hd, rfl⟩
    · simp only [herr, if_neg (show ¬ SLOTS_MGRT_ERR = SLOTS_MGRT_NOTHING by decide), if_true] at h
      obtain ⟨rfl, rfl⟩ := Runs.ret_iff.mp h
      rw [List.append_nil]
      exact .dumpError honly hd
    · by_cases hw : written slots = 0
      · simp only [hw, Nat.cast_zero, SLOTS_MGRT_NOTHING, if_true] at h
        obtain ⟨rfl, rfl⟩ := Runs.ret_iff.mp h
        rw [List.append_nil]
        exact .nothing hd hw
      · have hne : ¬ ((written slots : Int) = SLOTS_MGRT_NOTHING) := by
          rw [SLOTS_MGRT_NOTHING]
          omega
        simp only [if_neg hne, if_neg (natCast_ne_err _), Int.toNat_natCast] at h
        cases hread : readObjs (written slots) slots with
        | none =>
          rw [hread] at h
          obtain ⟨rfl, rfl⟩ := Runs.fault_iff.mp h
          rw [List.append_nil]
          exact .fault hd hread
        | some objs =>
          rw [hread] at h
          have hobjs : objs ≠ [] := by
            rintro rfl
            obtain ⟨n, hn⟩ := readObjs_eq_some hread
            rw [hn] at hw
            simp [written] at hw
          rcases (mgrt_spec conf hobjs).bind_runs h with ⟨m_ret, t', t'', rfl, hs, h⟩ | ⟨rfl, hover⟩
          · by_cases hm : m_ret = SLOTS_MGRT_ERR
            · simp only [if_pos hm] at h
              obtain ⟨rfl, rfl⟩ := Runs.ret_iff.mp h
              rw [List.append_nil]
              exact .failed hd hread hobjs (hm ▸ hs)
            · have hcount := hs.count hm
              have hpos : 0 < objs.length := List.length_pos_iff.mpr hobjs
              have hm0 : ¬ m_ret = 0 := by omega
              simp only [if_neg hm, if_neg hm0] at h
              rw [← List.append_assoc]
              exact .sent hd hread hobjs (hcount ▸ hs) h
          · exact .overran hd hread hobjs hover

end RedisXSlot
