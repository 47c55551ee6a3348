import RedisXSlot.Lib.Ledger
import RedisXSlot.Delivery

/-! What a migration allocates, and what it gives back.

The functions of a migration once more, with a ledger of the dump objects, of the values that
DUMP has returned and of the texts of the TTLs. Without the ledger they are the functions
they were (`Alloc.fst_migrateKeys`). Each exit releases by a count of its own, so whether
anything is left depends on where a migration stops (`released_iff`). -/

namespace RedisXSlot
open Interaction

/-- What is allocated for the key, or for the object, at a position. -/
inductive Block where
  | obj (i : Nat)
  | val (i : Nat)
  | ttl (i : Nat)
  deriving DecidableEq

abbrev Heap := Ledger Block

namespace Alloc

def dumpObj (i : Nat) (key : Bytes) (heap : Heap) : Act (DumpResult × Heap) := do
  match ← ask (.dump key) with
  | .null => return (.nothing, heap)
  | .nil => return (.nothing, heap)
  | .string val =>
    let heap := heap.take (.val i)
    match ← ask (.pttl key) with
    | .null => return (.nothing, heap)
    | .nil => return (.nothing, heap)
    | .integer ttlms => return (.obj ⟨key, val, ttlms⟩, heap.take (.obj i))
    | _ => return (.err, heap)
  | _ => return (.err, heap)

def dumpLoop : List Bytes → Int → List (Option DumpObj) → Heap → Act ((Int × List (Option DumpObj)) × Heap)
  | [], j, objs, heap => return ((j, objs), heap)
  | key :: keys, j, objs, heap => do
    let (r, heap) ← dumpObj objs.length key heap
    match r with
    | .nothing => dumpLoop keys j (objs ++ [none]) heap
    | .err => return ((SLOTS_MGRT_ERR, objs), heap)
    | .obj obj => dumpLoop keys (j + 1) (objs ++ [some obj]) heap

def getRdbDumpObjs (keys : List Bytes) (heap : Heap) : Act ((Int × List (Option DumpObj)) × Heap) := do
  if keys.length ≤ 0 then return ((SLOTS_MGRT_NOTHING, []), heap)
  else dumpLoop keys 0 [] heap

/-- The loop of `FreeDumpObjs`, from the slot `i` on: a slot that was not written is a fault. -/
def freeDumpObjsFrom : Nat → List (Option DumpObj) → Nat → Heap → Act Heap
  | 0, _, _, heap => return heap
  | n + 1, some _ :: objs, i, heap => freeDumpObjsFrom n objs (i + 1) ((heap.give (.val i)).give (.obj i))
  | _ + 1, _, _, _ => .fault

/-- `FreeDumpObjs`, which frees nothing for a count of -1. -/
def freeDumpObjs (objs : List (Option DumpObj)) (n : Int) (heap : Heap) : Act Heap := freeDumpObjsFrom n.toNat objs 0 heap

def freeHiRedisSlotsRestoreArgs (n : Int) (heap : Heap) : Heap := heap.giveAll ((List.range n.toNat).map .ttl)

/-- The loop of `BatchSend_SlotsRestore` over `n` objects, at the object `i`. -/
def batchSendLoop (n : Nat) : List DumpObj → Nat → Nat → Nat → List Bytes → Heap → Act (Int × Heap)
  | [], _, start_pos, _, argv, heap => do
    if (← doSplitRestoreCommand argv start_pos n) = SLOTS_MGRT_ERR then
      return (SLOTS_MGRT_ERR, freeHiRedisSlotsRestoreArgs n heap)
    else return (n, freeHiRedisSlotsRestoreArgs n heap)
  | obj :: objs, i, start_pos, cmd_size, argv, heap =>
    if cmd_size > REDIS_MGRT_CMD_PARAMS_SIZE then do
      if (← doSplitRestoreCommand argv start_pos i) = SLOTS_MGRT_ERR then
        return (SLOTS_MGRT_ERR, freeHiRedisSlotsRestoreArgs (i - start_pos) heap)
      else batchSendLoop n objs (i + 1) i obj.size (argv ++ obj.args) (heap.take (.ttl i))
    else batchSendLoop n objs (i + 1) start_pos (cmd_size + obj.size) (argv ++ obj.args) (heap.take (.ttl i))

def batchSendSlotsRestore (objs : List DumpObj) (heap : Heap) : Act (Int × Heap) :=
  batchSendLoop objs.length objs 0 0 0 [] heap

/-- `MGRT` without the thread pool. The pipeline allocates none of the blocks. -/
def mgrt (conf : MgrtConf) (objs : List DumpObj) (heap : Heap) : Act (Int × Heap) := do
  if ← slotsmgrtGetConnCtx conf then
    match ← ask (.select conf.db) with
    | .missing | .failed | .reply .error =>
      ask (.closeConn conf.host conf.port)
      return (SLOTS_MGRT_ERR, heap)
    | .reply _ =>
      let (ret, heap) ←
        if conf.mgrtType.any isWithPipeline && !conf.async then (fun ret => (ret, heap)) <$> pipelineSlotsRestore objs
        else batchSendSlotsRestore objs heap
      ask (.closeConn conf.host conf.port)
      return (ret, heap)
  else return (SLOTS_MGRT_ERR, heap)

def migrateKeys (conf : MgrtConf) (keys : List Bytes) (heap : Heap) : Act (Int × Heap) := do
  if keys.length ≤ 0 then return (0, heap)
  else
    -- get rdb dump objs
    let ((ret, slots), heap) ← getRdbDumpObjs keys heap
    if ret = SLOTS_MGRT_NOTHING then
      let heap ← freeDumpObjs slots ret heap
      return (0, heap)
    else if ret = SLOTS_MGRT_ERR then
      let heap ← freeDumpObjs slots ret heap
      return (SLOTS_MGRT_ERR, heap)
    else
      match readObjs ret.toNat slots with
      | none => .fault
      | some objs =>
        -- migrate
        let (m_ret, heap) ← mgrt conf objs heap
        if m_ret = SLOTS_MGRT_ERR then
          let heap ← freeDumpObjs slots ret heap
          return (SLOTS_MGRT_ERR, heap)
        else if m_ret = 0 then
          let heap ← freeDumpObjs slots ret heap
          return (m_ret, heap)
        else
          let heap ← freeDumpObjs slots ret heap
          -- del (unlink async del)
          let ret ← delKeys keys
          return (ret, heap)

/-! ### Without the ledger -/

theorem fst_dumpObj (i : Nat) (key : Bytes) (heap : Heap) : Prod.fst <$> dumpObj i key heap = RedisXSlot.dumpObj key := by
  refine congrArg (Prog.call (Call.dump key)) (funext fun (a : Reply) => ?_)
  cases a with
  | string val =>
    refine congrArg (Prog.call (Call.pttl key)) (funext fun (b : Reply) => ?_)
    cases b <;> rfl
  | _ => rfl

theorem fst_dumpLoop (keys : List Bytes) (j : Int) (objs : List (Option DumpObj)) (heap : Heap) :
    Prod.fst <$> dumpLoop keys j objs heap = RedisXSlot.dumpLoop keys j objs := by
  induction keys generalizing j objs heap with
  | nil => rfl
  | cons key keys ih =>
    rw [dumpLoop, RedisXSlot.dumpLoop, ← fst_dumpObj objs.length key heap, map_bind, bind_map_left]
    refine congrArg (dumpObj objs.length key heap >>= ·) (funext fun out => ?_)
    obtain ⟨r, heap⟩ := out
    cases r with
    | nothing => exact ih ..
    | err => rfl
    | obj obj => exact ih ..

/-- The slots that the migration reads can be freed. -/
theorem freeDumpObjsFrom_eq {n : Nat} {slots : List (Option DumpObj)} {objs : List DumpObj} (h : readObjs n slots = some objs)
    (i : Nat) (heap : Heap) : ∃ heap', freeDumpObjsFrom n slots i heap = .ret heap' := by
  fun_induction readObjs n slots generalizing objs i heap with
  | case1 => exact ⟨heap, rfl⟩
  | case2 n obj slots ih =>
    obtain ⟨objs', h', -⟩ := Option.map_eq_some_iff.mp h
    exact ih h' (i + 1) _
  | case3 => cases h

theorem fst_batchSendLoop {n i : Nat} (objs : List DumpObj) (hn : i + objs.length = n) (start acc : Nat) (argv : List Bytes)
    (heap : Heap) : Prod.fst <$> batchSendLoop n objs i start acc argv heap =
      (do match ← Batch.batchLoop putArgs sendSplit DumpObj.size REDIS_MGRT_CMD_PARAMS_SIZE objs i start acc argv with
        | none => return SLOTS_MGRT_ERR
        | some _ => return (n : Int)) := by
  induction objs generalizing i start acc argv heap with
  | nil =>
    obtain rfl : i = n := hn
    simp only [batchSendLoop, Batch.batchLoop, sendSplit, map_bind, bind_assoc]
    refine congrArg (doSplitRestoreCommand argv start i >>= ·) (funext fun r => ?_)
    split <;> rfl
  | cons obj objs ih =>
    have hn' : i + 1 + objs.length = n := by
      rw [← hn, List.length_cons]
      omega
    simp only [batchSendLoop, Batch.batchLoop]
    split
    next =>
      simp only [sendSplit, map_bind, bind_assoc]
      refine congrArg (doSplitRestoreCommand argv start i >>= ·) (funext fun r => ?_)
      split
      next => rfl
      next => exact ih hn' i obj.size (argv ++ obj.args) (heap.take (.ttl i))
    next => exact ih hn' start (acc + obj.size) (argv ++ obj.args) (heap.take (.ttl i))

/-- Sending on a connection of one's own. -/
theorem fst_onConnection (conf : MgrtConf) (heap : Heap) (send : Act (Int × Heap)) :
    Prod.fst <$> (do
      if ← slotsmgrtGetConnCtx conf then
        match ← ask (.select conf.db) with
        | .missing | .failed | .reply .error =>
          ask (.closeConn conf.host conf.port)
          return (SLOTS_MGRT_ERR, heap)
        | .reply _ =>
          let (ret, heap) ← send
          ask (.closeConn conf.host conf.port)
          return (ret, heap)
      else return (SLOTS_MGRT_ERR, heap)) = (do
      if ← slotsmgrtGetConnCtx conf then
        match ← ask (.select conf.db) with
        | .missing | .failed | .reply .error =>
          ask (.closeConn conf.host conf.port)
          return SLOTS_MGRT_ERR
        | .reply _ =>
          let ret ← Prod.fst <$> send
          ask (.closeConn conf.host conf.port)
          return ret
      else return SLOTS_MGRT_ERR : Act Int) := by
  have hsend : Prod.fst <$> (do
      let (ret, heap) ← send
      ask (.closeConn conf.host conf.port)
      return (ret, heap)) = (do
      let ret ← Prod.fst <$> send
      ask (.closeConn conf.host conf.port)
      return ret : Act Int) := by
    rw [map_bind, bind_map_left]
    rfl
  rw [map_bind]
  refine congrArg (slotsmgrtGetConnCtx conf >>= ·) (funext fun ok => ?_)
  cases ok with
  | false => rfl
  | true =>
    refine congrArg (Prog.call (Call.select conf.db)) (funext fun (a : NetAnswer) => ?_)
    cases a with
    | reply r =>
      cases r with
      | error => rfl
      | integer | status => exact hsend
    | _ => rfl

theorem fst_mgrt {conf : MgrtConf} (hpool : conf.slots_mgrt_threads = 0) (objs : List DumpObj) (heap : Heap) :
    Prod.fst <$> mgrt conf objs heap = RedisXSlot.mgrt conf objs := by
  have hno : ¬ conf.slots_mgrt_threads > 0 := by omega
  by_cases hpipe : (conf.mgrtType.any isWithPipeline && !conf.async) = true
  · have hsend : Prod.fst <$> (fun ret => (ret, heap)) <$> pipelineSlotsRestore objs = pipelineSlotsRestore objs := by
      rw [Functor.map_map, id_map']
    have hconn := fst_onConnection conf heap ((fun ret => (ret, heap)) <$> pipelineSlotsRestore objs)
    rw [hsend] at hconn
    simp only [mgrt, RedisXSlot.mgrt, if_neg hno, if_pos hpipe]
    exact hconn
  · have hsend : Prod.fst <$> batchSendSlotsRestore objs heap = RedisXSlot.batchSendSlotsRestore objs :=
      fst_batchSendLoop objs (Nat.zero_add _) 0 0 [] heap
    have hconn := fst_onConnection conf heap (batchSendSlotsRestore objs heap)
    rw [hsend] at hconn
    simp only [mgrt, RedisXSlot.mgrt, if_neg hno, if_neg hpipe]
    exact hconn

/-- **Without its ledger a migration is `migrateKeys`.** -/
theorem fst_migrateKeys {conf : MgrtConf} (hpool : conf.slots_mgrt_threads = 0) (keys : List Bytes) (heap : Heap) :
    Prod.fst <$> migrateKeys conf keys heap = RedisXSlot.migrateKeys conf keys := by
  rw [migrateKeys, RedisXSlot.migrateKeys]
  split
  next => rfl
  next hlen =>
    have hdump : Prod.fst <$> getRdbDumpObjs keys heap = RedisXSlot.getRdbDumpObjs keys := by
      rw [getRdbDumpObjs, RedisXSlot.getRdbDumpObjs, if_neg hlen, if_neg hlen]
      exact fst_dumpLoop keys 0 [] heap
    rw [← hdump, map_bind, bind_map_left]
    refine congrArg (getRdbDumpObjs keys heap >>= ·) (funext fun out => ?_)
    obtain ⟨⟨ret, slots⟩, heap⟩ := out
    dsimp only
    split
    next hret =>
      rw [hret]
      rfl
    next =>
      split
      next hret =>
        rw [hret]
        rfl
      next =>
        cases hread : readObjs ret.toNat slots with
        | none => rfl
        | some objs =>
          dsimp only
          rw [← fst_mgrt hpool objs heap, map_bind, bind_map_left]
          refine congrArg (mgrt conf objs heap >>= ·) (funext fun out => ?_)
          obtain ⟨m_ret, heap⟩ := out
          obtain ⟨heap', hfree⟩ := freeDumpObjsFrom_eq hread 0 heap
          dsimp only [freeDumpObjs]
          rw [hfree]
          split
          next => rfl
          next =>
            split
            next => rfl
            next =>
              rw [Prog.ret_bind, map_bind]
              exact bind_pure _

end Alloc

/-! ### What a run of it shows -/

/-- DUMP returns a value. -/
def Event.isValue (e : Event) : Bool :=
  match e with
  | ⟨.dump _, a⟩ =>
    match (a : Reply) with
    | .string _ => true
    | _ => false
  | _ => false

/-- DUMP finds no key. -/
def Event.isAbsent (e : Event) : Bool :=
  match e with
  | ⟨.dump _, a⟩ =>
    match (a : Reply) with
    | .null | .nil => true
    | _ => false
  | _ => false

def valuesDumped (t : Trace) : Nat := t.countP Event.isValue

/-- The objects in the commands that were sent. -/
def objectsSent (t : Trace) : Nat := ((commands t).map fun x => x.1.length / 3).sum

/-- No PTTL fails, or finds the key gone. -/
def Timed (t : Trace) : Prop := ∀ key a, (⟨.pttl key, a⟩ : Event) ∈ t → ∃ ttlms, a = Reply.integer ttlms

/-- A split that fails is the first one, or the one with the last of `n` objects. -/
def FailsAtEnds (t : Trace) (n : Nat) : Prop :=
  ∀ x ∈ commands t, x.2.ok = false → (commands t).length = 1 ∨ objectsSent t = n

/-- The run takes none of the ways out that lose a block, and none that does not return. -/
structure GivesBack (t : Trace) : Prop where
  fits : Fits t
  timed : Timed t
  /-- No DUMP fails when there is a value already. -/
  failure : ∀ key a, (⟨.dump key, a⟩ : Event) ∈ t → Reply.badDump a = true → valuesDumped t = 0
  /-- No value comes behind an absent key. -/
  gap : t.Pairwise fun e e' => e.isAbsent = true → e'.isValue = false
  split : FailsAtEnds t (valuesDumped t)

/-- The migration returns, every block has been given back, and none that was not held. -/
def Released (o : Option (Int × Heap)) : Prop := ∃ r heap, o = some (r, heap) ∧ heap.held = [] ∧ heap.fault = false

theorem valuesDumped_append (t t' : Trace) : valuesDumped (t ++ t') = valuesDumped t + valuesDumped t' := List.countP_append

theorem objectsSent_append (t t' : Trace) : objectsSent (t ++ t') = objectsSent t + objectsSent t' := by
  simp [objectsSent]

theorem failsAtEnds_congr {t t' : Trace} (h : commands t = commands t') (n : Nat) : FailsAtEnds t n ↔ FailsAtEnds t' n := by
  rw [FailsAtEnds, FailsAtEnds, objectsSent, objectsSent, h]

theorem timed_append {t t' : Trace} : Timed (t ++ t') ↔ Timed t ∧ Timed t' := by
  simp only [Timed, List.mem_append, or_imp, forall_and]

theorem timed_cons_dump {key : Bytes} {a : Reply} {t : Trace} : Timed (⟨.dump key, a⟩ :: t) ↔ Timed t := by
  refine forall_congr' fun k => forall_congr' fun b => ?_
  rw [List.mem_cons]
  exact ⟨fun h hm => h (.inr hm), fun h hm => h (hm.resolve_left fun he => by cases he)⟩

theorem timed_cons_pttl {key : Bytes} {a : Reply} {t : Trace} :
    Timed (⟨.pttl key, a⟩ :: t) ↔ (∃ ttlms, a = .integer ttlms) ∧ Timed t := by
  constructor
  · exact fun h => ⟨h key a List.mem_cons_self, fun k b hm => h k b (List.mem_cons_of_mem _ hm)⟩
  · rintro ⟨ha, h⟩ k b hm
    rcases List.mem_cons.mp hm with he | hm
    · cases he
      exact ha
    · exact h k b hm

theorem timed_nil : Timed [] := fun _ _ h => (List.not_mem_nil h).elim

namespace Alloc
variable {uses : List Block} {heap : Heap}

/-! ### Dumping -/

/-- What `dumpObj` leaves behind: an object with its value, or at most a value. -/
theorem dumpObj_spec (i : Nat) (key : Bytes) (hheap : heap.Exact uses) : Spec (dumpObj i key heap) fun t out =>
    OnlyDumps t ∧ match out.1 with
    | .nothing => Skipped key t ∧ ∃ left, out.2.Exact (left ++ uses) ∧ (left = [] ↔ valuesDumped t = 0) ∧ (left = [] ↔ Timed t)
    | .err => DumpError t ∧ ∃ left, out.2.Exact (left ++ uses) ∧ (left = [] ↔ valuesDumped t = 0) ∧ (left = [] → Timed t)
    | .obj obj => obj.key = key ∧ t = obj.dumpEvents ∧ out.2.Exact (.obj i :: .val i :: uses) := by
  dsimp only [dumpObj]
  rw [Prog.perform_bind]
  refine .call fun (a : Reply) => ?_
  have hone : OnlyDumps [(⟨.dump key, a⟩ : Event)] := by
    intro e he
    cases List.mem_singleton.mp he
    exact ⟨key, .inl rfl⟩
  have htimed : Timed [⟨.dump key, a⟩] := timed_cons_dump.mpr timed_nil
  cases a with
  | null => exact .ret ⟨hone, .absent _ (.inl rfl), [], hheap, by simp [valuesDumped, Event.isValue], by simp [htimed]⟩
  | nil => exact .ret ⟨hone, .absent _ (.inr rfl), [], hheap, by simp [valuesDumped, Event.isValue], by simp [htimed]⟩
  | integer | error | other =>
    exact .ret ⟨hone, .inl ⟨key, _, List.mem_singleton.mpr rfl, rfl⟩, [], hheap, by simp [valuesDumped, Event.isValue],
      fun _ => htimed⟩
  | string val =>
    refine .call fun (b : Reply) => ?_
    have htwo : OnlyDumps [(⟨.dump key, Reply.string val⟩ : Event), ⟨.pttl key, b⟩] :=
      OnlyDumps.append (t := [_]) hone fun e he => by
        cases List.mem_singleton.mp he
        exact ⟨key, .inr rfl⟩
    -- The value stays behind.
    have hleft : ([.val i] : List Block) = [] ↔ valuesDumped [⟨.dump key, Reply.string val⟩, ⟨.pttl key, b⟩] = 0 := by
      simp [valuesDumped, Event.isValue]
    have hgone (hb : ¬ ∃ ttlms, b = .integer ttlms) :
        ([.val i] : List Block) = [] ↔ Timed [⟨.dump key, Reply.string val⟩, ⟨.pttl key, b⟩] := by
      rw [timed_cons_dump, timed_cons_pttl]
      simp [hb]
    have hval : (heap.take (.val i)).Exact ([.val i] ++ uses) := hheap.take _
    cases b with
    | null => exact .ret ⟨htwo, .gone val _ (.inl rfl), _, hval, hleft, hgone (by simp)⟩
    | nil => exact .ret ⟨htwo, .gone val _ (.inr rfl), _, hval, hleft, hgone (by simp)⟩
    | integer n => exact .ret ⟨htwo, rfl, rfl, (hheap.take _).take _⟩
    | string | error | other =>
      exact .ret ⟨htwo, .inr ⟨key, _, List.mem_cons_of_mem _ (List.mem_singleton.mpr rfl), rfl⟩, _, hval, hleft,
        nofun⟩

/-- The blocks of the objects in the slots, from the slot `i` on. -/
def slotBlocks : Nat → List (Option DumpObj) → List Block
  | _, [] => []
  | i, none :: slots => slotBlocks (i + 1) slots
  | i, some _ :: slots => .val i :: .obj i :: slotBlocks (i + 1) slots

theorem dumpLoop_spec (keys : List Bytes) (j : Int) (objs : List (Option DumpObj)) (hheap : heap.Exact uses) :
    Spec (dumpLoop keys j objs heap) fun t out =>
      (out.1.1 = SLOTS_MGRT_ERR ∧ OnlyDumps t ∧ DumpError t ∧ ∃ left, out.2.Exact (left ++ uses) ∧
        (left = [] ↔ valuesDumped t = 0) ∧ (left = [] → Timed t)) ∨
      ∃ slots left, Dumped keys t slots ∧ out.1 = (j + written slots, objs ++ slots) ∧
        out.2.Exact (slotBlocks objs.length slots ++ (left ++ uses)) ∧ (left = [] ↔ Timed t) := by
  induction keys generalizing j objs heap uses with
  | nil => exact .ret (.inr ⟨[], [], .nil, by simp [written], hheap, iff_of_true rfl timed_nil⟩)
  | cons key keys ih =>
    simp only [dumpLoop]
    refine (dumpObj_spec objs.length key hheap).bind ?_
    rintro t ⟨r, heap₁⟩ ⟨honly, hout⟩
    cases r with
    | nothing =>
      obtain ⟨hskip, left₁, hheap₁, hzero, htimed⟩ := hout
      refine (ih j (objs ++ [none]) hheap₁).mono ?_
      rintro t' out' (⟨herr, honly', hd, left, hheap', hzero', htimed'⟩ | ⟨slots, left, hd, hout', hheap', htimed'⟩)
      · refine .inl ⟨herr, honly.append honly', hd.append_left t, left ++ left₁, by rwa [List.append_assoc], ?_, ?_⟩
        · rw [List.append_eq_nil_iff, valuesDumped_append, hzero, hzero', Nat.add_eq_zero_iff, and_comm]
        · rw [List.append_eq_nil_iff, timed_append, htimed]
          exact fun h => ⟨h.2, htimed' h.1⟩
      · refine .inr ⟨none :: slots, left ++ left₁, .skip hskip hd, by rw [hout']; simp [written], ?_, ?_⟩
        · rw [List.length_append] at hheap'
          rw [List.append_assoc]
          exact hheap'
        · rw [List.append_eq_nil_iff, timed_append, htimed, htimed', and_comm]
    | err =>
      obtain ⟨hd, hleft⟩ := hout
      rw [Prog.pure_eq]
      exact .ret (.inl ⟨rfl, by simpa using honly, by simpa using hd, by simpa using hleft⟩)
    | obj obj =>
      obtain ⟨rfl, rfl, hheap₁⟩ := hout
      have hvalue : valuesDumped obj.dumpEvents = 1 := rfl
      have htimed : Timed obj.dumpEvents := timed_cons_dump.mpr (timed_cons_pttl.mpr ⟨⟨_, rfl⟩, timed_nil⟩)
      refine (ih (j + 1) (objs ++ [some obj]) hheap₁).mono ?_
      rintro t' out' (⟨herr, honly', hd, left, hheap', hzero', htimed'⟩ | ⟨slots, left, hd, hout', hheap', htimed'⟩)
      · refine .inl ⟨herr, honly.append honly', hd.append_left _, left ++ [.obj objs.length, .val objs.length],
          by rwa [List.append_assoc], ?_, ?_⟩
        · rw [valuesDumped_append, hvalue]
          simp
        · simp
      · refine .inr ⟨some obj :: slots, left, .dump obj hd, ?_, ?_, ?_⟩
        · rw [hout', written_cons]
          simp [add_assoc, add_comm]
        · rw [List.length_append] at hheap'
          refine hheap'.of_perm (List.perm_iff_count.mpr fun b => ?_)
          simp only [slotBlocks, List.cons_append, List.count_cons, List.count_append, List.length_singleton]
          omega
        · rw [timed_append, and_iff_right htimed, htimed']

theorem readObjs_length {n : Nat} {slots : List (Option DumpObj)} {objs : List DumpObj} (h : readObjs n slots = some objs) :
    objs.length = n := by
  fun_induction readObjs n slots generalizing objs with
  | case1 =>
    cases h
    rfl
  | case2 n obj slots ih =>
    obtain ⟨objs', h', rfl⟩ := Option.map_eq_some_iff.mp h
    rw [List.length_cons, ih h']
  | case3 => cases h

theorem slotBlocks_eq_nil {slots : List (Option DumpObj)} (h : written slots = 0) (i : Nat) : slotBlocks i slots = [] := by
  induction slots generalizing i with
  | nil => rfl
  | cons slot slots ih =>
    rw [written_cons] at h
    cases slot with
    | none => exact ih (Nat.eq_zero_of_add_eq_zero_right h) (i + 1)
    | some obj => cases h

/-- If the first slots are the written ones, `FreeDumpObjs` frees all objects. -/
theorem freeDumpObjsFrom_spec {slots : List (Option DumpObj)} {objs : List DumpObj}
    (hread : readObjs (written slots) slots = some objs) (i : Nat) (hheap : heap.Exact (slotBlocks i slots ++ uses)) :
    ∃ heap', freeDumpObjsFrom (written slots) slots i heap = .ret heap' ∧ heap'.Exact uses := by
  induction slots generalizing objs i heap with
  | nil => exact ⟨heap, rfl, hheap⟩
  | cons slot slots ih =>
    rw [written_cons] at hread ⊢
    cases slot with
    | none =>
      cases hw : written slots with
      | zero =>
        rw [slotBlocks, slotBlocks_eq_nil hw, List.nil_append] at hheap
        exact ⟨heap, rfl, hheap⟩
      | succ k =>
        rw [hw] at hread
        cases hread
    | some obj =>
      obtain ⟨objs', hread, -⟩ := Option.map_eq_some_iff.mp hread
      exact ih hread (i + 1) hheap.give.give

end Alloc

/-- Where values come before absent keys, the slots that were written are the first. -/
theorem Dumped.gap_iff {keys : List Bytes} {t : Trace} {slots : List (Option DumpObj)} (h : Dumped keys t slots) (ht : Timed t) :
    valuesDumped t = written slots ∧ ((t.Pairwise fun e e' => e.isAbsent = true → e'.isValue = false) ↔
      ∃ objs, readObjs (written slots) slots = some objs) := by
  induction h with
  | nil => exact ⟨rfl, iff_of_true .nil ⟨[], rfl⟩⟩
  | @skip key keys u t slots hskip hd ih =>
    cases hskip with
    | gone val a ha =>
      obtain ⟨n, rfl⟩ := ht key a (by simp)
      rcases ha with ha | ha <;> cases ha
    | absent a ha =>
      obtain ⟨hcount, hgap⟩ := ih (timed_cons_dump.mp ht)
      have habsent : Event.isAbsent ⟨.dump key, a⟩ = true := by rcases ha with rfl | rfl <;> rfl
      have hnone : valuesDumped ([⟨.dump key, a⟩] ++ t) = valuesDumped t := by
        rw [valuesDumped_append]
        rcases ha with rfl | rfl <;> simp [valuesDumped, Event.isValue]
      have hzero : (∀ e ∈ t, e.isValue = false) ↔ written slots = 0 := by
        rw [← hcount, valuesDumped, List.countP_eq_zero]
        simp
      refine ⟨by rw [hnone, hcount, written_cons]; rfl, ?_⟩
      rw [List.singleton_append, List.pairwise_cons, written_cons, Option.isSome_none, if_neg Bool.false_ne_true, Nat.add_zero]
      simp only [habsent, forall_const]
      rw [hzero]
      constructor
      · rintro ⟨hw, -⟩
        exact ⟨[], by rw [hw]; rfl⟩
      · rintro ⟨objs, hread⟩
        cases hw : written slots with
        | zero => exact ⟨rfl, List.pairwise_of_forall_mem_list fun e _ e' he' _ => hzero.mpr hw e' he'⟩
        | succ k =>
          rw [hw] at hread
          cases hread
  | @dump keys t slots obj hd ih =>
    obtain ⟨hcount, hgap⟩ := ih (timed_append.mp ht).2
    have hone : valuesDumped obj.dumpEvents = 1 := rfl
    refine ⟨by rw [valuesDumped_append, hone, hcount, written_cons, Nat.add_comm]; rfl, ?_⟩
    have hfirst : Event.isAbsent ⟨.dump obj.key, Reply.string obj.val⟩ = false := rfl
    have hsecond : Event.isAbsent ⟨.pttl obj.key, Reply.integer obj.ttlms⟩ = false := rfl
    rw [DumpObj.dumpEvents, List.cons_append, List.singleton_append, List.pairwise_cons, List.pairwise_cons, hgap, written_cons,
      Option.isSome_some, if_pos rfl, readObjs]
    simp [hfirst, hsecond]

/-- Dumping that gets through has not met an error. -/
theorem Dumped.not_badDump {keys : List Bytes} {t : Trace} {slots : List (Option DumpObj)} (h : Dumped keys t slots) :
    ∀ key a, (⟨.dump key, a⟩ : Event) ∈ t → Reply.badDump a = false := by
  induction h with
  | nil => exact fun key a hm => (List.not_mem_nil hm).elim
  | skip hskip hd ih =>
    intro key a hm
    rcases List.mem_append.mp hm with hm | hm
    · cases hskip with
      | absent b hb =>
        cases List.mem_singleton.mp hm
        rcases hb with rfl | rfl <;> rfl
      | gone val b hb =>
        rcases List.mem_cons.mp hm with he | hm
        · cases he
          rfl
        · cases List.mem_singleton.mp hm
    · exact ih key a hm
  | dump obj hd ih =>
    intro key a hm
    rcases List.mem_append.mp hm with hm | hm
    · rcases List.mem_cons.mp hm with he | hm
      · cases he
        rfl
      · cases List.mem_singleton.mp hm
    · exact ih key a hm

namespace Alloc
variable {uses : List Block} {heap : Heap}

/-! ### Sending -/

/-- One split is one command with its objects. -/
theorem doSplitRestoreCommand_objects {argv : List Bytes} {start i : Nat} (hlt : start < i) (hargv : argv.length = i * 3) :
    Spec (doSplitRestoreCommand argv start i) fun t r => ∃ sub, ∃ a : NetAnswer, t = [⟨.command sub, a⟩] ∧ sub.length / 3 = i - start ∧
      (r = SLOTS_MGRT_ERR ↔ a.ok = false) := by
  have hcn : ¬ ((i : Int) - start ≤ 0) := by omega
  have hsub : (slotsrestoreName :: (argv.drop (start * 3)).take (((i : Int) - start).toNat * 3)).length / 3 = i - start := by
    rw [List.length_cons, List.length_take, List.length_drop, hargv]
    omega
  have hne : (i : Int) - start ≠ SLOTS_MGRT_ERR := by
    rw [SLOTS_MGRT_ERR]
    omega
  simp only [doSplitRestoreCommand, if_neg hcn, Prog.perform_bind]
  refine .call fun (a : NetAnswer) => ?_
  cases a with
  | failed | missing => exact .ret ⟨_, _, rfl, hsub, iff_of_true rfl rfl⟩
  | reply r =>
    cases r with
    | error => exact .ret ⟨_, _, rfl, hsub, iff_of_true rfl rfl⟩
    | integer | status => exact .ret ⟨_, _, rfl, hsub, iff_of_false hne (by simp [NetAnswer.ok])⟩

/-- Freeing the texts of the first `k` of `i` objects. -/
theorem exact_free {i k : Nat} (hk : k ≤ i) (hheap : heap.Exact ((List.range i).map .ttl ++ uses)) :
    (freeHiRedisSlotsRestoreArgs k heap).Exact (((List.range i).drop k).map .ttl ++ uses) := by
  have hsplit := congrArg (List.map Block.ttl) (List.take_append_drop k (List.range i)).symm
  rw [List.map_append, List.take_range, Nat.min_eq_left hk] at hsplit
  rw [hsplit, List.append_assoc] at hheap
  exact hheap.giveAll

/-- **What `BatchSend_SlotsRestore` leaves behind**: nothing, unless a split fails that is neither
the first nor the last. -/
theorem batchSendLoop_spec {n : Nat} {objs : List DumpObj} {i start acc : Nat} {argv : List Bytes} (hn : i + objs.length = n)
    (hargv : argv.length = i * 3) (hle : start ≤ i) (hstart : start = i → acc = 0 ∧ objs ≠ [])
    (hheap : heap.Exact ((List.range i).map .ttl ++ uses)) :
    Spec (batchSendLoop n objs i start acc argv heap) fun t out => ∃ left, out.2.Exact (left ++ uses) ∧ (left = [] ↔
      ∀ x ∈ commands t, x.2.ok = false → (start = 0 ∧ (commands t).length = 1) ∨ start + objectsSent t = n) := by
  induction objs generalizing i start acc argv heap with
  | nil =>
    obtain rfl : i = n := hn
    have hlt : start < i := lt_of_le_of_ne hle fun heq => (hstart heq).2 rfl
    have hfree : (freeHiRedisSlotsRestoreArgs i heap).Exact ([] ++ uses) := by
      have h := exact_free (le_refl i) hheap
      rwa [List.drop_of_length_le (by simp)] at h
    simp only [batchSendLoop]
    refine (doSplitRestoreCommand_objects hlt hargv).bind ?_
    rintro t r ⟨sub, a, rfl, hsub, hr⟩
    have hlast : start + objectsSent [⟨.command sub, a⟩] = i := by
      simp [objectsSent, commands, hsub, hle]
    split
    next => exact .ret ⟨[], hfree, iff_of_true rfl fun x _ _ => .inr hlast⟩
    next => exact .ret ⟨[], hfree, iff_of_true rfl fun x _ _ => .inr hlast⟩
  | cons obj objs ih =>
    have hn' : i + 1 + objs.length = n := by
      rw [← hn, List.length_cons]
      omega
    have hargv' : (argv ++ obj.args).length = (i + 1) * 3 := by
      rw [List.length_append, hargv, args_length]
      omega
    have hheap' : (heap.take (.ttl i)).Exact ((List.range (i + 1)).map .ttl ++ uses) := by
      refine (hheap.take (.ttl i)).of_perm ?_
      rw [List.range_succ, List.map_append, List.append_assoc]
      exact List.perm_middle
    simp only [batchSendLoop]
    split
    next hacc =>
      have hlt : start < i := by
        refine lt_of_le_of_ne hle fun heq => ?_
        rw [(hstart heq).1] at hacc
        omega
      refine (doSplitRestoreCommand_objects hlt hargv).bind ?_
      rintro t r ⟨sub, a, rfl, hsub, hr⟩
      split
      next herr =>
        have hfree := exact_free (Nat.sub_le i start) hheap
        rw [show ((i - start : Nat) : Int) = (i : Int) - start by omega] at hfree
        refine .ret ⟨_, hfree, ?_⟩
        rw [List.map_eq_nil_iff, List.drop_eq_nil_iff, List.length_range]
        have hnot : ¬ start + objectsSent [⟨.command sub, a⟩] = n := by
          simp only [objectsSent, commands, List.filterMap_cons, List.filterMap_nil, List.map_cons, List.map_nil, List.sum_cons,
            List.sum_nil, hsub]
          omega
        constructor
        · exact fun hnil x _ _ => .inl ⟨by omega, rfl⟩
        · intro h
          have hzero := (h (sub, a) (List.mem_singleton.mpr rfl) (hr.mp herr)).resolve_right hnot
          omega
      next hok =>
        have hsent : commands [⟨.command sub, a⟩] = [(sub, a)] := rfl
        have haok : a.ok = true := by
          rw [← Bool.not_eq_false]
          exact fun hfail => hok (hr.mpr hfail)
        refine (ih hn' hargv' (Nat.le_succ i) (fun h => by omega) hheap').mono ?_
        rintro t out ⟨left, hleft, hiff⟩
        refine ⟨left, hleft, hiff.trans ?_⟩
        have hobjects : objectsSent ([⟨.command sub, a⟩] ++ t) = (i - start) + objectsSent t := by
          rw [objectsSent_append]
          simp [objectsSent, hsent, hsub]
        rw [commands_append, hsent, hobjects]
        constructor
        · intro h x hx hfail
          rcases List.mem_append.mp hx with hx | hx
          · rw [List.mem_singleton.mp hx] at hfail
            rw [haok] at hfail
            cases hfail
          · rcases h x hx hfail with hzero | hend
            · omega
            · exact .inr (by omega)
        · intro h x hx hfail
          have hpos := List.length_pos_of_mem hx
          rcases h x (List.mem_append_right _ hx) hfail with ⟨-, hlen⟩ | hend
          · rw [List.length_append, List.length_singleton] at hlen
            omega
          · exact .inr (by omega)
    next => exact ih hn' hargv' (by omega) (fun h => by omega) hheap'

/-- The pipeline sends no command that is answered at once. -/
theorem pipelineSlotsRestore_commands (objs : List DumpObj) : Spec (pipelineSlotsRestore objs) fun t _ => commands t = [] := by
  have happend (t t' : Trace) (h : commands t = []) (h' : commands t' = []) : commands (t ++ t') = [] := by
    rw [commands_append, h, h']
    rfl
  have hloop := @Batch.batchLoop_all _ _ _ _ appendObj awaitSplit (fun t => commands t = []) rfl happend
    (fun _ _ => .call fun _ => .ret rfl) (fun _ start i => by
      simp only [awaitSplit, doSplitPipelineGetReply]
      split
      next => exact .ret rfl
      next =>
        simp only [bind_assoc]
        refine (getReplies_spec _).bind fun t ok h => ?_
        have hret {r : Option Unit} : Spec (.ret r : Act (Option Unit)) fun t' _ => commands (t ++ t') = [] :=
          .ret (happend _ _ h.2.2.1 rfl)
        split
        next =>
          rw [pure_bind]
          split
          next => exact hret
          next => exact hret
        next =>
          rw [pure_bind]
          split
          next => exact hret
          next => exact hret)
  refine (hloop _ _ objs 0 0 0 ()).bind fun t out h => ?_
  cases out with
  | none => exact .ret (happend _ _ h rfl)
  | some u => exact .ret (happend _ _ h rfl)

theorem mgrt_net {conf : MgrtConf} (hpool : conf.slots_mgrt_threads = 0) {objs : List DumpObj} (hne : objs ≠ []) (heap : Heap) :
    Ends (mgrt conf objs heap) (fun t _ => (∀ e ∈ t, e.call.isNet = true) ∧ Fits t)
      fun t => (∀ e ∈ t, e.call.isNet = true) ∧ ¬ Fits t := by
  have h := RedisXSlot.mgrt_spec conf hne
  rw [← fst_mgrt hpool objs heap] at h
  exact h.of_map.mono (fun t out hsends => ⟨hsends.exchange.net, hsends.exchange.fits⟩)
    fun t hover => ⟨hover.net, hover.not_fits⟩

theorem mgrt_spec (conf : MgrtConf) {objs : List DumpObj} (hne : objs ≠ []) (hheap : heap.Exact uses) :
    Ends (mgrt conf objs heap) (fun t out => ∃ left, out.2.Exact (left ++ uses) ∧ (left = [] ↔ FailsAtEnds t objs.length))
      fun _ => True := by
  have hnothing {t : Trace} (ht : commands t = []) : ∃ left : List Block, heap.Exact (left ++ uses) ∧
      (left = [] ↔ FailsAtEnds t objs.length) := by
    refine ⟨[], hheap, iff_of_true rfl fun x hx => ?_⟩
    rw [ht] at hx
    exact (List.not_mem_nil hx).elim
  rw [mgrt]
  have hget := (slotsmgrtGetConnCtx_spec conf).mono (fun _ _ => id) fun _ _ => trivial
  refine hget.bind fun t ok hconn => Spec.ends ?_ _
  have ht : commands t = [] := by
    have hissued := List.subperm_nil.mp hconn.issued_subperm
    exact List.map_eq_nil_iff.mp (List.append_eq_nil_iff.mp hissued).1
  cases ok with
  | false =>
    refine .ret (hnothing ?_)
    rw [List.append_nil]
    exact ht
  | true =>
    rw [if_pos rfl, Prog.perform_bind]
    refine .call fun (a : NetAnswer) => ?_
    have hclose : Spec (do ask (.closeConn conf.host conf.port); return (SLOTS_MGRT_ERR, heap) : Act (Int × Heap)) fun t' out =>
        ∃ left, out.2.Exact (left ++ uses) ∧ (left = [] ↔ FailsAtEnds (t ++ ⟨.select conf.db, a⟩ :: t') objs.length) :=
      .call fun _ => .ret (hnothing (by rw [commands_append, ht]; rfl))
    have hsend {send : Act (Int × Heap)} (h : Spec send fun t out =>
        ∃ left, out.2.Exact (left ++ uses) ∧ (left = [] ↔ FailsAtEnds t objs.length)) : Spec (do
          let (ret, heap) ← send
          ask (.closeConn conf.host conf.port)
          return (ret, heap)) fun t' out =>
        ∃ left, out.2.Exact (left ++ uses) ∧ (left = [] ↔ FailsAtEnds (t ++ ⟨.select conf.db, a⟩ :: t') objs.length) := by
      refine h.bind fun t' out ⟨left, hleft, hiff⟩ => .call fun u => .ret ⟨left, hleft, hiff.trans (failsAtEnds_congr ?_ _)⟩
      have hselect : commands [⟨.select conf.db, a⟩] = [] := rfl
      have hcloses : commands [⟨.closeConn conf.host conf.port, u⟩] = [] := rfl
      rw [show t ++ ⟨.select conf.db, a⟩ :: (t' ++ [⟨.closeConn conf.host conf.port, u⟩]) =
        t ++ ([⟨.select conf.db, a⟩] ++ (t' ++ [⟨.closeConn conf.host conf.port, u⟩])) from rfl]
      rw [commands_append, commands_append, commands_append, ht, hselect, hcloses, List.append_nil]
      rfl
    cases a with
    | failed | missing => exact hclose
    | reply r =>
      cases r with
      | error => exact hclose
      | integer | status =>
        by_cases hpipe : (conf.mgrtType.any isWithPipeline && !conf.async) = true
        · simp only [if_pos hpipe]
          refine hsend ?_
          rw [map_eq_pure_bind]
          refine (pipelineSlotsRestore_commands objs).bind fun t' ret hcmds => .ret (hnothing ?_)
          rw [List.append_nil]
          exact hcmds
        · simp only [if_neg hpipe]
          refine hsend ((batchSendLoop_spec (Nat.zero_add _) rfl (le_refl 0) (fun _ => ⟨rfl, hne⟩) hheap).mono ?_)
          rintro t' out ⟨left, hleft, hiff⟩
          refine ⟨left, hleft, hiff.trans ?_⟩
          simp only [FailsAtEnds, true_and, Nat.zero_add]

end Alloc

/-! ### The whole migration -/

theorem released_iff_of_exact {r : Int} {heap : Heap} {left : List Block} (h : heap.Exact left) :
    Released (some (r, heap)) ↔ left = [] := by
  constructor
  · rintro ⟨r', heap', heq, hheld, -⟩
    cases heq
    exact List.perm_nil.mp (hheld ▸ h.perm.symm)
  · rintro rfl
    exact ⟨r, heap, rfl, List.perm_nil.mp h.perm, h.ok⟩

/-- After dumping, only what is sent matters. -/
theorem givesBack_append {keys : List Bytes} {t u : Trace} {slots : List (Option DumpObj)} (hd : Dumped keys t slots)
    (hu : ∀ e ∈ u, ∀ key, e.call ≠ .dump key ∧ e.call ≠ .pttl key) : GivesBack (t ++ u) ↔
      Timed t ∧ (∃ objs, readObjs (written slots) slots = some objs) ∧ FailsAtEnds u (written slots) ∧ Fits u := by
  have hvalues : ∀ e ∈ u, e.isValue = false := by
    rintro ⟨c, a⟩ he
    cases c with
    | dump key => exact absurd rfl (hu _ he key).1
    | _ => rfl
  have habsent : ∀ e ∈ u, e.isAbsent = false := by
    rintro ⟨c, a⟩ he
    cases c with
    | dump key => exact absurd rfl (hu _ he key).1
    | _ => rfl
  have htimed : Timed u := fun key a hm => absurd rfl (hu _ hm key).2
  have hzero : valuesDumped u = 0 := List.countP_eq_zero.mpr fun e he => by simp [hvalues e he]
  have hcmds : commands (t ++ u) = commands u := by rw [commands_append, hd.onlyDumps.quiet.1, List.nil_append]
  have hpair : ((t ++ u).Pairwise fun e e' => e.isAbsent = true → e'.isValue = false) ↔
      t.Pairwise fun e e' => e.isAbsent = true → e'.isValue = false := by
    rw [List.pairwise_append]
    refine and_iff_left_of_imp fun _ => ⟨List.pairwise_of_forall_mem_list fun e _ e' he' _ => hvalues e' he', ?_⟩
    exact fun e _ e' he' _ => hvalues e' he'
  constructor
  · intro h
    have ht := (timed_append.mp h.timed).1
    obtain ⟨hcount, hgap⟩ := hd.gap_iff ht
    refine ⟨ht, hgap.mp (hpair.mp h.gap), (failsAtEnds_congr hcmds _).mp ?_, (fits_append.mp h.fits).2⟩
    have hsplit := h.split
    rwa [valuesDumped_append, hzero, hcount, Nat.add_zero] at hsplit
  · rintro ⟨ht, hread, hsplit, hfits⟩
    obtain ⟨hcount, hgap⟩ := hd.gap_iff ht
    refine ⟨fits_append.mpr ⟨hd.onlyDumps.clean.fits, hfits⟩, timed_append.mpr ⟨ht, htimed⟩,
      fun key a hm hbad => ?_, hpair.mpr (hgap.mpr hread), ?_⟩
    · rcases List.mem_append.mp hm with hm | hm
      · rw [hd.not_badDump key a hm] at hbad
        cases hbad
      · exact absurd rfl (hu _ hm key).1
    · rw [valuesDumped_append, hzero, hcount, Nat.add_zero]
      exact (failsAtEnds_congr hcmds _).mpr hsplit

/-- A migration that has sent, or tried to, and has freed its objects. -/
theorem released_sent_iff {keys : List Bytes} {t t' u : Trace} {slots : List (Option DumpObj)} {objs : List DumpObj}
    (hd : Dumped keys t slots) (hread : readObjs (written slots) slots = some objs) {left sent : List Block}
    (htimed : left = [] ↔ Timed t) (hends : sent = [] ↔ FailsAtEnds t' (written slots)) {heap : Heap}
    (hheap : heap.Exact (sent ++ left)) (hnet : ∀ e ∈ t', e.call.isNet = true) (hfits : Fits t')
    (hu : ∀ e ∈ u, ∃ key, e.call = .unlink key) (r : Int) : Released (some (r, heap)) ↔ GivesBack (t ++ (t' ++ u)) := by
  have hunlinks : commands u = [] := by
    refine List.filterMap_eq_nil_iff.mpr ?_
    rintro ⟨c, a⟩ he
    obtain ⟨key, hc⟩ := hu _ he
    cases hc
    rfl
  have hcmds : commands (t' ++ u) = commands t' := by rw [commands_append, hunlinks, List.append_nil]
  have hquiet : ∀ e ∈ t' ++ u, ∀ key, e.call ≠ .dump key ∧ e.call ≠ .pttl key := by
    intro e he key
    rcases List.mem_append.mp he with he | he
    · have hcall := hnet e he
      constructor <;>
      · intro hc
        rw [hc] at hcall
        cases hcall
    · obtain ⟨k, hc⟩ := hu e he
      rw [hc]
      exact ⟨nofun, nofun⟩
  rw [released_iff_of_exact hheap, List.append_eq_nil_iff, hends, htimed, givesBack_append hd hquiet, failsAtEnds_congr hcmds,
    and_comm]
  refine and_congr_right fun _ => ?_
  rw [and_iff_right (⟨objs, hread⟩ : ∃ objs, readObjs (written slots) slots = some objs)]
  exact (and_iff_left (fits_append.mpr ⟨hfits, (unlinks_clean hu).fits⟩)).symm

/-- A migration that a dump error ends gives back nothing. -/
theorem givesBack_dumpError {t : Trace} (honly : OnlyDumps t) (hd : DumpError t) (htimed : valuesDumped t = 0 → Timed t) :
    GivesBack t ↔ valuesDumped t = 0 := by
  constructor
  · intro h
    rcases hd with ⟨key, a, hm, hbad⟩ | ⟨key, a, hm, hbad⟩
    · exact h.failure key a hm hbad
    · obtain ⟨n, rfl⟩ := h.timed key a hm
      cases hbad
  · intro hzero
    have hvalues : ∀ e ∈ t, e.isValue = false := fun e he => by
      have h := List.countP_eq_zero.mp hzero e he
      rwa [Bool.not_eq_true] at h
    refine ⟨honly.clean.fits, htimed hzero, fun _ _ _ _ => hzero,
      List.pairwise_of_forall_mem_list fun e _ e' he' _ => hvalues e' he', ?_⟩
    intro x hx
    rw [honly.quiet.1] at hx
    exact (List.not_mem_nil hx).elim

open Alloc in
/-- **When a migration gives back all that it allocated**, and returns: if every key that DUMP finds has a
TTL, no DUMP fails once one has found its key, the keys that are found come before those that are
absent, no split fails but the first or the last, and the text of a connect that fails fits in `errLog`. -/
theorem released_iff {conf : MgrtConf} (hpool : conf.slots_mgrt_threads = 0) {keys : List Bytes} {t : Trace}
    {o : Option (Int × Heap)} (h : Runs (Alloc.migrateKeys conf keys .init) t o) : Released o ↔ GivesBack t := by
  have hinit : (.init : Heap).Exact [] := Ledger.exact_init
  rw [Alloc.migrateKeys] at h
  split at h
  next =>
    obtain ⟨rfl, rfl⟩ := Runs.ret_iff.mp h
    exact iff_of_true ((released_iff_of_exact hinit).mpr rfl)
      ⟨fits_nil, timed_nil, fun _ _ hm => (List.not_mem_nil hm).elim, .nil, fun _ hx => (List.not_mem_nil hx).elim⟩
  next hlen =>
    rw [Alloc.getRdbDumpObjs, if_neg hlen] at h
    obtain ⟨⟨⟨ret, slots⟩, heap⟩, t₁, t₂, rfl, hdump, hrest⟩ := (Alloc.dumpLoop_spec keys 0 [] hinit).bind_runs h
    rcases hdump with ⟨herr, honly, hd, left, hheap, hzero, htimed⟩ | ⟨slots, left, hd, hout, hheap, htimed⟩
    · obtain rfl : ret = SLOTS_MGRT_ERR := herr
      -- The count is -1, so nothing is freed.
      obtain ⟨rfl, rfl⟩ := Runs.ret_iff.mp hrest
      rw [List.append_nil] at hheap
      rw [List.append_nil, released_iff_of_exact hheap, hzero]
      exact (givesBack_dumpError honly hd fun h => htimed (hzero.mpr h)).symm
    · obtain ⟨hret, rfl⟩ := Prod.mk.inj hout
      rw [Int.zero_add] at hret
      subst hret
      rw [List.length_nil, List.append_nil] at hheap
      by_cases hw : written slots = 0
      · simp only [hw, Nat.cast_zero, SLOTS_MGRT_NOTHING, if_true] at hrest
        obtain ⟨rfl, rfl⟩ := Runs.ret_iff.mp hrest
        rw [slotBlocks_eq_nil hw, List.nil_append] at hheap
        rw [released_iff_of_exact hheap, htimed, givesBack_append hd (fun e he => (List.not_mem_nil he).elim), hw]
        refine (and_iff_left ⟨⟨[], rfl⟩, fun x hx => ?_, fits_nil⟩).symm
        exact (List.not_mem_nil hx).elim
      · have hne : ¬ ((written slots : Int) = SLOTS_MGRT_NOTHING) := by
          rw [SLOTS_MGRT_NOTHING]
          omega
        simp only [if_neg hne, if_neg (natCast_ne_err _), Int.toNat_natCast] at hrest
        cases hread : readObjs (written slots) slots with
        | none =>
          rw [hread] at hrest
          obtain ⟨rfl, rfl⟩ := Runs.fault_iff.mp hrest
          refine iff_of_false (fun hreleased => ?_) fun hback => ?_
          · obtain ⟨_, _, heq, -⟩ := hreleased
            cases heq
          obtain ⟨objs, hobjs⟩ := ((givesBack_append hd fun e he => (List.not_mem_nil he).elim).mp hback).2.1
          rw [hread] at hobjs
          cases hobjs
        | some objs =>
          rw [hread] at hrest
          have hlength := readObjs_length hread
          have hobjs : objs ≠ [] := by
            rintro rfl
            exact hw hlength.symm
          rcases ((Alloc.mgrt_spec conf hobjs hheap).and (Alloc.mgrt_net hpool hobjs heap)).bind_runs hrest with
            ⟨⟨m_ret, heap₂⟩, t', u, rfl, ⟨⟨left₂, hheap₂, hends⟩, hnet, hfits⟩, hrest⟩ | ⟨rfl, -, -, hover⟩
          case inr =>
            refine iff_of_false (fun hreleased => ?_) fun hback => hover (fits_append.mp hback.fits).2
            obtain ⟨_, _, heq, -⟩ := hreleased
            cases heq
          rw [hlength] at hends
          have hheap₂ : heap₂.Exact (slotBlocks 0 slots ++ (left₂ ++ left)) := by
            refine hheap₂.of_perm (List.perm_iff_count.mpr fun b => ?_)
            simp only [List.count_append]
            omega
          obtain ⟨heap₃, hfree, hheap₃⟩ := freeDumpObjsFrom_spec hread 0 hheap₂
          simp only [freeDumpObjs, Int.toNat_natCast, hfree, Prog.ret_bind] at hrest
          have hstop {r : Int} (hret : Runs (.ret (r, heap₃) : Act (Int × Heap)) u o) :
              Released o ↔ GivesBack (t₁ ++ (t' ++ u)) := by
            obtain ⟨rfl, rfl⟩ := Runs.ret_iff.mp hret
            exact released_sent_iff hd hread htimed hends hheap₃ hnet hfits (fun e he => (List.not_mem_nil he).elim) r
          split at hrest
          next => exact hstop hrest
          next =>
            split at hrest
            next => exact hstop hrest
            next =>
              obtain ⟨r, u, u', rfl, ⟨k, hcalls, -⟩, hrest⟩ := (delLoop_spec keys 0).bind_runs hrest
              obtain ⟨rfl, rfl⟩ := Runs.ret_iff.mp hrest
              rw [List.append_nil]
              exact released_sent_iff hd hread htimed hends hheap₃ hnet hfits (exists_unlink hcalls) r

/-- A key is dumped, and the target cannot be reached. -/
def unreachableTarget : Trace :=
  [⟨.dump [97], Reply.string [1]⟩, ⟨.pttl [97], Reply.integer (-1)⟩, ⟨.getTid, worker⟩, ⟨.cachedConn workerConn, false⟩,
    ⟨.connect [104] [49] workerConn, .err []⟩]

theorem released_iff_unreachable : Released (some (SLOTS_MGRT_ERR, ⟨[], false⟩)) ↔ GivesBack unreachableTarget :=
  @released_iff oneConnection rfl [[97]] _ _ (.call _ (.call _ (.call _ (.call _ (.call _ (.ret _))))))

/-- The second of two dumps fails, and the first object stays behind. -/
theorem not_released : ∃ t o, Runs (Alloc.migrateKeys oneConnection [[97], [98]] .init) t o ∧ ¬ Released o := by
  refine ⟨[⟨.dump [97], Reply.string [1]⟩, ⟨.pttl [97], Reply.integer (-1)⟩, ⟨.dump [98], Reply.error⟩],
    some (SLOTS_MGRT_ERR, ⟨[.obj 0, .val 0], false⟩), .call _ (.call _ (.call _ (.ret _))), ?_⟩
  rintro ⟨r, heap, heq, hheld, -⟩
  cases heq
  cases hheld

end RedisXSlot
