import XLayerErigon.Concurrent.WorkerPool
import XLayerErigon.Data.Bytes
import XLayerErigon.Go

/-
  Decoding the transactions that the pool yields, with a number of workers.

  The workers answer in any order; the results are put back into the order of the slots.  A slot
  whose bytes cannot be decoded is reported for removal, but one on which the decoder says that
  the input has ended is not.

  Main results:
    * `collect_gathers`
    * `extractTransactionsFromSlot_iff`
-/

namespace XLayerErigon.Sequencer

open Relation Concurrent

-- Slots

abbrev Hash := BitVec 256

abbrev Address := BitVec 160

/- What the pool yields: three slices of one length. -/
structure TxsRlp where
  txIds : List Hash
  txs : List Bytes
  senders : List Address

structure Slot where
  txBytes : Bytes
  id : Hash
  sender : Address

def TxsRlp.ofSlots (slots : List Slot) : TxsRlp where
  txIds := slots.map Slot.id
  txs := slots.map Slot.txBytes
  senders := slots.map Slot.sender

inductive DecodeError where
  | eof : DecodeError
  | other (message : String) : DecodeError
  deriving DecidableEq, Repr

/-
  The transactions of the node, with the decoders of the two formats of which `decodeTransaction`
  chooses one.
-/
structure TxType (Tx : Type) where
  unmarshalTransactionFromBinary : Bytes → Except DecodeError Tx
  decodeRLPTransaction : Bytes → Except DecodeError Tx
  setSender : Address → Tx → Tx

variable {Tx : Type}

def decodeTransaction (types : TxType Tx) : Bytes → Except DecodeError Tx
  | [] => .error .eof
  | first :: rest =>
      if first.toNat < 0x80 then
        types.unmarshalTransactionFromBinary (first :: rest)
      else types.decodeRLPTransaction (first :: rest)

structure Task where
  idx : Nat
  txBytes : Bytes
  id : Hash
  sender : Address

structure Result (Tx : Type) where
  idx : Nat
  tx : Option Tx
  id : Hash
  toRemove : Bool

/- A known sender is set on the decoded transaction. -/
def withSender (types : TxType Tx) (sender : Address) (tx : Tx) : Tx :=
  if sender = 0 then tx else types.setSender sender tx

def work (types : TxType Tx) (task : Task) : Option (Result Tx) :=
  match decodeTransaction types task.txBytes with
  | .error .eof => none
  | .error (.other _) =>
    some ⟨task.idx, none, task.id, true⟩
  | .ok tx =>
    some ⟨task.idx, some (withSender types task.sender tx), task.id, false⟩

def numWorkers (numCPU : Nat) : Nat :=
  if numCPU / 2 < 1 then 1 else numCPU / 2

def distribute (slot : TxsRlp) : Except Failure (List Task) :=
  (List.range slot.txs.length).mapM (fun i =>
    sliceIndex slot.txs i >>= fun txBytes =>
    sliceIndex slot.txIds i >>= fun id =>
    sliceIndex slot.senders i >>= fun sender =>
    .ok ⟨i, txBytes, id, sender⟩)

-- Results

structure Collected (Tx : Type) where
  txMap : List (Option Tx)
  idMap : List Hash
  toRemove : List Hash

def collectResult (collected : Collected Tx) (res : Result Tx) : Except Failure (Collected Tx) :=
  if res.toRemove then
    .ok { collected with toRemove := collected.toRemove ++ [res.id] }
  else
    sliceSet collected.txMap res.idx res.tx >>= fun txMap =>
    sliceSet collected.idMap res.idx res.id >>= fun idMap =>
    .ok { collected with txMap := txMap, idMap := idMap }

def collect (count : Nat) (results : List (Result Tx)) : Except Failure (Collected Tx) :=
  results.foldlM collectResult ⟨List.replicate count none, List.replicate count 0, []⟩

def contains (slice : List Hash) (id : Hash) : Bool := slice.any (fun item => item == id)

def orderedStep (slot : TxsRlp) (collected : Collected Tx) (out : List (Option Tx) × List Hash)
    (i : Nat) : Except Failure (List (Option Tx) × List Hash) :=
  sliceIndex slot.txIds i >>= fun slotId =>
  if contains collected.toRemove slotId then .ok out
  else
    sliceIndex collected.txMap i >>= fun tx =>
    sliceIndex collected.idMap i >>= fun id =>
    .ok (out.1 ++ [tx], out.2 ++ [id])

def orderedResults (slot : TxsRlp) (collected : Collected Tx) :
    Except Failure (List (Option Tx) × List Hash) :=
  (List.range slot.txs.length).foldlM (orderedStep slot collected) ([], [])

/- What is returned once the workers are done. -/
def returned (slot : TxsRlp) (results : List (Result Tx)) :
    Except Failure (List (Option Tx) × List Hash × List Hash) :=
  collect slot.txs.length results >>= fun collected =>
  orderedResults slot collected >>= fun out =>
  .ok (out.1, out.2, collected.toRemove)

/- How `extractTransactionsFromSlot` can end, for some schedule of the workers. -/
inductive Extracts (numCPU : Nat) (types : TxType Tx) (slot : TxsRlp) :
    Except Failure (List (Option Tx) × List Hash × List Hash) → Prop
  | mismatched (hLengths : slot.txs.length ≠ slot.txIds.length) :
      Extracts numCPU types slot (.error (.error "mismatched lengths: Txs=%d, TxIds=%d"))
  | empty (hLengths : slot.txs.length = slot.txIds.length) (hEmpty : slot.txs.length = 0) :
      Extracts numCPU types slot (.ok ([], [], []))
  | panicked (hLengths : slot.txs.length = slot.txIds.length) (hEmpty : slot.txs.length ≠ 0)
      (failure : Failure) (hTasks : distribute slot = .error failure) :
      Extracts numCPU types slot (.error failure)
  | finished (hLengths : slot.txs.length = slot.txIds.length) (hEmpty : slot.txs.length ≠ 0)
      (tasks : List Task) (hTasks : distribute slot = .ok tasks) (pool : Pool Task (Result Tx))
      (hRun : ReflTransGen (Pool.Step (numWorkers numCPU) slot.txs.length
        (work types)) (Pool.start tasks) pool) (hDone : pool.Done) :
      Extracts numCPU types slot (returned slot pool.results)

/- No schedule goes on for ever or leaves a worker waiting. -/
def WorkersReturn (numCPU : Nat) (types : TxType Tx) (slot : TxsRlp) : Prop :=
  ∀ tasks, distribute slot = .ok tasks →
    (¬ ∃ run : Nat → Pool Task (Result Tx),
      ∀ n, Pool.Step (numWorkers numCPU) slot.txs.length (work types) (run n) (run (n + 1))) ∧
    ∀ pool : Pool Task (Result Tx), ReflTransGen
        (Pool.Step (numWorkers numCPU) slot.txs.length (work types)) (Pool.start tasks) pool →
      Stuck (Pool.Step (numWorkers numCPU) slot.txs.length (work types)) pool → pool.Done

/-
  The entries are those of the slots at some positions, in order, and every other slot is reported
  for removal.
-/
def Partitioned (types : TxType Tx) (slots : List Slot) (txs : List (Option Tx))
    (ids toRemove : List Hash) : Prop :=
  ∃ positions : List Nat, positions.Pairwise (· < ·) ∧ List.Forall₂ (fun i tx =>
    ∃ slot, slots[i]? = some slot ∧
      ∃ decoded, decodeTransaction types slot.txBytes = .ok decoded ∧
        tx = some (withSender types slot.sender decoded))
    positions txs ∧
    List.Forall₂ (fun i id => ∃ slot, slots[i]? = some slot ∧ id = slot.id) positions ids ∧
    (∀ i slot, slots[i]? = some slot → (i ∈ positions ↔ slot.id ∉ toRemove)) ∧
    ∀ id ∈ toRemove, ∃ slot ∈ slots, slot.id = id

/- For every schedule, nothing is lost. -/
def ExtractsAll (numCPU : Nat) (types : TxType Tx) (slots : List Slot) : Prop :=
  WorkersReturn numCPU types (TxsRlp.ofSlots slots) ∧
  ∀ out, Extracts numCPU types (TxsRlp.ofSlots slots) out →
    ∃ txs ids toRemove, out = .ok (txs, ids, toRemove) ∧
      txs.length = ids.length ∧ Partitioned types slots txs ids toRemove

-- Tasks

def Slot.task (slot : Slot) (i : Nat) : Task := ⟨i, slot.txBytes, slot.id, slot.sender⟩

def tasksOf (slots : List Slot) : List Task := slots.zipIdx.map (fun place => place.1.task place.2)

variable {txs : List (Option Tx)} {collected : Collected Tx} {types : TxType Tx}
  {results : List (Result Tx)} {slots : List Slot}

theorem mapM_of_forall₂ {α β : Type} {f : α → Except Failure β} {xs : List α} {ys : List β}
    (hEach : List.Forall₂ (fun x y => f x = .ok y) xs ys) : xs.mapM f = .ok ys := by
  induction hEach with
  | nil => rfl
  | cons hHead _ ih =>
    rw [List.mapM_cons, hHead, ok_bind, ih]
    rfl

theorem length_tasksOf (slots : List Slot) : (tasksOf slots).length = slots.length := by
  simp [tasksOf]

theorem distribute_ofSlots (slots : List Slot) :
    distribute (TxsRlp.ofSlots slots) = .ok (tasksOf slots) := by
  refine mapM_of_forall₂ ?_
  rw [List.forall₂_iff_get]
  refine ⟨by simp [TxsRlp.ofSlots, tasksOf], ?_⟩
  intro i hLeft hRight
  have hSlot : i < slots.length := by simpa [tasksOf] using hRight
  simp [TxsRlp.ofSlots, tasksOf, Slot.task, sliceIndex, hSlot]

theorem mem_tasksOf {task : Task} :
    task ∈ tasksOf slots ↔ ∃ i, ∃ slot : Slot, slots[i]? = some slot ∧ task = slot.task i := by
  simp only [tasksOf, List.mem_map, Prod.exists, List.mk_mem_zipIdx_iff_getElem?]
  constructor
  · rintro ⟨slot, i, hAt, hTask⟩
    exact ⟨i, slot, hAt, hTask.symm⟩
  · rintro ⟨i, slot, hAt, hTask⟩
    exact ⟨slot, i, hAt, hTask.symm⟩

theorem work_idx {task : Task} {res : Result Tx} (hWork : work types task = some res) :
    res.idx = task.idx := by
  unfold work at hWork
  split at hWork
  · cases hWork
  · cases hWork
    rfl
  · cases hWork
    rfl

theorem filterMap_work_idx_sublist (types : TxType Tx) (tasks : List Task) :
    ((tasks.filterMap (work types)).map Result.idx).Sublist (tasks.map Task.idx) := by
  induction tasks with
  | nil => simp
  | cons task rest ih =>
    cases hWork : work types task with
    | none =>
      rw [List.filterMap_cons_none hWork]
      exact ih.cons _
    | some res =>
      rw [List.filterMap_cons_some hWork, List.map_cons, List.map_cons, work_idx hWork]
      exact ih.cons_cons _

/- The results of one run, in the order they came in. -/
structure ResultsOf
    (types : TxType Tx) (slots : List Slot) (results : List (Result Tx)) : Prop where
  nodup : (results.map Result.idx).Nodup
  mem_iff : ∀ res, res ∈ results ↔
    ∃ i, ∃ slot : Slot, slots[i]? = some slot ∧ work types (slot.task i) = some res

theorem resultsOf_perm (hPerm : results.Perm ((tasksOf slots).filterMap (work types))) :
    ResultsOf types slots results := by
  refine ⟨?_, ?_⟩
  · have hIdx : ((tasksOf slots).map Task.idx).Nodup := by
      have hRange : (tasksOf slots).map Task.idx = List.range slots.length := by
        simp only [tasksOf, List.map_map]
        exact List.zipIdx_map_snd 0 slots |>.trans (List.range_eq_range' ).symm
      rw [hRange]
      exact List.nodup_range
    rw [(hPerm.map Result.idx).nodup_iff]
    exact hIdx.sublist (filterMap_work_idx_sublist types (tasksOf slots))
  · intro res
    rw [hPerm.mem_iff, List.mem_filterMap]
    constructor
    · rintro ⟨task, hTask, hWork⟩
      rcases mem_tasksOf.1 hTask with ⟨i, slot, hAt, rfl⟩
      exact ⟨i, slot, hAt, hWork⟩
    · rintro ⟨i, slot, hAt, hWork⟩
      exact ⟨slot.task i, mem_tasksOf.2 ⟨i, slot, hAt, rfl⟩, hWork⟩

-- Collecting

/- What the two maps hold after some of the results. -/
structure Gathers (count : Nat) (results : List (Result Tx)) (collected : Collected Tx) : Prop where
  txLength : collected.txMap.length = count
  idLength : collected.idMap.length = count
  kept : ∀ res ∈ results, res.toRemove = false →
    collected.txMap[res.idx]? = some res.tx ∧ collected.idMap[res.idx]? = some res.id
  removed : ∀ id, id ∈ collected.toRemove ↔ ∃ res ∈ results, res.toRemove = true ∧ res.id = id

theorem Gathers.step {count : Nat} (hGathers : Gathers count results collected) {res : Result Tx}
    (hIdx : res.idx < count) (hNew : res.idx ∉ results.map Result.idx) :
    ∃ next, collectResult collected res = .ok next ∧ Gathers count (results ++ [res]) next := by
  cases hRemove : res.toRemove with
  | true =>
    refine ⟨_, by rw [collectResult, if_pos hRemove], ?_⟩
    refine ⟨hGathers.txLength, hGathers.idLength, ?_, ?_⟩
    · intro other hOther hKept
      rcases List.mem_append.1 hOther with hOld | hLast
      · exact hGathers.kept other hOld hKept
      · rw [List.mem_singleton.1 hLast, hRemove] at hKept
        cases hKept
    · intro id
      simp only [List.mem_append, List.mem_singleton, hGathers.removed id]
      grind
  | false =>
    have hTx : res.idx < collected.txMap.length := hGathers.txLength ▸ hIdx
    have hId : res.idx < collected.idMap.length := hGathers.idLength ▸ hIdx
    refine ⟨_, by
      rw [collectResult, if_neg (by simp [hRemove]), sliceSet_of_lt _ hTx, ok_bind,
        sliceSet_of_lt _ hId, ok_bind], ?_⟩
    refine ⟨?_, ?_, ?_, ?_⟩
    · simpa using hGathers.txLength
    · simpa using hGathers.idLength
    · intro other hOther hKept
      rcases List.mem_append.1 hOther with hOld | hLast
      · have hNe : res.idx ≠ other.idx := by
          intro hSame
          exact hNew (hSame ▸ List.mem_map_of_mem hOld)
        simp only [List.getElem?_set_ne hNe]
        exact hGathers.kept other hOld hKept
      · rw [List.mem_singleton.1 hLast]
        simp [hTx, hId]
    · intro id
      simp only [hGathers.removed id, List.mem_append, List.mem_singleton]
      grind

theorem Gathers.run {count : Nat} {before rest : List (Result Tx)}
    (hGathers : Gathers count before collected) (hIdx : ∀ res ∈ rest, res.idx < count)
    (hNodup : ((before ++ rest).map Result.idx).Nodup) :
    ∃ last, rest.foldlM collectResult collected = .ok last ∧
      Gathers count (before ++ rest) last := by
  induction rest generalizing before collected with
  | nil => exact ⟨collected, rfl, by simpa using hGathers⟩
  | cons res rest ih =>
    have hNew : res.idx ∉ before.map Result.idx := by
      intro hMem
      rw [List.map_append, List.nodup_append] at hNodup
      exact hNodup.2.2 _ hMem _ (List.mem_map_of_mem List.mem_cons_self) rfl
    rcases hGathers.step (hIdx res List.mem_cons_self) hNew with ⟨next, hStep, hNext⟩
    rcases ih hNext (fun other hOther =>
      hIdx other (List.mem_cons_of_mem _ hOther)) (by simpa using hNodup) with ⟨last, hRest, hLast⟩
    refine ⟨last, ?_, by simpa using hLast⟩
    rw [List.foldlM_cons, hStep, ok_bind, hRest]

theorem collect_gathers (hResults : ResultsOf types slots results) : ∃ collected,
      collect slots.length results = .ok collected ∧ Gathers slots.length results collected := by
  have hStart : @Gathers Tx slots.length []
        ⟨List.replicate slots.length none, List.replicate slots.length 0, []⟩ :=
    ⟨by simp, by simp, by simp, by simp⟩
  refine hStart.run ?_ (by simpa using hResults.nodup)
  intro res hRes
  rcases (hResults.mem_iff res).1 hRes with ⟨i, slot, hAt, hWork⟩
  rw [work_idx hWork]
  exact (List.getElem?_eq_some_iff.1 hAt).1

theorem contains_iff {slice : List Hash} {id : Hash} : contains slice id = true ↔ id ∈ slice := by
  simp [contains]

/- The positions up to `n` that are not reported. -/
def keptPositions (slots : List Slot) (toRemove : List Hash) (n : Nat) : List Nat :=
  (List.range n).filter (fun i => !(slots.map Slot.id)[i]?.any (contains toRemove))

theorem mem_keptPositions {toRemove : List Hash} {i : Nat} {slot : Slot}
    (hAt : slots[i]? = some slot) :
    i ∈ keptPositions slots toRemove slots.length ↔ slot.id ∉ toRemove := by
  have hLt := (List.getElem?_eq_some_iff.1 hAt).1
  simp only [keptPositions, List.mem_filter, List.mem_range, hLt, true_and, List.getElem?_map, hAt,
    Option.map_some, Option.any_some, Bool.not_eq_true', ← contains_iff, Bool.not_eq_true]

theorem orderedResults_upto (hTx : collected.txMap.length = slots.length)
    (hId : collected.idMap.length = slots.length) (n : Nat) (hN : n ≤ slots.length) :
    ∃ out, (List.range n).foldlM (orderedStep (TxsRlp.ofSlots slots) collected) ([], []) = .ok out ∧
      List.Forall₂ (fun i tx => collected.txMap[i]? = some tx)
        (keptPositions slots collected.toRemove n) out.1 ∧
      List.Forall₂ (fun i id => collected.idMap[i]? = some id)
        (keptPositions slots collected.toRemove n) out.2 := by
  induction n with
  | zero => exact ⟨([], []), rfl, by simp [keptPositions], by simp [keptPositions]⟩
  | succ n ih =>
    rcases ih (by omega) with ⟨out, hOut, hTxs, hIds⟩
    have hSome : ∃ slot, slots[n]? = some slot := ⟨_, List.getElem?_eq_getElem (by omega)⟩
    rcases hSome with ⟨slot, hSlot⟩
    have hAt : (slots.map Slot.id)[n]? = some slot.id := by simp [hSlot]
    rw [List.range_succ, List.foldlM_append, hOut, ok_bind, List.foldlM_cons, orderedStep]
    simp only [TxsRlp.ofSlots, sliceIndex_of_some hAt, ok_bind, List.foldlM_nil]
    cases hGone : contains collected.toRemove slot.id with
    | true =>
      have hSame : keptPositions slots collected.toRemove (n + 1) =
            keptPositions slots collected.toRemove n := by
        simp [keptPositions, List.range_succ, List.filter_append, hSlot, hGone]
      exact ⟨out, by simp, hSame ▸ hTxs, hSame ▸ hIds⟩
    | false =>
      have hNext : keptPositions slots collected.toRemove (n + 1) =
            keptPositions slots collected.toRemove n ++ [n] := by
        simp [keptPositions, List.range_succ, List.filter_append, hSlot, hGone]
      have hTxAt : ∃ tx, collected.txMap[n]? = some tx := ⟨_, List.getElem?_eq_getElem (by omega)⟩
      have hIdAt : ∃ id, collected.idMap[n]? = some id := ⟨_, List.getElem?_eq_getElem (by omega)⟩
      rcases hTxAt with ⟨tx, hTxAt⟩
      rcases hIdAt with ⟨id, hIdAt⟩
      refine ⟨(out.1 ++ [tx], out.2 ++ [id]), ?_, ?_, ?_⟩
      · simp [sliceIndex_of_some hTxAt, sliceIndex_of_some hIdAt]
      · rw [hNext]
        exact List.rel_append hTxs (.cons hTxAt .nil)
      · rw [hNext]
        exact List.rel_append hIds (.cons hIdAt .nil)

-- All schedules

/- What one schedule returns.  The entries are read off the maps at the positions not reported. -/
structure Returns (types : TxType Tx) (slots : List Slot) (results : List (Result Tx))
    (collected : Collected Tx) (txs : List (Option Tx)) (ids : List Hash) : Prop where
  resultsOf : ResultsOf types slots results
  gathers : Gathers slots.length results collected
  txsAt : List.Forall₂ (fun i tx => collected.txMap[i]? = some tx)
    (keptPositions slots collected.toRemove slots.length) txs
  idsAt : List.Forall₂ (fun i id => collected.idMap[i]? = some id)
    (keptPositions slots collected.toRemove slots.length) ids

theorem returned_ok (hResults : ResultsOf types slots results) : ∃ collected txs ids,
      returned (TxsRlp.ofSlots slots) results = .ok (txs, ids, collected.toRemove) ∧
      Returns types slots results collected txs ids := by
  rcases collect_gathers hResults with ⟨collected, hCollect, hGathers⟩
  rcases orderedResults_upto hGathers.txLength hGathers.idLength slots.length le_rfl with
    ⟨out, hOut, hTxs, hIds⟩
  have hCount : (TxsRlp.ofSlots slots).txs.length = slots.length := by simp [TxsRlp.ofSlots]
  refine ⟨collected, out.1, out.2, ?_, hResults, hGathers, hTxs, hIds⟩
  rw [returned, hCount, hCollect, ok_bind, orderedResults, hCount, hOut, ok_bind]

section

variable {ids : List Hash} (hReturns : Returns types slots results collected txs ids)

include hReturns

/- A slot is reported if and only if one with its id is bad. -/
theorem Returns.mem_toRemove (id : Hash) : id ∈ collected.toRemove ↔
      ∃ slot ∈ slots, slot.id = id ∧ ∃ message,
        decodeTransaction types slot.txBytes = .error (.other message) := by
  rw [hReturns.gathers.removed]
  constructor
  · rintro ⟨res, hRes, hRemove, hId⟩
    rcases (hReturns.resultsOf.mem_iff res).1 hRes with ⟨i, slot, hAt, hWork⟩
    refine ⟨slot, List.mem_of_getElem? hAt, ?_⟩
    unfold work at hWork
    split at hWork
    · cases hWork
    · rename_i message hDecode
      cases hWork
      exact ⟨hId, message, hDecode⟩
    · cases hWork
      cases hRemove
  · rintro ⟨slot, hSlot, hId, message, hDecode⟩
    rcases List.getElem?_of_mem hSlot with ⟨i, hAt⟩
    refine ⟨⟨i, none, slot.id, true⟩, (hReturns.resultsOf.mem_iff _).2 ⟨i, slot, hAt, ?_⟩, rfl, hId⟩
    simp only [work, Slot.task, hDecode]

/- The entries of a slot that was decoded. -/
theorem Returns.decoded {i : Nat} {slot : Slot} (hAt : slots[i]? = some slot) {tx : Tx}
    (hDecode : decodeTransaction types slot.txBytes = .ok tx) : collected.txMap[i]? =
        some (some (withSender types slot.sender tx)) ∧
      collected.idMap[i]? = some slot.id := by
  have hMem := (hReturns.resultsOf.mem_iff
    ⟨i, some (withSender types slot.sender tx), slot.id, false⟩).2 ⟨i, slot, hAt, by
      simp only [work, Slot.task, hDecode]⟩
  exact hReturns.gathers.kept _ hMem rfl

/- No slot is left without an answer. -/
def Answered (types : TxType Tx) (slots : List Slot) : Prop :=
  ∀ slot ∈ slots, decodeTransaction types slot.txBytes = .error .eof →
      ∃ other ∈ slots, other.id = slot.id ∧ ∃ message,
        decodeTransaction types other.txBytes = .error (.other message)

theorem Returns.partitioned (hAnswered : Answered types slots) :
    Partitioned types slots txs ids collected.toRemove := by
  have hKept : ∀ i ∈ keptPositions slots collected.toRemove slots.length,
        ∃ slot, slots[i]? = some slot ∧ ∃ tx, decodeTransaction types slot.txBytes = .ok tx := by
    intro i hPlace
    have hLt : i < slots.length := by
      simp only [keptPositions, List.mem_filter, List.mem_range] at hPlace
      exact hPlace.1
    have hSome : ∃ slot, slots[i]? = some slot := ⟨_, List.getElem?_eq_getElem hLt⟩
    rcases hSome with ⟨slot, hAt⟩
    have hStays := (mem_keptPositions hAt).1 hPlace
    rw [hReturns.mem_toRemove] at hStays
    refine ⟨slot, hAt, ?_⟩
    have hSlot := List.mem_of_getElem? hAt
    cases hDecode : decodeTransaction types slot.txBytes with
    | ok tx => exact ⟨tx, rfl⟩
    | error failure =>
      cases failure with
      | eof => exact absurd (hAnswered slot hSlot hDecode) hStays
      | other message => exact absurd ⟨slot, hSlot, rfl, message, hDecode⟩ hStays
  refine ⟨keptPositions slots collected.toRemove slots.length, ?_, ?_, ?_, ?_, ?_⟩
  · exact List.Pairwise.filter _ List.pairwise_lt_range
  · refine List.Forall₂.imp ?_ ((List.forall₂_and_left _ _).2 ⟨hKept, hReturns.txsAt⟩)
    rintro i tx ⟨⟨slot, hAt, decoded, hDecode⟩, hTx⟩
    refine ⟨slot, hAt, decoded, hDecode, ?_⟩
    have hEntry := (hReturns.decoded hAt hDecode).1
    rw [hTx] at hEntry
    exact Option.some.inj hEntry
  · refine List.Forall₂.imp ?_ ((List.forall₂_and_left _ _).2 ⟨hKept, hReturns.idsAt⟩)
    rintro i id ⟨⟨slot, hAt, decoded, hDecode⟩, hId⟩
    refine ⟨slot, hAt, ?_⟩
    have hEntry := (hReturns.decoded hAt hDecode).2
    rw [hId] at hEntry
    exact Option.some.inj hEntry
  · intro i slot hAt
    exact mem_keptPositions hAt
  · intro id hId
    rcases (hReturns.mem_toRemove id).1 hId with ⟨slot, hSlot, hSame, _⟩
    exact ⟨slot, hSlot, hSame⟩

end

theorem numWorkers_pos (numCPU : Nat) : 0 < numWorkers numCPU := by
  unfold numWorkers
  split <;> omega

theorem workersReturn (numCPU : Nat) (types : TxType Tx) (slots : List Slot) :
    WorkersReturn numCPU types (TxsRlp.ofSlots slots) := by
  intro tasks hTasks
  rw [distribute_ofSlots] at hTasks
  cases hTasks
  have hCount : (TxsRlp.ofSlots slots).txs.length = (tasksOf slots).length := by
    simp [TxsRlp.ofSlots, length_tasksOf]
  rw [hCount]
  refine ⟨not_infinite Pool.size (fun p q hStep => hStep.size_lt), ?_⟩
  intro pool hRun hStuck
  exact Pool.stuck_done (numWorkers_pos numCPU) hRun hStuck

/- Every schedule of a list of slots returns. -/
theorem Extracts.returns {numCPU : Nat}
    {out : Except Failure (List (Option Tx) × List Hash × List Hash)}
    (hOut : Extracts numCPU types (TxsRlp.ofSlots slots) out) : ∃ results collected txs ids,
      out = .ok (txs, ids, collected.toRemove) ∧ Returns types slots results collected txs ids := by
  cases hOut with
  | mismatched hLengths => simp [TxsRlp.ofSlots] at hLengths
  | empty hLengths hEmpty =>
    have hNil : slots = [] := by simpa [TxsRlp.ofSlots] using hEmpty
    subst hNil
    refine ⟨[], ⟨[], [], []⟩, [], [], rfl, ?_, ?_, ?_, ?_⟩
    · exact ⟨by simp, by simp⟩
    · exact ⟨rfl, rfl, by simp, by simp⟩
    · simp [keptPositions]
    · simp [keptPositions]
  | panicked hLengths hEmpty failure hTasks =>
    rw [distribute_ofSlots] at hTasks
    cases hTasks
  | finished hLengths hEmpty tasks hTasks pool hRun hDone =>
    rw [distribute_ofSlots] at hTasks
    cases hTasks
    rcases returned_ok (resultsOf_perm (Pool.results_perm hRun hDone)) with
      ⟨collected, txs, ids, hOk, hReturns⟩
    exact ⟨pool.results, collected, txs, ids, hOk, hReturns⟩

theorem exists_extracts (numCPU : Nat) (types : TxType Tx) (slots : List Slot) :
    ∃ out, Extracts numCPU types (TxsRlp.ofSlots slots) out := by
  have hLengths : (TxsRlp.ofSlots slots).txs.length = (TxsRlp.ofSlots slots).txIds.length := by
    simp [TxsRlp.ofSlots]
  by_cases hEmpty : (TxsRlp.ofSlots slots).txs.length = 0
  · exact ⟨_, .empty hLengths hEmpty⟩
  · have hCount : (TxsRlp.ofSlots slots).txs.length = (tasksOf slots).length := by
      simp [TxsRlp.ofSlots, length_tasksOf]
    have hEnds :
        ∃ pool, ReflTransGen (Pool.Step (numWorkers numCPU) (tasksOf slots).length (work types))
          (Pool.start (tasksOf slots)) pool ∧ pool.Done :=
      Pool.exists_done (tasksOf slots) (numWorkers_pos numCPU)
    rcases hEnds with ⟨pool, hRun, hDone⟩
    exact ⟨_, .finished hLengths hEmpty _ (distribute_ofSlots slots) pool (hCount ▸ hRun) hDone⟩

theorem exists_of_forall₂ {α β : Type} {R : α → β → Prop} {xs : List α} {ys : List β}
    (hEach : List.Forall₂ R xs ys) {x : α} (hMem : x ∈ xs) : ∃ y ∈ ys, R x y := by
  induction hEach with
  | nil => cases hMem
  | cons hHead _ ih =>
    rcases List.mem_cons.1 hMem with rfl | hRest
    · exact ⟨_, List.mem_cons_self, hHead⟩
    · rcases ih hRest with ⟨y, hY, hRel⟩
      exact ⟨y, List.mem_cons_of_mem _ hY, hRel⟩

theorem ExtractsAll.answered {numCPU : Nat} (hAll : ExtractsAll numCPU types slots) :
    Answered types slots := by
  intro slot hSlot hEof
  rcases exists_extracts numCPU types slots with ⟨out, hOut⟩
  rcases hOut.returns with ⟨results, collected, txs, ids, hOk, hReturns⟩
  rcases hAll.2 out hOut with ⟨txs', ids', toRemove, hSame, _, positions, _, hTxs, _, hEach, _⟩
  rw [hOk] at hSame
  cases hSame
  rcases List.getElem?_of_mem hSlot with ⟨i, hAt⟩
  by_contra hNone
  have hStays : slot.id ∉ collected.toRemove := by
    rw [hReturns.mem_toRemove]
    exact hNone
  have hPlace := (hEach i slot hAt).2 hStays
  rcases exists_of_forall₂ hTxs hPlace with ⟨tx, _, other, hOther, decoded, hDecode, _⟩
  rw [hAt] at hOther
  cases hOther
  rw [hEof] at hDecode
  cases hDecode

/-
  Nothing is lost, whatever the schedule, if and only if every slot on which the decoder says that
  its input has ended shares its id with one that cannot be decoded.
-/
theorem extractTransactionsFromSlot_iff (numCPU : Nat) (types : TxType Tx) (slots : List Slot) :
    ExtractsAll numCPU types slots ↔ Answered types slots := by
  constructor
  · exact ExtractsAll.answered
  · intro hAnswered
    refine ⟨workersReturn numCPU types slots, ?_⟩
    intro out hOut
    rcases hOut.returns with ⟨results, collected, txs, ids, hOk, hReturns⟩
    refine ⟨txs, ids, collected.toRemove, hOk, ?_, hReturns.partitioned hAnswered⟩
    rw [← hReturns.txsAt.length_eq, hReturns.idsAt.length_eq]

def unitTypes : TxType Unit where
  unmarshalTransactionFromBinary := fun _ => .ok ()
  decodeRLPTransaction := fun _ => .ok ()
  setSender := fun _ tx => tx

/-
  A slot without bytes is neither decoded nor reported: its place is taken by a nil transaction
  and the zero hash.
-/
theorem extractTransactionsFromSlot_noBytes :
    Extracts 2 unitTypes (TxsRlp.ofSlots [⟨[], 7, 0⟩]) (.ok ([none], [0], [])) ∧
      ¬ ExtractsAll 2 unitTypes [⟨[], 7, 0⟩] := by
  refine ⟨?_, ?_⟩
  · have hSend :
        Pool.Step 1 1 (work unitTypes) (Pool.start [⟨0, [], 7, 0⟩]) ⟨[], [⟨0, [], 7, 0⟩], [], []⟩ :=
      .send _ _ _ _ _ (by decide)
    have hTake : Pool.Step 1 1 (work unitTypes) ⟨[], [⟨0, [], 7, 0⟩], [], []⟩
          ⟨[], [], [⟨0, [], 7, 0⟩], []⟩ :=
      .take _ _ _ _ _ (by decide)
    have hFinish : Pool.Step 1 1 (work unitTypes) ⟨[], [], [⟨0, [], 7, 0⟩], []⟩ ⟨[], [], [], []⟩ :=
      .finish _ _ _ [] [] _ (by decide)
    exact .finished rfl (by decide) [⟨0, [], 7, 0⟩] rfl ⟨[], [], [], []⟩
      (((ReflTransGen.refl.tail hSend).tail hTake).tail hFinish) ⟨rfl, rfl, rfl⟩
  · intro hAll
    rcases hAll.answered ⟨[], 7, 0⟩ (by simp) rfl with ⟨other, hOther, _, message, hDecode⟩
    rw [List.mem_singleton.1 hOther] at hDecode
    cases hDecode

end XLayerErigon.Sequencer
