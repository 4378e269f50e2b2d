import XLayerErigon.BlockInfo.Keys
import XLayerErigon.Concurrent.WorkerPool

/-
  Building the block info tree, one transaction after the other and with workers.

  The workers send what they make of a transaction to one channel and an error to another, which
  holds one error.  A worker that has sent an error returns.  The collector looks at the errors
  only when a result comes in.

  Main results:
    * `Build.stuck_returned`
    * `Build.returned_eq`
    * `buildBlockInfoTree_serial`
-/

namespace XLayerErigon.BlockInfo

open Smt Relation Concurrent

variable (hash : NodeValue12 → NodeKey) (hashing : Tx.Hashing)

-- One after the other

def insertEntries (kvs : List KeyVal) : Except Failure (BitVec 256) :=
  (SMT.insertBatch hash ⟨true, Db.empty⟩ (kvs.map Prod.fst)
    (kvs.map Prod.snd) none none) >>= fun root =>
  .ok (BitVec.ofNat 256 root.2.newRootScalar.toBigInt)

/- Add the gas used, and insert. -/
def finishTree (header : BlockHeader) (kvs : List KeyVal) : Except Failure (BitVec 256) :=
  generateBlockGasUsed header.blockGasUsed >>= fun kv =>
  insertEntries hash (kvs ++ [kv])

def serialLoop :
    Nat → BitVec 64 → List ExecutedTxInfo → Except Failure (List KeyVal)
  | _, _, [] => .ok []
  | i, logIndex, txInfo :: rest =>
      l2TxHashOf hashing txInfo >>= fun l2TxHash =>
      generateBlockTxKeysVals hash hashing l2TxHash i txInfo.receipt logIndex
        txInfo.receipt.cumulativeGasUsed txInfo.effectiveGasPrice >>= fun kvs =>
      serialLoop (i + 1) (logIndex + BitVec.ofNat 64 txInfo.receipt.logs.length)
        rest >>= fun more =>
      .ok (kvs ++ more)

def buildBlockInfoTreeSerial (header : BlockHeader) (transactionInfos : List ExecutedTxInfo) :
    Except Failure (BitVec 256) :=
  generateBlockHeader header >>= fun kvs =>
  serialLoop hash hashing 0 0 transactionInfos >>= fun more =>
  finishTree hash header (kvs ++ more)

-- With workers

/- A result keeps the index of its transaction. -/
structure TxResult where
  index : Nat
  kvs : List KeyVal

def logIndexAt (transactionInfos : List ExecutedTxInfo) (idx : Nat) : BitVec 64 :=
  (transactionInfos.take idx).foldl (fun logIndex info =>
    logIndex + BitVec.ofNat 64 info.receipt.logs.length) 0

/- What a worker does with a task. -/
def process (transactionInfos : List ExecutedTxInfo) (idx : Nat) : Except Failure TxResult :=
  sliceIndex transactionInfos idx >>= fun txInfo =>
  (l2TxHashOf hashing txInfo).mapError
    (.wrap "compute L2 tx hash error at index %d") >>= fun l2TxHash =>
  (generateBlockTxKeysVals hash hashing l2TxHash idx
    txInfo.receipt (logIndexAt transactionInfos idx)
    txInfo.receipt.cumulativeGasUsed txInfo.effectiveGasPrice).mapError
    (.wrap "generate block tx keys vals error at index %d") >>= fun kvs =>
  .ok ⟨idx, kvs⟩

/-
  The tasks not sent yet, those in the channel, those a worker has taken; the workers that have
  not returned; the two other channels; the collected results; and what the call has returned.
-/
structure Build (α : Type) where
  unsent : List Nat
  taskChan : List Nat
  running : List Nat
  alive : Nat
  resultChan : List TxResult
  errChan : Option Failure
  results : List TxResult
  out : Option (Except Failure α)

namespace Build

variable {α : Type}

def start (workers count : Nat) : Build α where
  unsent := List.range count
  taskChan := []
  running := []
  alive := workers
  resultChan := []
  errChan := none
  results := List.replicate count ⟨0, []⟩
  out := none

/- Every worker has left its loop. -/
def WorkersDone (b : Build α) : Prop := b.running = [] ∧ (b.taskChan = [] ∨ b.alive = 0)

/-
  One action of one party.  The channels of tasks and results hold `count` values, the one of
  errors holds one.
-/
inductive Step (count : Nat)
    (process : Nat → Except Failure TxResult) (finish : List TxResult → Except Failure α) :
    Build α → Build α → Prop
  | send (b : Build α) (idx : Nat) (rest : List Nat) (hUnsent : b.unsent = idx :: rest)
      (hRoom : b.taskChan.length < count) :
      Step count process finish b
        { b with
          unsent := rest
          taskChan := b.taskChan ++ [idx] }
  | take (b : Build α) (idx : Nat) (rest : List Nat) (hTask : b.taskChan = idx :: rest)
      (hIdle : b.running.length < b.alive) :
      Step count process finish b
        { b with
          taskChan := rest
          running := idx :: b.running }
  | result (b : Build α) (idx : Nat) (before after : List Nat)
      (hRunning : b.running = before ++ idx :: after) (r : TxResult) (hOk : process idx = .ok r)
      (hRoom : b.resultChan.length < count) :
      Step count process finish b
        { b with
          running := before ++ after
          resultChan := b.resultChan ++ [r] }
  | error (b : Build α) (idx : Nat) (before after : List Nat)
      (hRunning : b.running = before ++ idx :: after) (failure : Failure)
      (hError : process idx = .error failure) (hRoom : b.errChan = none) :
      Step count process finish b
        { b with
          running := before ++ after
          alive := b.alive - 1
          errChan := some failure }
  | receive (b : Build α) (r : TxResult) (rest : List TxResult) (hSent : b.unsent = [])
      (hOut : b.out = none) (hResult : b.resultChan = r :: rest) (hNone : b.errChan = none)
      (results : List TxResult) (hSet : sliceSet b.results r.index r = .ok results) :
      Step count process finish b { b with resultChan := rest, results := results }
  | receiveError (b : Build α) (r : TxResult) (rest : List TxResult) (hSent : b.unsent = [])
      (hOut : b.out = none) (hResult : b.resultChan = r :: rest) (failure : Failure)
      (hSome : b.errChan = some failure) :
      Step count process finish b
        { b with
          resultChan := rest
          errChan := none
          out := some (.error failure) }
  | close (b : Build α) (hSent : b.unsent = []) (hOut : b.out = none) (hDone : b.WorkersDone)
      (hDrained : b.resultChan = []) :
      Step count process finish b { b with out := some (finish b.results) }

/- Every task is still to be sent, taken, done, collected. -/
def size (b : Build α) : Nat :=
  4 * b.unsent.length + 3 * b.taskChan.length + 2 * b.running.length + b.resultChan.length +
    if b.out.isNone then 1 else 0

variable {count workers : Nat} {process : Nat → Except Failure TxResult}
  {finish : List TxResult → Except Failure α}

variable {made : Nat → TxResult}

theorem Step.size_lt {b c : Build α} (hStep : Step count process finish b c) : c.size < b.size := by
  cases hStep with
  | send idx rest hUnsent hRoom => simp [size, hUnsent]; omega
  | take idx rest hTask hIdle => simp [size, hTask]; omega
  | result idx before after hRunning r hOk hRoom => simp [size, hRunning]; omega
  | error idx before after hRunning failure hError hRoom => simp [size, hRunning]
  | receive r rest hSent hOut hResult hNone results hSet => simp [size, hResult]
  | receiveError r rest hSent hOut hResult failure hSome => simp [size, hResult, hOut]
  | close hSent hOut hDone hDrained => simp [size, hOut]

/-
  What holds at any time when no task fails.  Every task is waiting, or its result is in the
  channel, or collected.
-/
structure Sound (count workers : Nat) (process : Nat → Except Failure TxResult)
    (finish : List TxResult → Except Failure α) (made : Nat → TxResult) (b : Build α) : Prop where
  noError : b.errChan = none
  allAlive : b.alive = workers
  length : b.results.length = count
  room : b.unsent.length + b.taskChan.length + b.running.length + b.resultChan.length ≤ count
  below : ∀ i, i ∈ b.unsent ∨ i ∈ b.taskChan ∨ i ∈ b.running → i < count
  fromTask : ∀ r ∈ b.resultChan, ∃ i < count, r = made i
  covered : ∀ i < count,
    i ∈ b.unsent ∨ i ∈ b.taskChan ∨ i ∈ b.running ∨
      made i ∈ b.resultChan ∨ b.results[i]? = some (made i)
  returned : ∀ out, b.out = some out → out = finish ((List.range count).map made)

theorem sound_start :
    Sound count workers process finish made (start workers count) where
  noError := rfl
  allAlive := rfl
  length := by simp [start]
  room := by simp [start]
  below := by
    intro i hPlace
    simpa [start] using hPlace
  fromTask := by simp [start]
  covered := by
    intro i hLt
    exact Or.inl (List.mem_range.2 hLt)
  returned := by
    intro out hOut
    cases hOut

section

variable (hMade : ∀ i < count, process i = .ok (made i)) (hIndex : ∀ i < count, (made i).index = i)

include hMade hIndex

theorem Sound.step (hWorkers : 0 < workers) {b c : Build α}
    (hSound : Sound count workers process finish made b) (hStep : Step count process finish b c) :
    Sound count workers process finish made c := by
  have hRoomNow := hSound.room
  have hBelow := hSound.below
  have hCovered := hSound.covered
  cases hStep with
  | send idx rest hUnsent hRoom =>
    refine { hSound with room := ?_, below := ?_, covered := ?_ } <;> grind
  | take idx rest hTask hIdle =>
    refine { hSound with room := ?_, below := ?_, covered := ?_ } <;> grind
  | result idx before after hRunning r hOk hRoom =>
    have hIdx : idx < count := hBelow idx (Or.inr (Or.inr (by simp [hRunning])))
    have hR : r = made idx := by
      rw [hMade idx hIdx] at hOk
      exact (Except.ok.inj hOk).symm
    refine { hSound with room := ?_, below := ?_, fromTask := ?_, covered := ?_ }
    · grind
    · grind
    · intro r' hMem
      rcases List.mem_append.1 hMem with hOld | hNew
      · exact hSound.fromTask r' hOld
      · exact ⟨idx, hIdx, (List.mem_singleton.1 hNew).trans hR⟩
    · grind
  | error idx before after hRunning failure hError hRoom =>
    have hIdx : idx < count := hSound.below idx (Or.inr (Or.inr (by simp [hRunning])))
    rw [hMade idx hIdx] at hError
    cases hError
  | receive r rest hSent hOut hResult hNone results hSet =>
    rcases hSound.fromTask r (by simp [hResult]) with ⟨j, hJ, rfl⟩
    have hInside : (made j).index < b.results.length := by
      rw [hIndex j hJ, hSound.length]
      exact hJ
    rw [sliceSet_of_lt _ hInside, hIndex j hJ] at hSet
    cases hSet
    refine { hSound with
      length := ?_, room := ?_, fromTask := ?_
      covered := ?_ }
    · simpa using hSound.length
    · simp only [hResult, List.length_cons] at hRoomNow
      simp only
      omega
    · intro r' hMem
      exact hSound.fromTask r' (by simp [hResult, hMem])
    · intro i hLt
      have hNow := hSound.covered i hLt
      by_cases hSame : i = j
      · subst hSame
        have hAt : i < b.results.length := hSound.length ▸ hLt
        simp [hAt]
      · have hNe : made i ≠ made j := by
          intro hEq
          refine hSame ?_
          rw [← hIndex i hLt, hEq, hIndex j hJ]
        simp only [hResult, List.mem_cons, hNe, false_or] at hNow
        rw [List.getElem?_set_ne (Ne.symm hSame)]
        exact hNow
  | receiveError r rest hSent hOut hResult failure hSome =>
    rw [hSound.noError] at hSome
    cases hSome
  | close hSent hOut hDone hDrained =>
    refine { hSound with returned := ?_ }
    intro out hReturned
    rw [← Option.some.inj hReturned]
    have hTasks : b.taskChan = [] := by
      rcases hDone.2 with hTasks | hDead
      · exact hTasks
      · rw [hSound.allAlive] at hDead
        omega
    congr 1
    refine List.ext_getElem? ?_
    intro i
    by_cases hLt : i < count
    · have hNow := hSound.covered i hLt
      simp only [hSent, hTasks, hDone.1, hDrained, List.not_mem_nil, false_or] at hNow
      simp [hNow, hLt]
    · rw [List.getElem?_eq_none (by rw [hSound.length]; omega),
        List.getElem?_eq_none (by simp; omega)]

theorem Sound.run (hWorkers : 0 < workers) {b : Build α}
    (hRun : ReflTransGen (Step count process finish) (start workers count) b) :
    Sound count workers process finish made b :=
  kept_of_step (P := Sound count workers process finish made) (fun _ _ hStep hSound =>
    hSound.step hMade hIndex hWorkers hStep) hRun sound_start

/- Nobody waits for ever when no task fails. -/
theorem Sound.stuck_returned (hWorkers : 0 < workers) {b : Build α}
    (hSound : Sound count workers process finish made b)
    (hStuck : Stuck (Step count process finish) b) : ∃ out, b.out = some out := by
  have hRoom := hSound.room
  have hRunning : b.running = [] := by
    cases hList : b.running with
    | nil => rfl
    | cons idx rest =>
      have hIdx : idx < count := hSound.below idx (Or.inr (Or.inr (by simp [hList])))
      refine absurd (Step.result b idx [] rest hList _ (hMade idx hIdx) ?_) (hStuck _)
      simp only [hList, List.length_cons] at hRoom
      omega
  have hTasks : b.taskChan = [] := by
    cases hList : b.taskChan with
    | nil => rfl
    | cons idx rest =>
      refine absurd (Step.take b idx rest hList ?_) (hStuck _)
      rw [hRunning, hSound.allAlive]
      exact hWorkers
  have hSent : b.unsent = [] := by
    cases hList : b.unsent with
    | nil => rfl
    | cons idx rest =>
      refine absurd (Step.send b idx rest hList ?_) (hStuck _)
      simp only [hList, hTasks, List.length_cons] at hRoom
      rw [hTasks, List.length_nil]
      omega
  cases hOut : b.out with
  | some out => exact ⟨out, rfl⟩
  | none =>
    cases hList : b.resultChan with
    | nil => exact absurd (Step.close b hSent hOut ⟨hRunning, Or.inl hTasks⟩ hList) (hStuck _)
    | cons r rest =>
      rcases hSound.fromTask r (by simp [hList]) with ⟨j, hJ, rfl⟩
      have hInside : (made j).index < b.results.length := by
        rw [hIndex j hJ, hSound.length]
        exact hJ
      exact absurd (Step.receive b _ rest hSent hOut
        hList hSound.noError _ (sliceSet_of_lt _ hInside)) (hStuck _)

end

/-
  An error is lost when no result comes in behind it: the only task fails, and the call goes on as
  if it were done.
-/
theorem error_lost {failure : Failure} (hError : process 0 = .error failure) :
    ∃ b, ReflTransGen (Step 1 process finish) (start 1 1) b ∧ b.out = some (finish [⟨0, []⟩]) := by
  let sent : Build α := { start 1 1 with unsent := [], taskChan := [0] }
  let taken : Build α := { start 1 1 with unsent := [], running := [0] }
  let failed : Build α := { start 1 1 with unsent := [], alive := 0, errChan := some failure }
  have hSend : Step 1 process finish (start 1 1) sent :=
    .send (start 1 1) 0 [] rfl (Nat.zero_lt_one)
  have hTake : Step 1 process finish sent taken := .take sent 0 [] rfl (Nat.zero_lt_one)
  have hFail : Step 1 process finish taken failed := .error taken 0 [] [] rfl failure hError rfl
  have hClose : Step 1 process finish failed { failed with out := some (finish [⟨0, []⟩]) } :=
    .close failed rfl rfl ⟨rfl, Or.inl rfl⟩ rfl
  exact ⟨_, (((ReflTransGen.refl.tail hSend).tail hTake).tail hFail).tail hClose, rfl⟩

end Build

-- Every schedule

/- What is done with the results, behind the header. -/
def mergeResults (header : BlockHeader) (kvs : List KeyVal)
    (results : List TxResult) : Except Failure (BitVec 256) :=
  finishTree hash header (kvs ++ results.flatMap TxResult.kvs)

/-
  What `BuildBlockInfoTree` can return, for some schedule of the workers.  A flag chooses the way
  without workers.
-/
inductive BuildsTo (numCPU : ℕ+)
    (concurrent : Bool) (header : BlockHeader) (transactionInfos : List ExecutedTxInfo) :
    Except Failure (BitVec 256) → Prop
  | serial (hFlag : concurrent = false) :
      BuildsTo numCPU concurrent header transactionInfos
        (buildBlockInfoTreeSerial hash hashing header transactionInfos)
  | header (hFlag : concurrent = true) (failure : Failure)
      (hHeader : generateBlockHeader header = .error failure) :
      BuildsTo numCPU concurrent header transactionInfos (.error failure)
  | workers (hFlag : concurrent = true) (kvs : List KeyVal)
      (hHeader : generateBlockHeader header = .ok kvs) (b : Build (BitVec 256))
      (hRun : ReflTransGen (Build.Step transactionInfos.length
        (process hash hashing transactionInfos) (mergeResults hash header kvs))
        (Build.start numCPU transactionInfos.length) b) (out : Except Failure (BitVec 256))
      (hOut : b.out = some out) :
      BuildsTo numCPU concurrent header transactionInfos out

/- No schedule goes on for ever, or waits without returning. -/
def NeverBlocks (numCPU : ℕ+) (header : BlockHeader)
    (transactionInfos : List ExecutedTxInfo) : Prop :=
  ∀ kvs, (¬ ∃ run : Nat → Build (BitVec 256), ∀ n,
      Build.Step transactionInfos.length (process hash hashing transactionInfos)
        (mergeResults hash header kvs) (run n) (run (n + 1))) ∧
    ∀ b, ReflTransGen
        (Build.Step transactionInfos.length
          (process hash hashing transactionInfos) (mergeResults hash header kvs))
        (Build.start numCPU transactionInfos.length) b →
      Stuck
        (Build.Step transactionInfos.length
          (process hash hashing transactionInfos) (mergeResults hash header kvs)) b →
      ∃ out, b.out = some out

variable {transactionInfos : List ExecutedTxInfo}

theorem process_ok {i : Nat} {info : ExecutedTxInfo} (hAt : transactionInfos[i]? = some info) :
    ∃ l2TxHash kvs, l2TxHashOf hashing info = .ok l2TxHash ∧
      generateBlockTxKeysVals hash hashing l2TxHash i info.receipt (logIndexAt transactionInfos i)
        info.receipt.cumulativeGasUsed info.effectiveGasPrice = .ok kvs ∧
      process hash hashing transactionInfos i = .ok ⟨i, kvs⟩ := by
  rcases l2TxHashOf_ok hashing info with ⟨l2TxHash, hHash⟩
  rcases generateBlockTxKeysVals_ok hash hashing l2TxHash i
      info.receipt (logIndexAt transactionInfos i) info.receipt.cumulativeGasUsed
      info.effectiveGasPrice with ⟨kvs, hKeys⟩
  refine ⟨l2TxHash, kvs, hHash, hKeys, ?_⟩
  simp only [process, sliceIndex_of_some hAt, ok_bind, hHash, hKeys, Except.mapError]

def resultAt (transactionInfos : List ExecutedTxInfo) (i : Nat) : TxResult :=
  match process hash hashing transactionInfos i with
  | .ok r => r
  | .error _ => ⟨i, []⟩

theorem process_resultAt {transactionInfos : List ExecutedTxInfo} {i : Nat}
    (hLt : i < transactionInfos.length) : process hash hashing transactionInfos i =
        .ok (resultAt hash hashing transactionInfos i) ∧
      (resultAt hash hashing transactionInfos i).index = i := by
  rcases process_ok hash hashing (List.getElem?_eq_getElem hLt) with ⟨l2TxHash, kvs, _, _, hProcess⟩
  simp only [resultAt, hProcess, and_self]

theorem logIndexAt_succ {i : Nat} {info : ExecutedTxInfo} (hAt : transactionInfos[i]? = some info) :
    logIndexAt transactionInfos (i + 1) =
      logIndexAt transactionInfos i + BitVec.ofNat 64 info.receipt.logs.length := by
  rw [logIndexAt, List.take_add_one, hAt, List.foldl_append]
  rfl

theorem serialLoop_drop (transactionInfos : List ExecutedTxInfo) (k i : Nat)
    (hEnd : i + k = transactionInfos.length) :
    serialLoop hash hashing i (logIndexAt transactionInfos i) (transactionInfos.drop i) =
      .ok ((List.range' i k).flatMap (fun j =>
        (resultAt hash hashing transactionInfos j).kvs)) := by
  induction k generalizing i with
  | zero =>
    rw [List.drop_of_length_le (by omega)]
    rfl
  | succ k ih =>
    have hLt : i < transactionInfos.length := by omega
    have hAt := List.getElem?_eq_getElem hLt
    rcases process_ok hash hashing hAt with ⟨l2TxHash, kvs, hHash, hKeys, hProcess⟩
    have hRest := ih (i + 1) (by omega)
    rw [logIndexAt_succ hAt] at hRest
    rw [List.drop_eq_getElem_cons hLt, serialLoop, hHash, ok_bind, hKeys, ok_bind, hRest, ok_bind,
      List.range'_succ, List.flatMap_cons]
    simp only [resultAt, hProcess]

theorem serial_eq_mergeResults {header : BlockHeader} {kvs : List KeyVal}
    (hHeader : generateBlockHeader header = .ok kvs) (transactionInfos : List ExecutedTxInfo) :
    buildBlockInfoTreeSerial hash hashing header transactionInfos =
      mergeResults hash header kvs
        ((List.range transactionInfos.length).map (resultAt hash hashing transactionInfos)) := by
  have hLoop := serialLoop_drop hash hashing transactionInfos transactionInfos.length 0 (by omega)
  have hStart : logIndexAt transactionInfos 0 = 0 := rfl
  rw [hStart, List.drop_zero, ← List.range_eq_range'] at hLoop
  rw [buildBlockInfoTreeSerial, hHeader, ok_bind, hLoop, ok_bind, mergeResults, List.flatMap_map]

theorem neverBlocks (numCPU : ℕ+) (header : BlockHeader) (transactionInfos : List ExecutedTxInfo) :
    NeverBlocks hash hashing numCPU header transactionInfos := by
  intro kvs
  have hMade := fun i hLt => (@process_resultAt hash hashing transactionInfos i hLt).1
  have hIndex := fun i hLt => (@process_resultAt hash hashing transactionInfos i hLt).2
  refine ⟨not_infinite Build.size (fun _ _ hStep => hStep.size_lt), ?_⟩
  intro b hRun hStuck
  exact (Build.Sound.run hMade hIndex numCPU.pos hRun).stuck_returned hMade hIndex numCPU.pos hStuck

/-
  Under every schedule the workers build the tree that the serial version builds, and return.  No
  transaction fails to be hashed, so there is no error to report.
-/
theorem buildBlockInfoTree_serial (numCPU : ℕ+) (concurrent : Bool) (header : BlockHeader)
    (transactionInfos : List ExecutedTxInfo) :
    (∀ i < transactionInfos.length, ∃ r, process hash hashing transactionInfos i = .ok r) ∧
    NeverBlocks hash hashing numCPU header transactionInfos ∧
    ∀ out, BuildsTo hash hashing numCPU concurrent header transactionInfos out →
      out = buildBlockInfoTreeSerial hash hashing header transactionInfos ∧
      ((∃ i < transactionInfos.length, ∃ failure,
        process hash hashing transactionInfos i = .error failure) →
        ∃ failure, out = .error failure) := by
  have hMade := fun i hLt => (@process_resultAt hash hashing transactionInfos i hLt).1
  have hIndex := fun i hLt => (@process_resultAt hash hashing transactionInfos i hLt).2
  refine ⟨fun i hLt => ⟨_, hMade i hLt⟩,
    neverBlocks hash hashing numCPU header transactionInfos, ?_⟩
  intro out hBuilds
  refine ⟨?_, ?_⟩
  · cases hBuilds with
    | serial hFlag => rfl
    | header hFlag failure hHeader =>
      rw [buildBlockInfoTreeSerial, hHeader]
      rfl
    | workers hFlag kvs hHeader b hRun out hOut =>
      rw [serial_eq_mergeResults hash hashing hHeader]
      exact (Build.Sound.run hMade hIndex numCPU.pos hRun).returned out hOut
  · rintro ⟨i, hLt, failure, hError⟩
    rw [hMade i hLt] at hError
    cases hError

end XLayerErigon.BlockInfo
