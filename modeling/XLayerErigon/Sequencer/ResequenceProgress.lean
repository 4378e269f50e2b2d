import XLayerErigon.Sequencer.Resequence

/-
  Progress of the resequencing with strict mode off.

  A failed transaction does not move the cursor.  A block is therefore left only through its last
  transaction: if that one fails, the loops come back to it for ever.

  Main results:
    * `outerLoopTransactions_accepted`
    * `outerLoopTransactions_ok`
    * `resequenceBatch_iff`
-/

namespace XLayerErigon.Sequencer

variable {Tx Hash : Type}

-- Decoding and the Map of Places

def decodeTx (cfg : ResequenceCfg Tx Hash) (forkId : UInt64)
    (transaction : L2TransactionProto) : Option Tx :=
  (cfg.decoder transaction.encoded
    transaction.effectiveGasPricePercentage forkId).toOption.map Prod.fst

/- The block's transactions decode, to `txs`. -/
def Decodes (cfg : ResequenceCfg Tx Hash) (block : FullL2Block Hash) (txs : List Tx) : Prop :=
  block.l2Txs.map (decodeTx cfg block.forkId) = txs.map some

variable {cfg : ResequenceCfg Tx Hash} {block : FullL2Block Hash} {txs : List Tx}

theorem Decodes.length_eq (hDecodes : Decodes cfg block txs) : block.l2Txs.length = txs.length := by
  simpa [Decodes] using congrArg List.length hDecodes

theorem Decodes.unique {txs' : List Tx}
    (hDecodes : Decodes cfg block txs) (hDecodes' : Decodes cfg block txs') : txs = txs' :=
  List.map_injective_iff.2 (Option.some_injective Tx) (hDecodes.symm.trans hDecodes')

variable {transactions : List L2TransactionProto} (cfg : ResequenceCfg Tx Hash) (forkId : UInt64)
  (blockNum i : Nat) (txs : List Tx) (txIndexMap : Hash → Option ResequenceTxMetadata)

section Yielding

variable [DecidableEq Hash]

/- The map after the transactions of a block were yielded. -/
def indexed (cfg : ResequenceCfg Tx Hash) (blockNum : Nat) :
    Nat → List Tx → (Hash → Option ResequenceTxMetadata) → (Hash → Option ResequenceTxMetadata)
  | _, [], txIndexMap => txIndexMap
  | i, tx :: rest, txIndexMap =>
      indexed cfg blockNum (i + 1) rest (putIndex txIndexMap (cfg.hash tx) ⟨blockNum, i⟩)

/- Transactions that decode are yielded and indexed, and no others. -/
theorem yieldTransactions_ok_iff {txs : List Tx} {after : Hash → Option ResequenceTxMetadata} :
    yieldTransactions cfg forkId blockNum i transactions txIndexMap = .ok (txs, after) ↔
      transactions.map (decodeTx cfg forkId) = txs.map some ∧
        indexed cfg blockNum i txs txIndexMap = after := by
  fun_induction yieldTransactions cfg forkId blockNum i transactions txIndexMap
    generalizing txs after with
  | case1 i txIndexMap => cases txs <;> simp [indexed]
  | case2 i transaction rest txIndexMap message hDecode =>
    cases txs <;> simp [decodeTx, hDecode, Except.toOption]
  | case3 i transaction rest txIndexMap tx percentage hDecode failure hOthers ih =>
    simp only [hOthers, reduceCtorEq, false_iff, not_and] at ih
    cases txs with
    | nil => simp
    | cons first txs =>
      simp only [List.map_cons, List.cons.injEq, reduceCtorEq, false_iff]
      rintro ⟨⟨-, hTail⟩, -⟩
      exact ih hTail rfl
  | case4 i transaction rest txIndexMap tx percentage hDecode others last hOthers ih =>
    cases txs with
    | nil => simp
    | cons first txs =>
      have hRest := @ih txs after
      rw [hOthers, Except.ok.injEq, Prod.mk.injEq] at hRest
      simp only [Except.ok.injEq, Prod.mk.injEq, List.cons.injEq, and_assoc, hRest]
      simp only [List.map_cons, List.cons.injEq, decodeTx, hDecode, indexed, and_assoc]
      constructor
      · rintro ⟨rfl, hRest⟩
        exact ⟨rfl, hRest⟩
      · rintro ⟨hFirst, hRest⟩
        cases hFirst
        exact ⟨rfl, hRest⟩

theorem indexed_append_singleton (tx : Tx) : indexed cfg blockNum i (txs ++ [tx]) txIndexMap =
      putIndex (indexed cfg blockNum i txs txIndexMap) (cfg.hash tx)
        ⟨blockNum, i + txs.length⟩ := by
  induction txs generalizing i txIndexMap with
  | nil => rfl
  | cons first rest hRest =>
    simp only [List.cons_append, indexed, hRest, List.length_cons, Nat.add_right_comm,
      Nat.add_assoc]

/- The map finds a yielded transaction at a place with its hash, and not before its own place. -/
theorem indexed_of_getElem? (k : Nat) (tx : Tx) (hAt : txs[k]? = some tx) :
    ∃ m found, k ≤ m ∧ txs[m]? = some found ∧
      cfg.hash found = cfg.hash tx ∧
      indexed cfg blockNum i txs txIndexMap (cfg.hash tx) = some ⟨blockNum, i + m⟩ := by
  -- a later transaction with this hash overwrites the place
  induction txs using List.reverseRecOn with
  | nil => simp at hAt
  | append_singleton txs last ih =>
    have hLt := (List.getElem?_eq_some_iff.1 hAt).1
    rw [List.length_append, List.length_singleton] at hLt
    rw [indexed_append_singleton]
    by_cases hSame : cfg.hash last = cfg.hash tx
    · exact ⟨txs.length, last, by omega, by simp, hSame, by simp [putIndex, hSame]⟩
    · have hBefore : k < txs.length := by
        by_contra hEnd
        have hEnd : k = txs.length := by omega
        simp [hEnd] at hAt
        exact hSame (by rw [hAt])
      rw [List.getElem?_append_left hBefore] at hAt
      rcases ih hAt with ⟨m, found, hLe, hFound, hHash, hIndexed⟩
      have hInside := (List.getElem?_eq_some_iff.1 hFound).1
      refine ⟨m, found, hLe, by rw [List.getElem?_append_left hInside, hFound], hHash, ?_⟩
      rw [putIndex, Function.update_of_ne (Ne.symm hSame), hIndexed]

end Yielding

-- One Round over a Block

/-
  The runs of interest: strict mode is off, and an execution accepts its transaction or fails with
  an error.
-/
structure Lenient (cfg : ResequenceCfg Tx Hash) : Prop where
  notStrict : cfg.sequencerResequenceStrict = false
  noOverflow : ∀ place, cfg.outcome place ≠ .overflowGas

def ResequenceCfg.accepts (cfg : ResequenceCfg Tx Hash) (place : ResequenceTxMetadata) : Bool :=
  cfg.outcome place = .accepted

/- The places of `count` transactions from index `i` on. -/
def places (blockNum i count : Nat) : List ResequenceTxMetadata :=
  (List.range' i count).map (ResequenceTxMetadata.mk blockNum)

def lastAccepted (cfg : ResequenceCfg Tx Hash) (blockNum : Nat) : Nat → List Tx → Option Tx
  | _, [] => none
  | i, tx :: rest =>
      (lastAccepted cfg blockNum (i + 1) rest).or (if cfg.accepts ⟨blockNum, i⟩ then some tx
        else none)

/- Nothing is accepted behind the last accepted one. -/
theorem lastAccepted_eq_some (tx : Tx) (hLast : lastAccepted cfg blockNum i txs = some tx) :
    ∃ k, txs[k]? = some tx ∧ lastAccepted cfg blockNum (i + (k + 1)) (txs.drop (k + 1)) = none := by
  induction txs generalizing i with
  | nil => simp [lastAccepted] at hLast
  | cons first rest hRest =>
    cases hLater : lastAccepted cfg blockNum (i + 1) rest with
    | none =>
      refine ⟨0, ?_, by simpa using hLater⟩
      simp [lastAccepted, hLater] at hLast
      simp [hLast.2]
    | some later =>
      have hSame : later = tx := by simpa [lastAccepted, hLater] using hLast
      subst hSame
      rcases hRest (i + 1) hLater with ⟨k, hAt, hNone⟩
      refine ⟨k + 1, by simpa using hAt, ?_⟩
      rw [show i + (k + 1 + 1) = i + 1 + (k + 1) by omega]
      simpa using hNone

theorem places_succ (blockNum i count : Nat) :
    places blockNum i (count + 1) = ⟨blockNum, i⟩ :: places blockNum (i + 1) count := by
  simp [places, List.range'_succ]

theorem lastAccepted_eq_none_iff : lastAccepted cfg blockNum i txs = none ↔
      (places blockNum i txs.length).filter cfg.accepts = [] := by
  induction txs generalizing i with
  | nil => simp [lastAccepted, places]
  | cons tx rest hRest =>
    cases hAccepts : cfg.accepts ⟨blockNum, i⟩ with
    | true => simp [lastAccepted, places_succ, hAccepts]
    | false => simpa [lastAccepted, places_succ, hAccepts] using hRest (i + 1)

theorem lastAccepted_drop (blockNum i k : Nat) (txs : List Tx)
    (hNone : lastAccepted cfg blockNum i txs = none) :
    lastAccepted cfg blockNum (i + k) (txs.drop k) = none := by
  rw [lastAccepted_eq_none_iff, List.filter_eq_nil_iff] at hNone ⊢
  intro place hPlace
  refine hNone place ?_
  simp only [places, List.mem_map, List.mem_range'_1, List.length_drop] at hPlace ⊢
  rcases hPlace with ⟨j, hInside, rfl⟩
  exact ⟨j, by omega, rfl⟩

namespace ResequenceBatchJob

variable (job : ResequenceBatchJob Hash)

@[simp] theorem moveBehind_batchToProcess (idx : ResequenceTxMetadata) (block : FullL2Block Hash) :
    (job.moveBehind idx block).batchToProcess = job.batchToProcess := by
  unfold moveBehind
  split <;> rfl

@[simp] theorem moveBehind_txIndexMap (idx : ResequenceTxMetadata) (block : FullL2Block Hash) :
    (job.moveBehind idx block).txIndexMap = job.txIndexMap := by
  unfold moveBehind
  split <;> rfl

@[simp] theorem moveBehind_moveBehind (idx idx' : ResequenceTxMetadata)
    (block block' : FullL2Block Hash) :
    (job.moveBehind idx block).moveBehind idx' block' = job.moveBehind idx' block' := by
  unfold moveBehind
  split <;> split <;> rfl

def behind (job : ResequenceBatchJob Hash) (h : Hash) : ResequenceBatchJob Hash :=
  (job.updateLastProcessedTx h).toOption.getD job

/- The map leads the hash to a block of the batch. -/
def Located (job : ResequenceBatchJob Hash) (h : Hash) : Prop :=
  ∃ idx block, job.txIndexMap h = some idx ∧ job.batchToProcess[idx.blockNum]? = some block

theorem updateLastProcessedTx_eq {job : ResequenceBatchJob Hash} {h : Hash}
    {idx : ResequenceTxMetadata} {block : FullL2Block Hash} (hIdx : job.txIndexMap h = some idx)
    (hBlock : job.batchToProcess[idx.blockNum]? = some block) :
    job.updateLastProcessedTx h = .ok (job.moveBehind idx block) := by
  simp [updateLastProcessedTx, hIdx, sliceIndex_of_some hBlock]

theorem behind_eq {job : ResequenceBatchJob Hash} {h : Hash} {idx : ResequenceTxMetadata}
    {block : FullL2Block Hash} (hIdx : job.txIndexMap h = some idx)
    (hBlock : job.batchToProcess[idx.blockNum]? = some block) :
    job.behind h = job.moveBehind idx block := by
  simp [behind, updateLastProcessedTx_eq hIdx hBlock, Except.toOption]

end ResequenceBatchJob

def jobBehind (cfg : ResequenceCfg Tx Hash) (blockNum i : Nat) (txs : List Tx)
    (job : ResequenceBatchJob Hash) : ResequenceBatchJob Hash :=
  (lastAccepted cfg blockNum i txs).elim job (fun tx => job.behind (cfg.hash tx))

def triedAll (cfg : ResequenceCfg Tx Hash) (blockNum i : Nat) (txs : List Tx)
    (st : ResequenceState Hash) : ResequenceState Hash :=
  { st with
    job := jobBehind cfg blockNum i txs st.job
    attempted := st.attempted ++ places blockNum i txs.length
    building := st.building ++ (places blockNum i txs.length).filter cfg.accepts }

variable {txs : List Tx} {block : FullL2Block Hash} (cfg : ResequenceCfg Tx Hash)
  (st : ResequenceState Hash)

theorem triedAll_cons_of_not (blockNum i : Nat) (tx : Tx) (rest : List Tx)
    (st : ResequenceState Hash) (hNot : cfg.accepts ⟨blockNum, i⟩ = false) :
    triedAll cfg blockNum i (tx :: rest) st =
      triedAll cfg blockNum (i + 1) rest
        { st with attempted := st.attempted ++ [⟨blockNum, i⟩] } := by
  simp [triedAll, jobBehind, lastAccepted, places_succ, hNot]

theorem triedAll_cons_of_accepts (blockNum i : Nat) (tx : Tx) (rest : List Tx)
    (st : ResequenceState Hash) (hAccepts : cfg.accepts ⟨blockNum, i⟩ = true)
    (hLocated : ∀ other ∈ tx :: rest, st.job.Located (cfg.hash other)) :
    triedAll cfg blockNum i (tx :: rest) st =
      triedAll cfg blockNum (i + 1) rest
        { st with
          attempted := st.attempted ++ [⟨blockNum, i⟩]
          job := st.job.behind (cfg.hash tx)
          building := st.building ++ [⟨blockNum, i⟩] } := by
  have hJob : jobBehind cfg blockNum i (tx :: rest) st.job =
        jobBehind cfg blockNum (i + 1) rest (st.job.behind (cfg.hash tx)) := by
    cases hLast : lastAccepted cfg blockNum (i + 1) rest with
    | none => simp [jobBehind, lastAccepted, hLast, hAccepts]
    | some later =>
      -- the later transaction overwrites the cursor
      rcases lastAccepted_eq_some cfg blockNum (i + 1) rest later hLast with ⟨k, hAt, -⟩
      rcases hLocated tx (by simp) with ⟨idx, block, hIdx, hBlock⟩
      rcases hLocated later (List.mem_cons_of_mem tx (List.mem_of_getElem? hAt)) with
        ⟨idx', block', hIdx', hBlock'⟩
      have hMoved : (st.job.moveBehind idx block).behind (cfg.hash later) =
            (st.job.moveBehind idx block).moveBehind idx' block' :=
        ResequenceBatchJob.behind_eq (by simpa using hIdx') (by simpa using hBlock')
      simp [jobBehind, lastAccepted, hLast, ResequenceBatchJob.behind_eq hIdx hBlock,
        ResequenceBatchJob.behind_eq hIdx' hBlock', hMoved]
  simp [triedAll, hJob, places_succ, hAccepts]

/- The inner loop tries every transaction it was given. -/
theorem innerLoopTransactions_eq (hCfg : Lenient cfg) (blockNum i : Nat) (txs : List Tx)
    (st : ResequenceState Hash) (hLocated : ∀ tx ∈ txs, st.job.Located (cfg.hash tx)) :
    innerLoopTransactions cfg blockNum i txs st = .ok (triedAll cfg blockNum i txs st) := by
  fun_induction innerLoopTransactions cfg blockNum i txs st with
  | case1 i st => simp [triedAll, jobBehind, lastAccepted, places]
  | case2 i tx rest st tried hOutcome ih =>
    rw [triedAll_cons_of_not cfg blockNum i tx rest st (by simp [ResequenceCfg.accepts, hOutcome])]
    exact ih fun tx hMem => hLocated tx (List.mem_cons_of_mem _ hMem)
  | case3 i tx rest st hOutcome hStrict => simp [hCfg.notStrict] at hStrict
  | case4 i tx rest st tried hOutcome hStrict ih =>
    rw [triedAll_cons_of_not cfg blockNum i tx rest st (by simp [ResequenceCfg.accepts, hOutcome])]
    exact ih fun tx hMem => hLocated tx (List.mem_cons_of_mem _ hMem)
  | case5 i tx rest st hOutcome => exact absurd hOutcome (hCfg.noOverflow _)
  | case6 i tx rest st hOutcome failure hUpdate =>
    rcases hLocated tx (by simp) with ⟨idx, block, hIdx, hBlock⟩
    rw [ResequenceBatchJob.updateLastProcessedTx_eq hIdx hBlock] at hUpdate
    cases hUpdate
  | case7 i tx rest st tried hOutcome job hUpdate ih =>
    rcases hLocated tx (by simp) with ⟨idx, block, hIdx, hBlock⟩
    rw [ResequenceBatchJob.updateLastProcessedTx_eq hIdx hBlock] at hUpdate
    cases hUpdate
    have hAccepts : cfg.accepts ⟨blockNum, i⟩ = true := by simp [ResequenceCfg.accepts, hOutcome]
    rw [triedAll_cons_of_accepts cfg blockNum i tx rest st hAccepts hLocated,
      ResequenceBatchJob.behind_eq hIdx hBlock]
    refine ih fun other hMem => ?_
    simpa [ResequenceBatchJob.Located] using hLocated other (List.mem_cons_of_mem _ hMem)

-- One Block

/-
  The last transaction of the block that is accepted has the hash of the block's last transaction;
  an empty block passes.
-/
def EndsAccepted (cfg : ResequenceCfg Tx Hash) (blockNum : Nat) (txs : List Tx) : Prop :=
  (lastAccepted cfg blockNum 0 txs).map cfg.hash = txs.getLast?.map cfg.hash

/- The cursor stands at the start of a block. -/
structure AtBlock
    (batch : List (FullL2Block Hash)) (blockNum : Nat) (st : ResequenceState Hash) : Prop where
  batchToProcess : st.job.batchToProcess = batch
  startBlockIndex : st.job.startBlockIndex = blockNum
  startTxIndex : st.job.startTxIndex = 0

/- What one built block adds to the record. -/
structure BlockDone (cfg : ResequenceCfg Tx Hash)
    (blockNum count : Nat) (st st' : ResequenceState Hash) : Prop where
  attempted : st'.attempted = st.attempted ++ places blockNum 0 count
  building : st'.building = st.building ++ (places blockNum 0 count).filter cfg.accepts
  visited : st'.visited = st.visited
  builtBlocks : st'.builtBlocks = st.builtBlocks
  transactionsForInclusion : st'.transactionsForInclusion = count

section AtBlock

variable {cfg : ResequenceCfg Tx Hash} {batch : List (FullL2Block Hash)} {blockNum : Nat}
  {st : ResequenceState Hash}

section

variable (hAt : AtBlock batch blockNum st)

include hAt

theorem AtBlock.currentBlock_eq : st.job.currentBlock = batch[blockNum]? := by
  simp [ResequenceBatchJob.currentBlock, hAt.batchToProcess, hAt.startBlockIndex]

theorem AtBlock.hasMore_iff : st.job.hasMoreBlockToProcess = true ↔ blockNum < batch.length := by
  simp [ResequenceBatchJob.hasMoreBlockToProcess, hAt.batchToProcess, hAt.startBlockIndex]

theorem AtBlock.beginBlock : AtBlock batch blockNum st.beginBlock :=
  ⟨hAt.batchToProcess, hAt.startBlockIndex, hAt.startTxIndex⟩

theorem AtBlock.finishBlock : AtBlock batch blockNum st.finishBlock :=
  ⟨hAt.batchToProcess, hAt.startBlockIndex, hAt.startTxIndex⟩

end

theorem startResequence_atBlock (batch : List (FullL2Block Hash)) :
    AtBlock batch 0 (startResequence batch) :=
  ⟨rfl, rfl, rfl⟩

/- A block that ends accepted mines something, or is empty. -/
theorem BlockDone.not_unmined {st' : ResequenceState Hash}
    (hDone : BlockDone cfg blockNum txs.length st.beginBlock st')
    (hEnds : EndsAccepted cfg blockNum txs) :
    ¬ (0 < st'.transactionsForInclusion ∧ st'.building.length = 0) := by
  rintro ⟨hYielded, hNothing⟩
  have hFilter : (places blockNum 0 txs.length).filter cfg.accepts = [] := by
    have hBuilding := hDone.building
    rw [List.eq_nil_of_length_eq_zero hNothing] at hBuilding
    exact (List.append_eq_nil_iff.1 hBuilding.symm).2
  have hNone := (lastAccepted_eq_none_iff cfg blockNum 0 txs).2 hFilter
  have hNil : txs.getLast? = none := by simpa [EndsAccepted, hNone] using hEnds.symm
  rw [hDone.transactionsForInclusion, List.getLast?_eq_none_iff.1 hNil] at hYielded
  simp at hYielded

end AtBlock

variable [DecidableEq Hash]

def ResequenceBatchJob.yielded (cfg : ResequenceCfg Tx Hash) (job : ResequenceBatchJob Hash)
    (block : FullL2Block Hash) (txs : List Tx) : ResequenceBatchJob Hash :=
  { job with
    txIndexMap := indexed cfg job.startBlockIndex job.startTxIndex (txs.drop job.startTxIndex)
        (putIndex job.txIndexMap block.l2Blockhash ⟨job.startBlockIndex, 0⟩) }

theorem yieldNextBlockTransactions_eq (job : ResequenceBatchJob Hash)
    (hBlock : job.currentBlock = some block) (hDecodes : Decodes cfg block txs) :
    job.yieldNextBlockTransactions cfg =
      .ok (txs.drop job.startTxIndex, job.yielded cfg block txs) := by
  have hRest : (block.l2Txs.drop job.startTxIndex).map (decodeTx cfg block.forkId) =
        (txs.drop job.startTxIndex).map some := by
    rw [List.map_drop, List.map_drop, hDecodes]
  simp [ResequenceBatchJob.yieldNextBlockTransactions, hBlock, ResequenceBatchJob.yielded,
    (yieldTransactions_ok_iff cfg block.forkId _ _ _).mpr ⟨hRest, rfl⟩]

/- The state after one round over the rest of the block. -/
def afterRound (cfg : ResequenceCfg Tx Hash) (st : ResequenceState Hash) (block : FullL2Block Hash)
    (txs : List Tx) : ResequenceState Hash :=
  triedAll cfg st.job.startBlockIndex st.job.startTxIndex (txs.drop st.job.startTxIndex)
    { st with
      job := st.job.yielded cfg block txs
      transactionsForInclusion := (txs.drop st.job.startTxIndex).length }

/- Every yielded transaction is found in its own block. -/
theorem yielded_txIndexMap (job : ResequenceBatchJob Hash) (block : FullL2Block Hash)
    (txs : List Tx) (k : Nat) (tx : Tx) (hAt : (txs.drop job.startTxIndex)[k]? = some tx) :
    ∃ m found, job.startTxIndex + k ≤ m ∧
      txs[m]? = some found ∧ cfg.hash found = cfg.hash tx ∧
      (job.yielded cfg block txs).txIndexMap (cfg.hash tx) = some ⟨job.startBlockIndex, m⟩ := by
  rcases indexed_of_getElem? cfg job.startBlockIndex job.startTxIndex (txs.drop job.startTxIndex)
      (putIndex job.txIndexMap block.l2Blockhash ⟨job.startBlockIndex, 0⟩) k tx hAt with
    ⟨m, found, hLe, hFound, hHash, hIndexed⟩
  refine ⟨job.startTxIndex + m, found, by omega, ?_, hHash, hIndexed⟩
  simpa using hFound

theorem tryTransactions_yielded (hCfg : Lenient cfg) (st : ResequenceState Hash) (txs : List Tx)
    (hBlock : st.job.currentBlock = some block) :
    tryTransactions cfg (txs.drop st.job.startTxIndex) (st.job.yielded cfg block txs) st =
      .ok (afterRound cfg st block txs) := by
  refine innerLoopTransactions_eq cfg hCfg _ _ _ _ ?_
  intro tx hMem
  rcases List.getElem?_of_mem hMem with ⟨k, hAt⟩
  rcases yielded_txIndexMap cfg st.job block txs k tx hAt with ⟨m, found, -, -, -, hIndexed⟩
  exact ⟨_, block, hIndexed, hBlock⟩

theorem outerLoopTransactions_succ (hCfg : Lenient cfg) (fuel : Nat) (st : ResequenceState Hash)
    (hBlock : st.job.currentBlock = some block) (hDecodes : Decodes cfg block txs) :
    outerLoopTransactions cfg (fuel + 1) st = if (txs.drop st.job.startTxIndex).length = 0 then
        some (passEmptyBlock (afterRound cfg st block txs))
      else if (afterRound cfg st block txs).job.atNewBlockBoundary then
        some (.ok (afterRound cfg st block txs))
      else outerLoopTransactions cfg fuel (afterRound cfg st block txs) := by
  simp only [outerLoopTransactions, yieldNextBlockTransactions_eq cfg st.job hBlock hDecodes,
    tryTransactions_yielded cfg hCfg st txs hBlock, hCfg.notStrict, Bool.false_eq_true, if_false]

-- The Cursor after a Round

/- With nothing accepted the cursor stays. -/
theorem afterRound_job_of_none (block : FullL2Block Hash) (txs : List Tx)
    (hNone : lastAccepted cfg st.job.startBlockIndex st.job.startTxIndex
      (txs.drop st.job.startTxIndex) = none) :
    (afterRound cfg st block txs).job = st.job.yielded cfg block txs := by
  simp [afterRound, triedAll, jobBehind, hNone]

/- The cursor moves behind the last accepted transaction. -/
theorem afterRound_job_of_some (txs : List Tx) (hBlock : st.job.currentBlock = some block) {tx : Tx}
    (hSome : lastAccepted cfg st.job.startBlockIndex st.job.startTxIndex
      (txs.drop st.job.startTxIndex) = some tx) {m : Nat}
    (hIndexed : (st.job.yielded cfg block txs).txIndexMap (cfg.hash tx) =
      some ⟨st.job.startBlockIndex, m⟩) :
    (afterRound cfg st block txs).job =
      (st.job.yielded cfg block txs).moveBehind ⟨st.job.startBlockIndex, m⟩ block := by
  have hBehind := ResequenceBatchJob.behind_eq hIndexed hBlock
  simp [afterRound, triedAll, jobBehind, hSome, hBehind]

section Round

variable {tx last : Tx} (hBlock : st.job.currentBlock = some block)
  (hDecodes : Decodes cfg block txs)
  (hSome : lastAccepted cfg st.job.startBlockIndex st.job.startTxIndex
    (txs.drop st.job.startTxIndex) = some tx) (hLast : txs[txs.length - 1]? = some last)

include hBlock hDecodes hSome hLast

/- The block is left if the last accepted transaction has the hash of the block's last one. -/
theorem afterRound_job_finished (hHash : cfg.hash tx = cfg.hash last) :
    (afterRound cfg st block txs).job =
      { st.job.yielded cfg block txs with
        startBlockIndex := st.job.startBlockIndex + 1
        startTxIndex := 0 } := by
  rcases lastAccepted_eq_some cfg _ _ _ _ hSome with ⟨k, hAt, -⟩
  have hInside : st.job.startTxIndex + k < txs.length := by
    have hLt := (List.getElem?_eq_some_iff.1 hAt).1
    simp at hLt
    omega
  -- the map holds the last index with this hash
  have hLastAt :
      (txs.drop st.job.startTxIndex)[txs.length - 1 - st.job.startTxIndex]? = some last := by
    rw [List.getElem?_drop, show st.job.startTxIndex + (txs.length - 1 - st.job.startTxIndex) =
      txs.length - 1 by omega]
    exact hLast
  rcases yielded_txIndexMap cfg st.job block txs _ last hLastAt with
    ⟨m, found, hLe, hFound, -, hIndexed⟩
  have hEnd : m + 1 = txs.length := by
    have hLt := (List.getElem?_eq_some_iff.1 hFound).1
    omega
  rw [← hHash] at hIndexed
  rw [afterRound_job_of_some cfg st txs hBlock hSome hIndexed]
  have hFull : block.l2Txs.length ≤ m + 1 := by
    rw [hDecodes.length_eq]
    omega
  simp [ResequenceBatchJob.moveBehind, hFull]

/- Otherwise the cursor stops inside the block, and nothing from there on is accepted. -/
theorem afterRound_job_stopped (hHash : cfg.hash tx ≠ cfg.hash last) :
    ∃ t, 0 < t ∧ t < txs.length ∧
      (afterRound cfg st block txs).job =
        { st.job.yielded cfg block txs with
          startBlockIndex := st.job.startBlockIndex
          startTxIndex := t } ∧
      lastAccepted cfg st.job.startBlockIndex t (txs.drop t) = none := by
  rcases lastAccepted_eq_some cfg _ _ _ _ hSome with ⟨k, hAt, hNone⟩
  rcases yielded_txIndexMap cfg st.job block txs k tx hAt
    with ⟨m, found, hLe, hFound, hSame, hIndexed⟩
  have hLt := (List.getElem?_eq_some_iff.1 hFound).1
  have hBefore : m + 1 < txs.length := by
    rcases Nat.lt_or_ge (m + 1) txs.length with hLt' | hGe
    · exact hLt'
    · have hEnd : m = txs.length - 1 := by omega
      rw [hEnd, hLast] at hFound
      rw [Option.some.inj hFound] at hHash
      exact absurd hSame.symm hHash
  refine ⟨m + 1, by omega, hBefore, ?_, ?_⟩
  · rw [afterRound_job_of_some cfg st txs hBlock hSome hIndexed]
    have hNotFull : ¬ block.l2Txs.length ≤ m + 1 := by
      rw [hDecodes.length_eq]
      omega
    simp [ResequenceBatchJob.moveBehind, hNotFull]
  · have hDropped := lastAccepted_drop cfg _ _ (m - (st.job.startTxIndex + k)) _ hNone
    have hIndex : st.job.startTxIndex + (k + 1) + (m - (st.job.startTxIndex + k)) = m + 1 := by
      omega
    rwa [List.drop_drop, List.drop_drop, hIndex, ← Nat.add_assoc, hIndex] at hDropped

end Round

/- From inside a block whose rest is never accepted the outer loop does not return. -/
theorem outerLoopTransactions_stuck (hCfg : Lenient cfg) (fuel : Nat)
    (st st' : ResequenceState Hash) (hBlock : st.job.currentBlock = some block)
    (hDecodes : Decodes cfg block txs)
    (hInside : 0 < st.job.startTxIndex ∧ st.job.startTxIndex < txs.length)
    (hNone : lastAccepted cfg st.job.startBlockIndex st.job.startTxIndex
      (txs.drop st.job.startTxIndex) = none) :
    outerLoopTransactions cfg fuel st ≠ some (.ok st') := by
  induction fuel generalizing st with
  | zero => simp [outerLoopTransactions]
  | succ fuel hFuel =>
    have hJob := afterRound_job_of_none cfg st block txs hNone
    have hRest : (txs.drop st.job.startTxIndex).length ≠ 0 := by
      simp
      omega
    have hNotBoundary : ¬ (afterRound cfg st block txs).job.atNewBlockBoundary = true := by
      rw [hJob]
      exact fun hBoundary => hInside.1.ne' (of_decide_eq_true hBoundary)
    rw [outerLoopTransactions_succ cfg hCfg fuel st hBlock
      hDecodes, if_neg hRest, if_neg hNotBoundary]
    refine hFuel (afterRound cfg st block txs) ?_ ?_ ?_
    · rw [hJob]
      exact hBlock
    · rw [hJob]
      exact hInside
    · rw [hJob]
      exact hNone

-- The Rounds of a Block

variable {cfg : ResequenceCfg Tx Hash} {batch : List (FullL2Block Hash)} {blockNum : Nat}
  {st : ResequenceState Hash}

/- A round from the start of a block tries all of it. -/
theorem afterRound_blockDone (hAt : AtBlock batch blockNum st) :
    BlockDone cfg blockNum txs.length st (afterRound cfg st block txs) := by
  constructor <;> simp [afterRound, triedAll, hAt.startBlockIndex, hAt.startTxIndex]

section

variable (hBlock : batch[blockNum]? = some block)

include hBlock

/- An empty block is passed in one round. -/
theorem passEmptyBlock_afterRound (hAt : AtBlock batch blockNum st)
    (hDecodes : Decodes cfg block []) :
    ∃ st', passEmptyBlock (afterRound cfg st block []) =
        .ok st' ∧
      AtBlock batch (blockNum + 1) st' ∧ BlockDone cfg blockNum 0 st st' := by
  have hCurrent : st.job.currentBlock = some block := hAt.currentBlock_eq.trans hBlock
  have hJob : (afterRound cfg st block []).job = st.job.yielded cfg block [] :=
    afterRound_job_of_none cfg st block [] (by simp [lastAccepted])
  have hIdx : (st.job.yielded cfg block []).txIndexMap block.l2Blockhash =
        some ⟨st.job.startBlockIndex, 0⟩ := by
    simp [ResequenceBatchJob.yielded, indexed, putIndex]
  have hUpdate : (st.job.yielded cfg block []).updateLastProcessedTx block.l2Blockhash =
        .ok ((st.job.yielded cfg block []).moveBehind ⟨st.job.startBlockIndex, 0⟩ block) :=
    ResequenceBatchJob.updateLastProcessedTx_eq hIdx hCurrent
  have hYielded : (st.job.yielded cfg block []).currentBlock = some block := hCurrent
  have hEmpty : block.l2Txs.length ≤ 0 + 1 := by
    rw [hDecodes.length_eq]
    simp
  refine
    ⟨{ afterRound cfg st block [] with
      job := (st.job.yielded cfg block []).moveBehind ⟨st.job.startBlockIndex, 0⟩ block },
      by simp [passEmptyBlock, hJob, hYielded, hUpdate], ?_, ?_⟩
  · constructor <;>
      simp [ResequenceBatchJob.moveBehind, hEmpty, ResequenceBatchJob.yielded, hAt.batchToProcess,
        hAt.startBlockIndex]
  · have hDone : BlockDone cfg blockNum ([] : List Tx).length st (afterRound cfg st block []) :=
      afterRound_blockDone hAt
    exact { hDone with }

/- A block that ends accepted is done after one round. -/
theorem outerLoopTransactions_accepted (hCfg : Lenient cfg) (hAt : AtBlock batch blockNum st)
    (hDecodes : Decodes cfg block txs)
    (hEnds : EndsAccepted cfg blockNum txs) :
    ∃ st', (∀ fuel, outerLoopTransactions cfg (fuel + 1) st = some (.ok st')) ∧
      AtBlock batch (blockNum + 1) st' ∧ BlockDone cfg blockNum txs.length st st' := by
  have hCurrent : st.job.currentBlock = some block := hAt.currentBlock_eq.trans hBlock
  cases hLast : txs.getLast? with
  | none =>
    have hNil : txs = [] := List.getLast?_eq_none_iff.1 hLast
    subst hNil
    rcases passEmptyBlock_afterRound hBlock hAt hDecodes with ⟨st', hPass, hAt', hDone⟩
    refine ⟨st', fun fuel => ?_, hAt', hDone⟩
    simp [hPass, outerLoopTransactions_succ cfg hCfg fuel st hCurrent hDecodes]
  | some last =>
    have hLastHash : (lastAccepted cfg blockNum 0 txs).map cfg.hash = some (cfg.hash last) :=
      hEnds.trans (by simp [hLast])
    rcases Option.map_eq_some_iff.1 hLastHash with ⟨tx, hSome, hHash⟩
    rw [List.getLast?_eq_getElem?] at hLast
    have hJob := afterRound_job_finished cfg st hCurrent hDecodes
        (by simpa [hAt.startBlockIndex, hAt.startTxIndex] using hSome) hLast hHash
    have hNonempty : (txs.drop st.job.startTxIndex).length ≠ 0 := by
      have hLt := (List.getElem?_eq_some_iff.1 hLast).1
      simp [hAt.startTxIndex]
      intro hNil
      simp [hNil] at hLt
    have hBoundary : (afterRound cfg st block txs).job.atNewBlockBoundary = true := by
      rw [hJob]
      exact decide_eq_true rfl
    refine ⟨afterRound cfg st block txs, fun fuel => ?_, ?_, afterRound_blockDone hAt⟩
    · rw [outerLoopTransactions_succ cfg hCfg fuel st hCurrent hDecodes, if_neg hNonempty,
        if_pos hBoundary]
    · constructor <;>
        simp [hJob, ResequenceBatchJob.yielded, hAt.batchToProcess, hAt.startBlockIndex]

/- The outer loop returns only from blocks that decode. -/
theorem decodes_of_outerLoopTransactions (fuel : Nat) {st' : ResequenceState Hash}
    (hAt : AtBlock batch blockNum st)
    (hOk : outerLoopTransactions cfg (fuel + 1) st = some (.ok st')) :
    ∃ txs, Decodes cfg block txs := by
  have hCurrent : st.job.currentBlock = some block := hAt.currentBlock_eq.trans hBlock
  cases hYield :
      yieldTransactions cfg block.forkId st.job.startBlockIndex st.job.startTxIndex
        (block.l2Txs.drop st.job.startTxIndex)
        (putIndex st.job.txIndexMap block.l2Blockhash ⟨st.job.startBlockIndex, 0⟩) with
  | error failure =>
    simp [outerLoopTransactions, ResequenceBatchJob.yieldNextBlockTransactions,
      hCurrent, hYield] at hOk
  | ok yielded =>
    rcases yielded with ⟨txs, txIndexMap⟩
    have hDecodes := ((yieldTransactions_ok_iff ..).mp hYield).1
    exact ⟨txs, by simpa [Decodes, hAt.startTxIndex] using hDecodes⟩

/-
  If the outer loop returns, the block decodes; it ends accepted, or nothing of it is accepted and
  the cursor is still at its start.
-/
theorem outerLoopTransactions_ok (hCfg : Lenient cfg) (fuel : Nat) {st' : ResequenceState Hash}
    (hAt : AtBlock batch blockNum st)
    (hOk : outerLoopTransactions cfg fuel st = some (.ok st')) : ∃ txs, Decodes cfg block txs ∧
      (EndsAccepted cfg blockNum txs ∨
        (¬ EndsAccepted cfg blockNum txs ∧
          AtBlock batch blockNum st' ∧
          0 < st'.transactionsForInclusion ∧ st'.building = st.building)) := by
  cases fuel with
  | zero => simp [outerLoopTransactions] at hOk
  | succ fuel =>
    rcases decodes_of_outerLoopTransactions hBlock fuel hAt hOk with ⟨txs, hDecodes⟩
    refine ⟨txs, hDecodes, ?_⟩
    by_cases hEnds : EndsAccepted cfg blockNum txs
    · exact Or.inl hEnds
    · right
      have hCurrent : st.job.currentBlock = some block := hAt.currentBlock_eq.trans hBlock
      have hNotNil : txs ≠ [] := by
        intro hNil
        simp [EndsAccepted, hNil, lastAccepted] at hEnds
      have hNonempty : (txs.drop st.job.startTxIndex).length ≠ 0 := by
        simpa [hAt.startTxIndex] using hNotNil
      rw [outerLoopTransactions_succ cfg hCfg fuel st hCurrent hDecodes, if_neg hNonempty] at hOk
      cases hAccepted : lastAccepted cfg blockNum 0 txs with
      | none =>
        have hJob := afterRound_job_of_none cfg st block txs
            (by simpa [hAt.startBlockIndex, hAt.startTxIndex] using hAccepted)
        have hBoundary : (afterRound cfg st block txs).job.atNewBlockBoundary = true := by
          rw [hJob]
          exact decide_eq_true hAt.startTxIndex
        rw [if_pos hBoundary] at hOk
        cases hOk
        have hDone : BlockDone cfg blockNum txs.length st (afterRound cfg st block txs) :=
          afterRound_blockDone hAt
        have hNothing := (lastAccepted_eq_none_iff cfg blockNum 0 txs).1 hAccepted
        refine ⟨hEnds, ?_, ?_, ?_⟩
        · constructor <;> rw [hJob]
          · exact hAt.batchToProcess
          · exact hAt.startBlockIndex
          · exact hAt.startTxIndex
        · rw [hDone.transactionsForInclusion]
          exact List.length_pos_iff.2 hNotNil
        · rw [hDone.building, hNothing, List.append_nil]
      | some tx =>
        have hLast : txs[txs.length - 1]? = some (txs.getLast hNotNil) := by
          rw [← List.getLast?_eq_getElem?, List.getLast?_eq_some_getLast hNotNil]
        have hHash : cfg.hash tx ≠ cfg.hash (txs.getLast hNotNil) := by
          intro hSame
          exact hEnds (by
            simp [EndsAccepted, hAccepted, hSame, List.getLast?_eq_some_getLast hNotNil])
        rcases afterRound_job_stopped cfg st hCurrent hDecodes
            (by simpa [hAt.startBlockIndex, hAt.startTxIndex] using hAccepted) hLast hHash with
          ⟨t, hPos, hLt, hJob, hNone⟩
        have hNotBoundary : ¬ (afterRound cfg st block txs).job.atNewBlockBoundary = true := by
          rw [hJob]
          exact fun hBoundary => hPos.ne' (of_decide_eq_true hBoundary)
        rw [if_neg hNotBoundary] at hOk
        refine absurd hOk (outerLoopTransactions_stuck cfg hCfg fuel _ st' ?_ hDecodes ?_ ?_)
        · rw [hJob]
          exact hCurrent
        · rw [hJob]
          exact ⟨hPos, hLt⟩
        · rw [hJob]
          exact hNone

-- The Whole Batch

/- The block decodes and ends accepted. -/
def EndsWell (cfg : ResequenceCfg Tx Hash) (blockNum : Nat) (block : FullL2Block Hash) : Prop :=
  ∃ txs, Decodes cfg block txs ∧ EndsAccepted cfg blockNum txs

/- The places of all transactions, in their order. -/
def batchPlaces :
    Nat → List (FullL2Block Hash) → List ResequenceTxMetadata
  | _, [] => []
  | blockNum, block :: rest =>
      places blockNum 0 block.l2Txs.length ++ batchPlaces (blockNum + 1) rest

/- What a run over some blocks adds to the record. -/
structure BlocksDone (cfg : ResequenceCfg Tx Hash)
    (blockNum : Nat) (blocks : List (FullL2Block Hash)) (st st' : ResequenceState Hash) : Prop where
  attempted : st'.attempted = st.attempted ++ batchPlaces blockNum blocks
  included : st'.builtBlocks.flatten =
      st.builtBlocks.flatten ++ (batchPlaces blockNum blocks).filter cfg.accepts
  visited : st'.visited = st.visited ++ List.range' blockNum blocks.length

/- Blocks that all end well are done in one batch. -/
omit hBlock in
theorem sequencingBatchStep_accepted (hCfg : Lenient cfg) (blockNum : Nat)
    (blocks : List (FullL2Block Hash)) (hBlocks : batch.drop blockNum = blocks)
    (hAt : AtBlock batch blockNum st)
    (hWell : ∀ k block, blocks[k]? = some block → EndsWell cfg (blockNum + k) block) :
    ∃ st', (∀ fuel, blocks.length < fuel → sequencingBatchStep cfg fuel st = some (.ok st')) ∧
      st'.job.hasMoreBlockToProcess = false ∧ BlocksDone cfg blockNum blocks st st' := by
  induction blocks generalizing blockNum st with
  | nil =>
    have hNoMore : st.job.hasMoreBlockToProcess = false := by
      rw [← Bool.not_eq_true, hAt.hasMore_iff]
      simpa using hBlocks
    refine ⟨st, ?_, hNoMore, ?_⟩
    · intro fuel hFuel
      cases fuel with
      | zero => omega
      | succ fuel => simp [sequencingBatchStep, hNoMore]
    · constructor <;> simp [batchPlaces]
  | cons block rest hRest =>
    have hBlock : batch[blockNum]? = some block := by
      have hHead := congrArg (fun l => l[0]?) hBlocks
      simpa using hHead
    have hTail : batch.drop (blockNum + 1) = rest := by
      rw [← List.tail_drop, hBlocks, List.tail_cons]
    have hMore : st.job.hasMoreBlockToProcess = true :=
      hAt.hasMore_iff.2 (List.getElem?_eq_some_iff.1 hBlock).1
    rcases hWell 0 block (by simp) with ⟨txs, hDecodes, hEnds⟩
    rcases outerLoopTransactions_accepted hBlock hCfg hAt.beginBlock hDecodes hEnds with
      ⟨st₁, hOuter, hAt₁, hDone⟩
    rcases hRest (blockNum + 1) hTail hAt₁.finishBlock (fun k block hBlock => by
      rw [Nat.add_right_comm]
      exact hWell (k + 1) block (by simpa using hBlock)) with ⟨st', hStep, hNoMore, hDone'⟩
    refine ⟨st', ?_, hNoMore, ?_⟩
    · intro fuel hFuel
      rcases fuel with _ | _ | fuel
      · simp at hFuel
      · simp at hFuel
      · simp only [sequencingBatchStep, hMore, if_true, hOuter, if_neg (hDone.not_unmined hEnds)]
        exact hStep (fuel + 1) (by simpa using hFuel)
    · have hLength := hDecodes.length_eq
      constructor
      · rw [hDone'.attempted]
        simp [ResequenceState.finishBlock, hDone.attempted,
          ResequenceState.beginBlock, batchPlaces, hLength]
      · rw [hDone'.included]
        simp [ResequenceState.finishBlock, hDone.building,
          hDone.builtBlocks, ResequenceState.beginBlock, batchPlaces, hLength]
      · rw [hDone'.visited]
        simp [ResequenceState.finishBlock, hDone.visited,
          ResequenceState.beginBlock, hAt.startBlockIndex, List.range'_succ]

def stepBehind (cfg : ResequenceCfg Tx Hash) (fuel : Nat) (st : ResequenceState Hash) :
    Option (Except Failure (ResequenceState Hash)) :=
  if 0 < st.transactionsForInclusion ∧ st.building.length = 0 then
    if cfg.sequencerSkipEmptyBlocks then some (.ok st)
    else some (.ok st.finishBlock)
  else sequencingBatchStep cfg fuel st.finishBlock

/- The cursor has left the block if it ended well. -/
theorem stepBehind_ok (hCfg : Lenient cfg) (fuel : Nat)
    {st₁ st' : ResequenceState Hash} (hAt : AtBlock batch blockNum st)
    (hOuter : outerLoopTransactions cfg fuel st.beginBlock = some (.ok st₁))
    (hOk : stepBehind cfg fuel st₁ = some (.ok st')) : (EndsWell cfg blockNum block ∧
        AtBlock batch (blockNum + 1) st₁.finishBlock ∧
        sequencingBatchStep cfg fuel st₁.finishBlock = some (.ok st')) ∨
      (¬ EndsWell cfg blockNum block ∧ AtBlock batch blockNum st') := by
  rcases outerLoopTransactions_ok hBlock hCfg fuel
      hAt.beginBlock hOuter with ⟨txs, hDecodes, hEnds | hBlocked⟩
  · left
    rcases outerLoopTransactions_accepted hBlock hCfg hAt.beginBlock hDecodes hEnds with
      ⟨st₂, hOuter₂, hAt₂, hDone⟩
    have hSame : st₂ = st₁ := by
      cases fuel with
      | zero => simp [outerLoopTransactions] at hOuter
      | succ fuel => simpa [hOuter₂ fuel] using hOuter
    subst hSame
    rw [stepBehind, if_neg (hDone.not_unmined hEnds)] at hOk
    exact ⟨⟨txs, hDecodes, hEnds⟩, hAt₂.finishBlock, hOk⟩
  · right
    rcases hBlocked with ⟨hNotEnds, hAt₁, hYielded, hBuilding⟩
    have hUnmined : 0 < st₁.transactionsForInclusion ∧ st₁.building.length = 0 :=
      ⟨hYielded, by simp [hBuilding, ResequenceState.beginBlock]⟩
    refine ⟨?_, ?_⟩
    · rintro ⟨txs', hDecodes', hEnds'⟩
      rw [hDecodes'.unique hDecodes] at hEnds'
      exact hNotEnds hEnds'
    · rw [stepBehind, if_pos hUnmined] at hOk
      cases hSkip : cfg.sequencerSkipEmptyBlocks with
      | true =>
        simp [hSkip] at hOk
        exact hOk ▸ hAt₁
      | false =>
        simp [hSkip] at hOk
        exact hOk ▸ hAt₁.finishBlock

end

/-
  If a batch step returns, then either every block from the cursor on ends well, or the cursor is
  left at the start of a block that does not.
-/
theorem sequencingBatchStep_ok (hCfg : Lenient cfg) (fuel blockNum : Nat)
    {st' : ResequenceState Hash} (hAt : AtBlock batch blockNum st)
    (hOk : sequencingBatchStep cfg fuel st = some (.ok st')) :
    (∀ b block, blockNum ≤ b → batch[b]? = some block →
        EndsWell cfg b block) ∨
      ∃ b block, batch[b]? = some block ∧ AtBlock batch b st' ∧ ¬ EndsWell cfg b block := by
  induction fuel generalizing blockNum st with
  | zero => simp [sequencingBatchStep] at hOk
  | succ fuel hFuel =>
    cases hBlock : batch[blockNum]? with
    | none =>
      left
      intro b block hLe hAtB
      have hLt := (List.getElem?_eq_some_iff.1 hAtB).1
      have hGe := List.getElem?_eq_none_iff.1 hBlock
      omega
    | some block =>
      have hMore : st.job.hasMoreBlockToProcess = true :=
        hAt.hasMore_iff.2 (List.getElem?_eq_some_iff.1 hBlock).1
      simp only [sequencingBatchStep, hMore, if_true] at hOk
      cases hOuter : outerLoopTransactions cfg fuel st.beginBlock with
      | none => simp [hOuter] at hOk
      | some ended =>
        cases ended with
        | error failure => simp [hOuter] at hOk
        | ok st₁ =>
          simp only [hOuter] at hOk
          rcases stepBehind_ok hBlock hCfg fuel hAt hOuter hOk with
            ⟨hWell, hAt₁, hStep⟩ | ⟨hNot, hAt'⟩
          · refine (hFuel (blockNum + 1) hAt₁ hStep).imp_left ?_
            intro hLater b other hLe hOther
            rcases Nat.eq_or_lt_of_le hLe with rfl | hLt
            · rw [hBlock] at hOther
              exact Option.some.inj hOther ▸ hWell
            · exact hLater b other hLt hOther
          · exact Or.inr ⟨blockNum, block, hBlock, hAt', hNot⟩

/- If the resequencing of a batch returns, then every block from the cursor on ends well. -/
theorem resequenceLoop_ok (hCfg : Lenient cfg) (fuel subBatchCount blockNum : Nat)
    {result : ResequenceState Hash × Nat} (hAt : AtBlock batch blockNum st)
    (hOk : resequenceLoop cfg fuel subBatchCount st = some (.ok result)) :
    ∀ b block, blockNum ≤ b → batch[b]? = some block → EndsWell cfg b block := by
  revert hOk
  fun_induction resequenceLoop cfg fuel subBatchCount st generalizing blockNum with
  | case4 fuel subBatchCount st hMore st₁ hStep ih =>
    intro hOk
    rcases sequencingBatchStep_ok hCfg fuel blockNum hAt hStep with
      hWell | ⟨b, block, hBlock, hAt₁, hNot⟩
    · exact hWell
    · exact absurd (ih b hAt₁ hOk b block le_rfl hBlock) hNot
  | case5 fuel subBatchCount st hMore =>
    intro _ b block hLe hBlock
    rw [hAt.hasMore_iff] at hMore
    have hLt := (List.getElem?_eq_some_iff.1 hBlock).1
    omega
  | _ => rintro ⟨⟩

-- Progress

/-
  The batch was resequenced: every transaction was tried in its order, every accepted one was
  included once, and every block was visited.
-/
structure Resequenced (cfg : ResequenceCfg Tx Hash)
    (batch : List (FullL2Block Hash)) (st : ResequenceState Hash) : Prop where
  attempted : st.attempted = batchPlaces 0 batch
  included : st.builtBlocks.flatten = (batchPlaces 0 batch).filter cfg.accepts
  visited : st.visited = List.range batch.length

variable (accepted : List ResequenceTxMetadata) (skipEmptyBlocks : Bool)

/- A batch whose blocks all end well is resequenced. -/
theorem resequenceBatch_accepted (cfg : ResequenceCfg Tx Hash) (hCfg : Lenient cfg)
    (batch : List (FullL2Block Hash)) (hBatch : batch ≠ [])
    (hWell : ∀ b block, batch[b]? = some block → EndsWell cfg b block) :
    ∃ st steps, (∀ fuel, steps ≤ fuel → resequenceBatch cfg fuel batch = some (.ok st)) ∧
      Resequenced cfg batch st := by
  rcases sequencingBatchStep_accepted hCfg 0 batch (List.drop_zero) (startResequence_atBlock batch)
      (fun k block hBlock => by
        rw [Nat.zero_add]
        exact hWell k block hBlock) with
    ⟨st, hStep, hNoMore, hDone⟩
  refine ⟨st, batch.length + 2, ?_, ?_⟩
  · intro fuel hFuel
    rcases fuel with _ | _ | fuel
    · omega
    · omega
    · have hMore : (startResequence batch).job.hasMoreBlockToProcess = true :=
        (startResequence_atBlock batch).hasMore_iff.2 (List.length_pos_iff.2 hBatch)
      have hLoop :
          resequenceLoop cfg (fuel + 2) 0 (startResequence batch) = some (.ok (st, 1)) := by
        simp [resequenceLoop, hMore, hNoMore, hStep (fuel + 1) (by omega)]
      have hFirst : sliceIndex batch 0 = .ok (batch.head hBatch) :=
        sliceIndex_of_some (by rw [← List.head?_eq_getElem?, List.head?_eq_some_head hBatch])
      simp [resequenceBatch, hLoop, hFirst, hCfg.notStrict]
  · constructor
    · rw [hDone.attempted]
      rfl
    · rw [hDone.included]
      rfl
    · rw [hDone.visited, List.range_eq_range']
      rfl

/- Only such a batch lets the resequencing return. -/
theorem resequenceBatch_ok (cfg : ResequenceCfg Tx Hash) (hCfg : Lenient cfg)
    (batch : List (FullL2Block Hash)) (fuel : Nat) (st : ResequenceState Hash)
    (hOk : resequenceBatch cfg fuel batch = some (.ok st)) :
    batch ≠ [] ∧ ∀ b block, batch[b]? = some block → EndsWell cfg b block := by
  cases hLoop : resequenceLoop cfg fuel 0 (startResequence batch) with
  | none => simp [resequenceBatch, hLoop] at hOk
  | some ended =>
    cases ended with
    | error failure => simp [resequenceBatch, hLoop] at hOk
    | ok result =>
      refine ⟨?_, ?_⟩
      · intro hNil
        subst hNil
        simp [resequenceBatch, hLoop, sliceIndex] at hOk
      · intro b block hBlock
        exact resequenceLoop_ok hCfg fuel 0 0 (startResequence_atBlock batch) hLoop b block
          (Nat.zero_le b) hBlock

/-
  Resequencing makes progress exactly if the batch has a block and each of its blocks ends
  accepted.
-/
theorem resequenceBatch_iff (cfg : ResequenceCfg Tx Hash) (hCfg : Lenient cfg)
    (batch : List (FullL2Block Hash)) : (∃ st steps,
      (∀ fuel, steps ≤ fuel → resequenceBatch cfg fuel batch = some (.ok st)) ∧
      Resequenced cfg batch st) ↔
    (batch ≠ [] ∧
      ∀ b block, batch[b]? = some block →
        ∃ txs, Decodes cfg block txs ∧ EndsAccepted cfg b txs) := by
  constructor
  · rintro ⟨st, steps, hRun, -⟩
    exact resequenceBatch_ok cfg hCfg batch steps st (hRun steps le_rfl)
  · rintro ⟨hBatch, hWell⟩
    exact resequenceBatch_accepted cfg hCfg batch hBatch hWell

/- Transactions of one byte, which is also their hash. -/
def byteCfg (accepted : List ResequenceTxMetadata) (skipEmptyBlocks : Bool) :
    ResequenceCfg UInt8 UInt8 where
  decoder := fun encoded percentage _ => .ok (encoded.headD 0, percentage)
  hash := id
  outcome := fun place =>
    if place ∈ accepted then .accepted else .failed
  sequencerResequenceStrict := false
  sequencerSkipEmptyBlocks := skipEmptyBlocks

def byteBlock (l2Blockhash : UInt8) (txs : List UInt8) : FullL2Block UInt8 where
  forkId := 12
  l2Blockhash := l2Blockhash
  l2Txs := txs.map (fun tx => ⟨[tx], 255⟩)

theorem byteCfg_lenient : Lenient (byteCfg accepted skipEmptyBlocks) := by
  constructor
  · rfl
  · intro place
    simp only [byteCfg]
    split <;> simp

theorem byteBlock_decodes (l2Blockhash : UInt8) (txs : List UInt8) :
    Decodes (byteCfg accepted skipEmptyBlocks) (byteBlock l2Blockhash txs) txs := by
  simp [Decodes, byteBlock, byteCfg, decodeTx, Except.toOption]

/- The first transaction fails, the second is accepted. -/
theorem resequenceBatch_iff_firstFails : Lenient (byteCfg [⟨0, 1⟩] false) ∧
      ∃ st steps, (∀ fuel, steps ≤ fuel →
          resequenceBatch (byteCfg [⟨0, 1⟩] false) fuel
            [byteBlock 100 [1, 2], byteBlock 101 []] = some (.ok st)) ∧
        Resequenced (byteCfg [⟨0, 1⟩] false) [byteBlock 100 [1, 2], byteBlock 101 []] st := by
  have hLenient := byteCfg_lenient [⟨0, 1⟩] false
  refine ⟨hLenient, (resequenceBatch_iff _ hLenient _).2 ⟨by simp, ?_⟩⟩
  intro b block hBlock
  rcases b with _ | _ | b
  · have hSame : byteBlock 100 [1, 2] = block := by simpa using hBlock
    subst hSame
    refine ⟨[1, 2], byteBlock_decodes _ _ _ _, ?_⟩
    simp only [EndsAccepted]
    decide
  · have hSame : byteBlock 101 [] = block := by simpa using hBlock
    subst hSame
    exact ⟨[], byteBlock_decodes _ _ _ _, rfl⟩
  · simp at hBlock

/- A block that does not end accepted blocks the batch. -/
theorem resequenceBatch_ne_ok (l2Blockhash : UInt8) (txs : List UInt8)
    (hNot : ¬ EndsAccepted (byteCfg accepted skipEmptyBlocks) 0 txs) (fuel : Nat)
    (st : ResequenceState UInt8) : resequenceBatch (byteCfg accepted skipEmptyBlocks) fuel
      [byteBlock l2Blockhash txs] ≠ some (.ok st) := by
  intro hOk
  rcases (resequenceBatch_ok _ (byteCfg_lenient accepted skipEmptyBlocks) _ fuel st
      hOk).2 0 (byteBlock l2Blockhash txs) rfl with
    ⟨txs', hDecodes, hEnds⟩
  rw [hDecodes.unique (byteBlock_decodes accepted skipEmptyBlocks l2Blockhash txs)] at hEnds
  exact hNot hEnds

/- If the last transaction of a block fails, or its only one, resequencing never returns. -/
theorem resequenceBatch_lastFails : (¬ ∃ fuel st,
      resequenceBatch (byteCfg [⟨0, 0⟩] false) fuel [byteBlock 100 [1, 2]] = some (.ok st)) ∧
    (¬ ∃ fuel st, resequenceBatch (byteCfg [] false) fuel [byteBlock 100 [1]] = some (.ok st)) := by
  refine ⟨?_, ?_⟩
  · rintro ⟨fuel, st, hOk⟩
    refine resequenceBatch_ne_ok _ _ _ _ ?_ fuel st hOk
    simp only [EndsAccepted]
    decide
  · rintro ⟨fuel, st, hOk⟩
    refine resequenceBatch_ne_ok _ _ _ _ ?_ fuel st hOk
    simp only [EndsAccepted]
    decide

end XLayerErigon.Sequencer
