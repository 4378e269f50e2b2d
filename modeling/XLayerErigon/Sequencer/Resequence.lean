import XLayerErigon.Go

/-
  Resequencing of a batch that the data stream holds already.

  A job keeps a cursor into the blocks of the batch.  Each round yields the rest of the block at
  the cursor and tries its transactions in order; the hash of an accepted one moves the cursor.  A
  block is done when the cursor stands at the start of a block again.

  Key definitions include:
    * `ResequenceBatchJob`
    * `outerLoopTransactions`
    * `sequencingBatchStep`
    * `resequenceBatch`
-/

namespace XLayerErigon.Sequencer

-- The Job

structure L2TransactionProto where
  encoded : List UInt8
  effectiveGasPricePercentage : UInt8

/- The fields of a block of the stream that the job reads. -/
structure FullL2Block (Hash : Type) where
  forkId : UInt64
  l2Blockhash : Hash
  l2Txs : List L2TransactionProto

/- The place of a transaction in the batch. -/
structure ResequenceTxMetadata where
  blockNum : Nat
  txIndex : Nat
  deriving DecidableEq

structure ResequenceBatchJob (Hash : Type) where
  batchToProcess : List (FullL2Block Hash)
  startBlockIndex : Nat
  startTxIndex : Nat
  txIndexMap : Hash → Option ResequenceTxMetadata

/- How the attempt to add a transaction to a block ends. -/
inductive TxOutcome where
  | accepted
  | unknownSender
  | failed
  | overflowGas
  deriving DecidableEq

/-
  What the loops depend on: the decoder, the hash of a transaction, the outcome of executing each
  transaction of the batch, and two options of the sequencer.
-/
structure ResequenceCfg (Tx Hash : Type) where
  decoder : List UInt8 → UInt8 → UInt64 → Except String (Tx × UInt8)
  hash : Tx → Hash
  outcome : ResequenceTxMetadata → TxOutcome
  sequencerResequenceStrict : Bool
  sequencerSkipEmptyBlocks : Bool

variable {Tx Hash : Type}

def newResequenceBatchJob (batch : List (FullL2Block Hash)) :
    ResequenceBatchJob Hash where
  batchToProcess := batch
  startBlockIndex := 0
  startTxIndex := 0
  txIndexMap := fun _ => none

namespace ResequenceBatchJob

def hasMoreBlockToProcess (job : ResequenceBatchJob Hash) : Bool :=
  job.startBlockIndex < job.batchToProcess.length

def atNewBlockBoundary (job : ResequenceBatchJob Hash) : Bool := job.startTxIndex = 0

def currentBlock (job : ResequenceBatchJob Hash) : Option (FullL2Block Hash) :=
  job.batchToProcess[job.startBlockIndex]?

end ResequenceBatchJob

variable [DecidableEq Hash]

/- Write one entry of the map from hashes to places. -/
def putIndex (txIndexMap : Hash → Option ResequenceTxMetadata) (h : Hash)
    (idx : ResequenceTxMetadata) : Hash → Option ResequenceTxMetadata :=
  Function.update txIndexMap h (some idx)

/-
  The loop of `YieldNextBlockTransactions` over the rest of a block, whose first transaction has
  index `i`.
-/
def yieldTransactions (cfg : ResequenceCfg Tx Hash) (forkId : UInt64) (blockNum : Nat) :
    Nat → List L2TransactionProto →
      (Hash → Option ResequenceTxMetadata) →
      Except Failure (List Tx × (Hash → Option ResequenceTxMetadata))
  | _, [], txIndexMap => .ok ([], txIndexMap)
  | i, transaction :: rest, txIndexMap =>
      match cfg.decoder transaction.encoded transaction.effectiveGasPricePercentage forkId with
      | .error message =>
          .error (.error ("decode tx error: " ++ message))
      | .ok (tx, _) =>
          match
            yieldTransactions cfg forkId blockNum (i + 1) rest
              (putIndex txIndexMap (cfg.hash tx) ⟨blockNum, i⟩) with
          | .error failure => .error failure
          | .ok (blockTransactions, txIndexMap) =>
              .ok (tx :: blockTransactions, txIndexMap)

namespace ResequenceBatchJob

/- The transactions from the cursor to the block's end. -/
def yieldNextBlockTransactions (cfg : ResequenceCfg Tx Hash) (job : ResequenceBatchJob Hash) :
    Except Failure (List Tx × ResequenceBatchJob Hash) :=
  match job.currentBlock with
  | none => .ok ([], job)
  | some block =>
    match
      yieldTransactions cfg block.forkId job.startBlockIndex job.startTxIndex
        (block.l2Txs.drop job.startTxIndex)
        (putIndex job.txIndexMap block.l2Blockhash ⟨job.startBlockIndex, 0⟩) with
    | .error failure => .error failure
    | .ok (blockTransactions, txIndexMap) =>
      .ok (blockTransactions, { job with txIndexMap := txIndexMap })

/- The cursor after the transaction at `idx` of `block`. -/
def moveBehind (job : ResequenceBatchJob Hash) (idx : ResequenceTxMetadata)
    (block : FullL2Block Hash) : ResequenceBatchJob Hash :=
  if block.l2Txs.length ≤ idx.txIndex + 1 then
    { job with
      startBlockIndex := idx.blockNum + 1
      startTxIndex := 0 }
  else
    { job with
      startBlockIndex := idx.blockNum
      startTxIndex := idx.txIndex + 1 }

/- An unknown hash is only logged. -/
def updateLastProcessedTx (job : ResequenceBatchJob Hash)
    (h : Hash) : Except Failure (ResequenceBatchJob Hash) :=
  match job.txIndexMap h with
  | none => .ok job
  | some idx =>
    match sliceIndex job.batchToProcess idx.blockNum with
    | .error failure => .error failure
    | .ok block => .ok (job.moveBehind idx block)

end ResequenceBatchJob

-- The Loops

/-
  The job, with a record of the work: the transactions that were tried, the index of the block at
  which each new block was begun, the length of `transactionsForInclusion`, the transactions of
  the block being built, and those of the blocks that were built.
-/
structure ResequenceState (Hash : Type) where
  job : ResequenceBatchJob Hash
  attempted : List ResequenceTxMetadata
  visited : List Nat
  transactionsForInclusion : Nat
  building : List ResequenceTxMetadata
  builtBlocks : List (List ResequenceTxMetadata)

/-
  `InnerLoopTransactions`, from the transaction with index `i` on.  Timers and skipped senders
  play no part while a batch is resequenced.  Messages are kept as the formats that the source
  prints its values with.
-/
def innerLoopTransactions (cfg : ResequenceCfg Tx Hash) (blockNum : Nat) :
    Nat → List Tx → ResequenceState Hash → Except Failure (ResequenceState Hash)
  | _, [], st => .ok st
  | i, tx :: rest, st =>
      let tried := { st with attempted := st.attempted ++ [⟨blockNum, i⟩] }
      match cfg.outcome ⟨blockNum, i⟩ with
      | .unknownSender =>
        innerLoopTransactions cfg blockNum (i + 1) rest tried
      | .failed =>
        if cfg.sequencerResequenceStrict then
          .error (.error
            ("strict mode enabled, but resequenced batch "
              ++ "%d failed to add transaction %s: %v"))
        else
          innerLoopTransactions cfg blockNum (i + 1) rest tried
      | .overflowGas => .error .panic
      | .accepted =>
        match st.job.updateLastProcessedTx (cfg.hash tx) with
        | .error failure => .error failure
        | .ok job =>
          innerLoopTransactions cfg blockNum (i + 1) rest
            { tried with
              job := job
              building := st.building ++ [⟨blockNum, i⟩] }

/- What one round does with the transactions it was given. -/
def tryTransactions (cfg : ResequenceCfg Tx Hash) (txs : List Tx) (job : ResequenceBatchJob Hash)
    (st : ResequenceState Hash) : Except Failure (ResequenceState Hash) :=
  innerLoopTransactions cfg job.startBlockIndex job.startTxIndex txs
    { st with
      job := job
      transactionsForInclusion := txs.length }

/- An empty block is passed by its own hash. -/
def passEmptyBlock (st : ResequenceState Hash) : Except Failure (ResequenceState Hash) :=
  match st.job.currentBlock with
  | none => .error .panic
  | some block =>
    match st.job.updateLastProcessedTx block.l2Blockhash with
    | .error failure => .error failure
    | .ok job => .ok { st with job := job }

/- `OuterLoopTransactions`, for at most `fuel` rounds. -/
def outerLoopTransactions (cfg : ResequenceCfg Tx Hash) :
    Nat → ResequenceState Hash → Option (Except Failure (ResequenceState Hash))
  | 0, _ => none
  | fuel + 1, st =>
      match st.job.yieldNextBlockTransactions cfg with
      | .error failure => some (.error failure)
      | .ok (txs, job) =>
          match tryTransactions cfg txs job st with
          | .error failure => some (.error failure)
          | .ok st =>
              if txs.length = 0 then
                some (passEmptyBlock st)
              else if st.job.atNewBlockBoundary then
                some (.ok st)
              else if cfg.sequencerResequenceStrict then
                some (.error (.error
                  ("strict mode enabled, but resequenced " ++ "batch %d has transactions that "
                    ++ "overflowed counters or failed " ++ "transactions")))
              else
                outerLoopTransactions cfg fuel st

def ResequenceState.beginBlock (st : ResequenceState Hash) : ResequenceState Hash := { st with
    visited := st.visited ++ [st.job.startBlockIndex]
    building := [] }

def ResequenceState.finishBlock (st : ResequenceState Hash) : ResequenceState Hash :=
  { st with builtBlocks := st.builtBlocks ++ [st.building] }

/-
  The `BatchLoop` of `sequencingBatchStep`.  A block that mined none of its transactions ends the
  loop: it is dropped, or it is the last block of the batch.
-/
def sequencingBatchStep (cfg : ResequenceCfg Tx Hash) :
    Nat → ResequenceState Hash → Option (Except Failure (ResequenceState Hash))
  | 0, _ => none
  | fuel + 1, st =>
      if st.job.hasMoreBlockToProcess then
        match outerLoopTransactions cfg fuel st.beginBlock with
        | none => none
        | some (.error failure) => some (.error failure)
        | some (.ok st) =>
            if 0 < st.transactionsForInclusion ∧ st.building.length = 0 then
              if cfg.sequencerSkipEmptyBlocks then
                some (.ok st)
              else some (.ok st.finishBlock)
            else sequencingBatchStep cfg fuel st.finishBlock
      else some (.ok st)

/- The loop of `resequence` over one batch, with the number of batches that came out of it. -/
def resequenceLoop (cfg : ResequenceCfg Tx Hash) :
    Nat → Nat → ResequenceState Hash → Option (Except Failure (ResequenceState Hash × Nat))
  | 0, _, _ => none
  | fuel + 1, subBatchCount, st =>
      if st.job.hasMoreBlockToProcess then
        match sequencingBatchStep cfg fuel st with
        | none => none
        | some (.error failure) => some (.error failure)
        | some (.ok st) =>
            resequenceLoop cfg fuel (subBatchCount + 1) st
      else some (.ok (st, subBatchCount))

/- A new job, before any work was done. -/
def startResequence (batch : List (FullL2Block Hash)) :
    ResequenceState Hash where
  job := newResequenceBatchJob batch
  attempted := []
  visited := []
  transactionsForInclusion := 0
  building := []
  builtBlocks := []

/-
  One round of the loop of `resequence` over the batches. Its log line reads the number of the
  batch from the first block.
-/
def resequenceBatch (cfg : ResequenceCfg Tx Hash) (fuel : Nat) (batch : List (FullL2Block Hash)) :
    Option (Except Failure (ResequenceState Hash)) :=
  match resequenceLoop cfg fuel 0 (startResequence batch) with
  | none => none
  | some (.error failure) => some (.error failure)
  | some (.ok (st, subBatchCount)) =>
    match sliceIndex batch 0 with
    | .error failure => some (.error failure)
    | .ok _ =>
      if cfg.sequencerResequenceStrict ∧ subBatchCount ≠ 1 then
        some (.error (.error
          ("strict mode enabled, but resequenced batch " ++ "%d has %d sub-batches")))
      else some (.ok st)

end XLayerErigon.Sequencer
