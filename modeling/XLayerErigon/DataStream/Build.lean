import XLayerErigon.DataStream.Entry

/-
  Building the entries of blocks and batches.

  Lists of entries are allocated first, from counts, and filled afterwards.  A place that is never
  filled holds no entry.

  Main results:
    * `createBatchStartEntriesProto_eq`
    * `createFullBlockStreamEntriesProto_eq`
    * `createBlockWithBatchCheck_eq`
    * `buildWholeBatch_eq`
-/

namespace XLayerErigon.DataStream

-- The database

structure Tx where
  hash : Hash
  encoded : Bytes

structure Block where
  number : Nat
  time : Nat
  hash : Hash
  root : Hash
  coinbase : Address
  transactions : List Tx

/-
  The exit root updates, by batch.  They are stored under their own batch number, so there is one
  for each batch.
-/
structure GerTable where
  updates : List UpdateGER
  sorted : updates.Pairwise (fun u v => u.batchNumber < v.batchNumber)

/- What the writers of the stream read. -/
structure Db where
  readBlockByNumber : Nat → Option Block
  number_eq : ∀ number block, readBlockByNumber number = some block → block.number = number
  -- the slot of the exit root manager behind a block
  localExitRootAt : Nat → Hash
  blockBatches : Nat → Option Nat
  getL2BlockNosByBatch : Nat → List Nat
  globalExitRootsBatches : GerTable
  forkIds : Nat → Nat
  getBlockGlobalExitRoot : Nat → Hash
  getBlockL1BlockHash : Nat → Hash
  getBlockL1InfoTreeIndex : Nat → Nat
  -- the timestamp of an update of the L1 info tree
  getL1InfoTreeUpdate : Nat → Option Nat
  getBlockInfoRoot : Nat → Hash
  getIntermediateTxStateRoot : Nat → Hash → Hash
  getEffectiveGasPricePercentage : Hash → Nat
  getInvalidBatch : Nat → Bool
  getBatchEnd : Nat → Bool
  -- the progress of the batches stage
  batchesProgress : Nat

namespace Db

variable (db : Db)

/- A block that is not stored is taken for one of batch 0. -/
def getBatchNoByL2Block (l2BlockNo : Nat) : Nat := (db.blockBatches l2BlockNo).getD 0

def getForkId (batchNo : Nat) : Nat := db.forkIds (if batchNo = 0 then 1 else batchNo)

def getHighestBlockInBatch (batchNo : Nat) : Nat :=
  if batchNo = 0 then 0
  else (db.getL2BlockNosByBatch batchNo).foldl max 0

def getBatchGlobalExitRootsProto (fromBatchNum toBatchNum : Nat) : List UpdateGER :=
  db.globalExitRootsBatches.updates.filter fun u =>
    fromBatchNum ≤ u.batchNumber ∧ u.batchNumber ≤ toBatchNum

def getBatchLocalExitRootFromSCStorageByBlock (blockNumber : Nat) : Hash :=
  if blockNumber > 0 then db.localExitRootAt blockNumber
  else 0

def getBatchLocalExitRootFromSCStorageForLatestBlock (batchNo : Nat) : Hash :=
  if batchNo > 0 then
    db.getBatchLocalExitRootFromSCStorageByBlock (db.getHighestBlockInBatch batchNo)
  else 0

end Db

/- The value behind a pointer. -/
def deref {α : Type} (pointer : Option α) : Except Failure α := pointer.elim (.error .panic) .ok

/- Subtraction of 64-bit numbers. -/
def sub64 (a b : Nat) : Nat := (a + (2 ^ 64 - b % 2 ^ 64)) % 2 ^ 64

theorem sub64_self (a : Nat) : sub64 a a = 0 := by
  unfold sub64
  omega

/- A place that is not filled is `none`. -/
structure DataStreamEntries where
  index : Nat
  entries : List (Option Entry)

namespace DataStreamEntries

def new (size : Nat) : DataStreamEntries := ⟨0, List.replicate size none⟩

def add (d : DataStreamEntries) (entry : Option Entry) : Except Failure DataStreamEntries :=
  (sliceSet d.entries d.index entry).map fun entries => ⟨d.index + 1, entries⟩

def addMany (d : DataStreamEntries) (entries : List (Option Entry)) :
    Except Failure DataStreamEntries :=
  entries.foldlM add d

end DataStreamEntries

-- Entries

def newBatchBookmarkEntryProto (batchNo : Nat) : Entry := .bookmark ⟨.batch, batchNo⟩

def newL2BlockBookmarkEntryProto (blockNo : Nat) : Entry := .bookmark ⟨.l2Block, blockNo⟩

def newL2BlockProto (block : Block) (batchNumber : Nat) (ger : Hash)
    (deltaTimestamp l1InfoIndex : Nat) (l1BlockHash : Hash) (minTimestamp : Nat)
    (blockInfoRoot : Hash) : Entry :=
  .l2Block {
    number := block.number
    batchNumber := batchNumber
    timestamp := block.time
    deltaTimestamp := deltaTimestamp
    minTimestamp := minTimestamp
    l1Blockhash := l1BlockHash
    l1InfotreeIndex := l1InfoIndex
    hash := block.hash
    stateRoot := block.root
    globalExitRoot := ger
    coinbase := block.coinbase
    blockInfoRoot := blockInfoRoot }

def newTransactionProto (effectiveGasPricePercentage : Nat) (stateRoot : Hash) (tx : Tx)
    (blockNumber : Nat) : Entry :=
  .l2Tx {
    effectiveGasPricePercentage := effectiveGasPricePercentage
    isValid := true
    imStateRoot := stateRoot
    encoded := tx.encoded
    l2BlockNumber := blockNumber }

def newBatchStartProto (batchNo chainId forkId : Nat) (batchType : BatchType) : Entry :=
  .batchStart ⟨batchNo, forkId, chainId, batchType⟩

def newBatchEndProto (localExitRoot stateRoot : Hash) (batchNumber : Nat) : Entry :=
  .batchEnd ⟨localExitRoot, stateRoot, batchNumber⟩

/- The fork id of the closest batch below that has one. -/
def forkIdBelow (db : Db) : Nat → Nat
  | 0 => 0
  | 1 => 0
  | batchNumber + 2 =>
      if db.getForkId (batchNumber + 1) ≠ 0 then
        db.getForkId (batchNumber + 1)
      else forkIdBelow db (batchNumber + 1)

def getBatchTypeAndFork (db : Db) (batchNumber : Nat) : BatchType × Nat :=
  let batchType :=
    if db.getInvalidBatch batchNumber then .invalid
    else if batchNumber = 1 then .injected
    else .regular
  let fork := db.getForkId batchNumber
  (batchType, if fork = 0 ∧ batchNumber > 1 then
    forkIdBelow db batchNumber
    else fork)

def addBatchStartEntries (db : Db) (batchNum chainId : Nat) : List Entry :=
  let typeAndFork := getBatchTypeAndFork db batchNum
  [newBatchBookmarkEntryProto batchNum, newBatchStartProto batchNum chainId typeAndFork.2
    typeAndFork.1]

def gerEntries (gers : List UpdateGER) (batchNumber : Nat) : List Entry :=
  (gers.filter (·.batchNumber = batchNumber)).map .gerUpdate

def addBatchEndEntriesProto (batchNumber : Nat) (root : Hash) (gers : List UpdateGER)
    (localExitRoot : Hash) : List Entry :=
  gerEntries gers batchNumber ++ [newBatchEndProto localExitRoot root batchNumber]

-- Lists for blocks and batches

/- The gap as an `int` less one, or zero. -/
def batchGapEntriesCount (batchGap : Nat) : Nat :=
  if batchGap < 2 ^ 63 then batchGap - 1 else 0

/- The batches of a gap, which have no blocks. -/
def workingBatches (lastBatchNumber batchGap : Nat) : List Nat :=
  (List.range (batchGapEntriesCount batchGap)).map fun i => (lastBatchNumber + (i + 1)) % 2 ^ 64

/- A batch without blocks, from its start to its end. -/
def emptyBatchEntries (db : Db) (chainId : Nat) (root : Hash) (gers : List UpdateGER)
    (workingBatch : Nat) : List Entry :=
  addBatchStartEntries db workingBatch chainId ++
    addBatchEndEntriesProto workingBatch root gers
      (db.getBatchLocalExitRootFromSCStorageForLatestBlock workingBatch)

def createBatchStartEntriesProto (db : Db) (batchNumber lastBatchNumber batchGap chainId : Nat)
    (root : Hash) (gers : List UpdateGER) : Except Failure DataStreamEntries :=
  let entries := DataStreamEntries.new (2 + 3 * batchGapEntriesCount batchGap + gers.length)
  (workingBatches lastBatchNumber batchGap).foldlM (fun entries workingBatch =>
    entries.addMany ((emptyBatchEntries db chainId root gers workingBatch).map some)) entries >>=
    fun entries => entries.addMany ((addBatchStartEntries db batchNumber chainId).map some)

/- The smallest timestamps, by index of the L1 info tree. -/
abbrev MinTimestamps := Nat → Nat

def createTransactionEntryProto (db : Db) (blockNum : Nat) (isEtrog : Bool) (tx : Tx) : Entry :=
  newTransactionProto (db.getEffectiveGasPricePercentage tx.hash) (if isEtrog then
    db.getIntermediateTxStateRoot blockNum tx.hash
     else 0)
    tx blockNum

def etrogBatchNumber : Nat := 7

/- What a block adds to the smallest timestamps. -/
def minTimestampsAt (db : Db) (blockNum : Nat) (times : MinTimestamps) : MinTimestamps :=
  let times :=
    if blockNum = 1 then Function.update times 0 0 else times
  let l1InfoIndex := db.getBlockL1InfoTreeIndex blockNum
  if l1InfoIndex > 0 then
    (db.getL1InfoTreeUpdate l1InfoIndex).elim times (Function.update times l1InfoIndex)
  else times

def blockEntry (db : Db) (block lastBlock : Block) (batchNumber : Nat)
    (times : MinTimestamps) : Entry :=
  let blockNum := block.number
  let deltaTimestamp :=
    if blockNum = 1 then block.time
    else sub64 block.time lastBlock.time
  let l1InfoIndex := db.getBlockL1InfoTreeIndex blockNum
  newL2BlockProto block batchNumber (db.getBlockGlobalExitRoot blockNum)
    (deltaTimestamp % 2 ^ 32) (l1InfoIndex % 2 ^ 32) (db.getBlockL1BlockHash blockNum)
    (minTimestampsAt db blockNum times l1InfoIndex) (db.getBlockInfoRoot blockNum)

def createFullBlockStreamEntriesProto (db : Db) (block lastBlock : Block)
    (filteredTransactions : List Tx) (forkId batchNumber : Nat) (times : MinTimestamps) :
    Except Failure DataStreamEntries :=
  let entries := DataStreamEntries.new (filteredTransactions.length + 3)
  entries.addMany
    (some (newL2BlockBookmarkEntryProto block.number) ::
      some (blockEntry db block lastBlock batchNumber times) ::
      (filteredTransactions.map fun tx =>
        some (createTransactionEntryProto db block.number (forkId ≤ etrogBatchNumber) tx)) ++
      [some (.l2BlockEnd block.number)])

/- The end of the previous batch, unless it is there. -/
def endEntriesOf (db : Db) (lastBlock : Block) (lastBatchNumber : Nat) (gers : List UpdateGER)
    (shouldSkipBatchEndEntry : Bool) : List Entry :=
  if shouldSkipBatchEndEntry then []
  else
    addBatchEndEntriesProto lastBatchNumber lastBlock.root gers
      (db.getBatchLocalExitRootFromSCStorageForLatestBlock lastBatchNumber)

/- The end of the batch itself, if its last block is known. -/
def finalEndEntriesOf (db : Db) (block : Block) (batchNumber lastBatchNumber : Nat)
    (checkBatchEnd : Bool) : List Entry :=
  if checkBatchEnd && db.getBatchEnd block.number then
    addBatchEndEntriesProto batchNumber block.root
      (db.getBatchGlobalExitRootsProto lastBatchNumber batchNumber)
      (db.getBatchLocalExitRootFromSCStorageForLatestBlock batchNumber)
  else []

/- The lists are copied one after the other into one of the size of all. -/
def concatEntries (lists : List (List (Option Entry))) : Except Failure DataStreamEntries :=
  lists.foldlM DataStreamEntries.addMany (DataStreamEntries.new (lists.map List.length).sum)

/- The starts of the batches up to the one of the block. -/
def startEntriesOf (db : Db) (batchNumber lastBatchNumber batchGap chainId : Nat) (root : Hash)
    (gers : List UpdateGER) : Except Failure DataStreamEntries :=
  if batchGap > 0 then
    createBatchStartEntriesProto db batchNumber lastBatchNumber batchGap chainId root gers
  else .ok (DataStreamEntries.new 0)

def createBlockWithBatchCheckStreamEntriesProto (db : Db) (block lastBlock : Block)
    (batchNumber lastBatchNumber chainId forkId : Nat)
    (shouldSkipBatchEndEntry checkBatchEnd : Bool) : Except Failure (List (Option Entry)) := do
  let batchGap := sub64 batchNumber lastBatchNumber
  let gers := db.getBatchGlobalExitRootsProto lastBatchNumber batchNumber
  let endEntriesProto :=
    if batchGap > 0 then
      endEntriesOf db lastBlock lastBatchNumber gers shouldSkipBatchEndEntry
    else []
  let startEntriesProto ←
    startEntriesOf db batchNumber lastBatchNumber batchGap chainId block.root gers
  let blockEntries ←
    createFullBlockStreamEntriesProto db block lastBlock
      block.transactions forkId batchNumber (fun _ => 0)
  let entries ←
    concatEntries [endEntriesProto.map some, startEntriesProto.entries, blockEntries.entries]
  let newEntries ←
    concatEntries [entries.entries, (finalEndEntriesOf db block batchNumber
      lastBatchNumber checkBatchEnd).map some]
  return newEntries.entries

def wholeBatchBlocks (db : Db) (txsPerBlock : Nat → Option (List Tx)) (forkId batchNumber : Nat) :
    Block → MinTimestamps → List Block → Except Failure (List (Option Entry) × Block)
  | lastBlock, _, [] => .ok ([], lastBlock)
  | lastBlock, times, block :: blocks =>
      match txsPerBlock block.number with
      | none =>
          .error (.error "no transactions array found for block %d")
      | some txForBlock =>
          createFullBlockStreamEntriesProto db block lastBlock
              txForBlock forkId batchNumber times >>=
            fun blockEntries =>
          wholeBatchBlocks db txsPerBlock forkId batchNumber
              block (minTimestampsAt db block.number times) blocks >>=
            fun rest => .ok (blockEntries.entries ++ rest.1, rest.2)

def buildWholeBatchStreamEntriesProto (db : Db) (chainId previousBatchNumber batchNumber : Nat)
    (blocks : List Block) (txsPerBlock : Nat → Option (List Tx)) (times : MinTimestamps) :
    Except Failure (List (Option Entry)) := do
  let forkId := db.getForkId batchNumber
  let gers := db.getBatchGlobalExitRootsProto previousBatchNumber batchNumber
  let first ← sliceIndex blocks 0
  let batchStartEntries ←
    createBatchStartEntriesProto db batchNumber previousBatchNumber
      (sub64 batchNumber previousBatchNumber) chainId first.root gers
  let prevBatchLastBlock ← deref (db.readBlockByNumber (sub64 first.number 1))
  let blocksEntries ←
    wholeBatchBlocks db txsPerBlock forkId batchNumber prevBatchLastBlock times blocks
  let batchEndEntries := addBatchEndEntriesProto batchNumber blocksEntries.2.root gers
      (db.getBatchLocalExitRootFromSCStorageForLatestBlock batchNumber)
  let allEntries ←
    concatEntries [batchStartEntries.entries, blocksEntries.1, batchEndEntries.map some]
  return allEntries.entries

-- What the lists hold

namespace DataStreamEntries

/- A list that is filled up to some free places. -/
def filled (xs : List (Option Entry)) (free : Nat) : DataStreamEntries :=
  ⟨xs.length, xs ++ List.replicate free none⟩

theorem new_eq (size : Nat) : new size = filled [] size := rfl

theorem add_filled (xs : List (Option Entry)) (entry : Option Entry) (free : Nat) :
    (filled xs (free + 1)).add entry = .ok (filled (xs ++ [entry]) free) := by
  simp [filled, add, sliceSet, Except.map, List.replicate_succ]

theorem addMany_filled (xs ys : List (Option Entry)) (free : Nat) :
    (filled xs (ys.length + free)).addMany ys = .ok (filled (xs ++ ys) free) := by
  induction ys generalizing xs with
  | nil => simp [addMany, pure, Except.pure]
  | cons y ys ih =>
    have hFree : (y :: ys).length + free = (ys.length + free) + 1 := by
      simp only [List.length_cons]
      omega
    have ih := ih (xs ++ [y])
    rw [addMany] at ih ⊢
    rw [hFree, List.foldlM_cons, add_filled, ok_bind, ih, List.append_assoc, List.singleton_append]

/- One list for each item, one after the other. -/
theorem foldlM_addMany_filled {α : Type} (f : α → List (Option Entry)) (items : List α)
    (xs : List (Option Entry)) (free : Nat) :
    items.foldlM (fun d a => d.addMany (f a))
        (filled xs ((items.map fun a => (f a).length).sum + free)) =
      .ok (filled (xs ++ items.flatMap f) free) := by
  induction items generalizing xs with
  | nil => simp [pure, Except.pure]
  | cons a items ih =>
    rw [List.map_cons, List.sum_cons, Nat.add_assoc, List.foldlM_cons, addMany_filled, ok_bind, ih,
      List.flatMap_cons, List.append_assoc]

end DataStreamEntries

open DataStreamEntries

variable (db : Db) {txsPerBlock : Nat → Option (List Tx)}

theorem concatEntries_eq (lists : List (List (Option Entry))) :
    concatEntries lists = .ok (filled lists.flatten 0) := by
  have hAll := foldlM_addMany_filled id lists [] 0
  simpa [concatEntries, new_eq] using hAll

/- What is left of the updates without those of some batches. -/
def outside (gers : List UpdateGER) (batches : List Nat) : List UpdateGER :=
  gers.filter (·.batchNumber ∉ batches)

/- Each update is for one of the batches or for none. -/
theorem length_gerEntries_add_outside (gers : List UpdateGER) {batches : List Nat}
    (hNodup : batches.Nodup) :
    (batches.map fun b => (gerEntries gers b).length).sum +
      (outside gers batches).length = gers.length := by
  induction gers with
  | nil => simp [gerEntries, outside]
  | cons u gers ih =>
    have hSum : (batches.map fun b =>
      (gerEntries (u :: gers) b).length).sum = (batches.map fun b =>
        (gerEntries gers b).length).sum + batches.count u.batchNumber := by
      clear ih hNodup
      induction batches with
      | nil => simp
      | cons b batches ihBatches =>
        simp only [List.map_cons, List.sum_cons, ihBatches, List.count_cons]
        by_cases hEq : u.batchNumber = b
        · simp [gerEntries, hEq]
          omega
        · simp [gerEntries, hEq, Ne.symm hEq]
          omega
    rw [hSum]
    by_cases hMem : u.batchNumber ∈ batches
    · rw [List.count_eq_one_of_mem hNodup hMem]
      simp [outside, hMem] at ih ⊢
      omega
    · rw [List.count_eq_zero_of_not_mem hMem]
      simp [outside, hMem] at ih ⊢
      omega

theorem nodup_workingBatches (lastBatchNumber batchGap : Nat) :
    (workingBatches lastBatchNumber batchGap).Nodup := by
  refine List.Nodup.map_on ?_ List.nodup_range
  intro i hi j hj hEq
  have hCount : batchGapEntriesCount batchGap < 2 ^ 63 := by
    rw [batchGapEntriesCount]
    split <;> omega
  simp only [List.mem_range] at hi hj
  omega

theorem length_workingBatches (lastBatchNumber batchGap : Nat) :
    (workingBatches lastBatchNumber batchGap).length = batchGapEntriesCount batchGap := by
  simp [workingBatches]

/- The entries before the first block of a batch. -/
def batchStartList (db : Db) (batchNumber lastBatchNumber batchGap chainId : Nat) (root : Hash)
    (gers : List UpdateGER) : List Entry :=
  (workingBatches lastBatchNumber batchGap).flatMap (emptyBatchEntries db chainId root gers) ++
    addBatchStartEntries db batchNumber chainId

/- A place is left for each update that is not for one of the batches in between. -/
theorem createBatchStartEntriesProto_eq (batchNumber lastBatchNumber batchGap chainId : Nat)
    (root : Hash) (gers : List UpdateGER) :
    createBatchStartEntriesProto db batchNumber lastBatchNumber batchGap chainId root gers =
      .ok (filled
        ((batchStartList db batchNumber lastBatchNumber batchGap chainId root gers).map some)
        (outside gers (workingBatches lastBatchNumber batchGap)).length) := by
  let batches := workingBatches lastBatchNumber batchGap
  let empty := emptyBatchEntries db chainId root gers
  let start := (addBatchStartEntries db batchNumber chainId).map some
  have hGers := length_gerEntries_add_outside gers (nodup_workingBatches lastBatchNumber batchGap)
  have hEmpty : (batches.map fun b =>
    ((empty b).map some).length).sum = 3 * batchGapEntriesCount batchGap + (batches.map fun b =>
      (gerEntries gers b).length).sum := by
    rw [← length_workingBatches lastBatchNumber batchGap]
    change _ = 3 * batches.length + _
    clear hGers
    induction batches with
    | nil => rfl
    | cons b batches ih =>
      simp only [List.map_cons, List.sum_cons, ih, List.length_cons]
      simp only [empty, emptyBatchEntries, addBatchStartEntries, addBatchEndEntriesProto,
        List.length_map, List.length_append, List.length_cons, List.length_nil]
      omega
  have hSize : 2 + 3 * batchGapEntriesCount batchGap + gers.length = (batches.map fun b =>
    ((empty b).map some).length).sum + (start.length + (outside gers batches).length) := by
    have hStart : start.length = 2 := rfl
    change (batches.map fun b =>
      (gerEntries gers b).length).sum + (outside gers batches).length = gers.length at hGers
    omega
  rw [createBatchStartEntriesProto]
  simp only [new_eq]
  rw [hSize, foldlM_addMany_filled, ok_bind, addMany_filled,
    batchStartList, List.map_append, List.map_flatMap, List.nil_append]

def blockList (db : Db) (block lastBlock : Block) (filteredTransactions : List Tx)
    (forkId batchNumber : Nat) (times : MinTimestamps) : List Entry :=
  newL2BlockBookmarkEntryProto block.number :: blockEntry db block lastBlock batchNumber times ::
    (filteredTransactions.map
        (createTransactionEntryProto db block.number (forkId ≤ etrogBatchNumber)) ++
      [.l2BlockEnd block.number])

theorem createFullBlockStreamEntriesProto_eq (block lastBlock : Block)
    (filteredTransactions : List Tx) (forkId batchNumber : Nat) (times : MinTimestamps) :
    createFullBlockStreamEntriesProto db block lastBlock
        filteredTransactions forkId batchNumber times =
      .ok (filled
        ((blockList db block lastBlock filteredTransactions
          forkId batchNumber times).map some) 0) := by
  have hAdded := addMany_filled []
    ((blockList db block lastBlock filteredTransactions forkId batchNumber times).map some) 0
  simpa [createFullBlockStreamEntriesProto, new_eq, blockList, Function.comp_def] using hAdded

/- The end of the previous batch, if a batch starts. -/
def closingList (db : Db) (lastBlock : Block) (batchNumber lastBatchNumber : Nat)
    (shouldSkipBatchEndEntry : Bool) : List Entry :=
  if sub64 batchNumber lastBatchNumber > 0 then
    endEntriesOf db lastBlock lastBatchNumber
      (db.getBatchGlobalExitRootsProto lastBatchNumber batchNumber) shouldSkipBatchEndEntry
  else []

/- The starts before a block, if a batch starts. -/
def openingList (db : Db) (root : Hash) (batchNumber lastBatchNumber chainId : Nat) : List Entry :=
  if sub64 batchNumber lastBatchNumber > 0 then
    batchStartList db batchNumber lastBatchNumber (sub64 batchNumber lastBatchNumber) chainId root
      (db.getBatchGlobalExitRootsProto lastBatchNumber batchNumber)
  else []

/- The places that are left unfilled, if a batch starts. -/
def unfilled (db : Db) (batchNumber lastBatchNumber : Nat) : Nat :=
  if sub64 batchNumber lastBatchNumber > 0 then
    (outside (db.getBatchGlobalExitRootsProto lastBatchNumber batchNumber)
      (workingBatches lastBatchNumber (sub64 batchNumber lastBatchNumber))).length
  else 0

theorem startEntriesOf_eq (root : Hash) (batchNumber lastBatchNumber chainId : Nat) :
    startEntriesOf db batchNumber lastBatchNumber (sub64 batchNumber lastBatchNumber) chainId root
        (db.getBatchGlobalExitRootsProto lastBatchNumber batchNumber) =
      .ok (filled ((openingList db root batchNumber lastBatchNumber chainId).map some)
        (unfilled db batchNumber lastBatchNumber)) := by
  unfold startEntriesOf openingList unfilled
  split
  · exact createBatchStartEntriesProto_eq ..
  · rfl

theorem createBlockWithBatchCheck_eq (block lastBlock : Block)
    (batchNumber lastBatchNumber chainId forkId : Nat)
    (shouldSkipBatchEndEntry checkBatchEnd : Bool) :
    createBlockWithBatchCheckStreamEntriesProto db block
        lastBlock batchNumber lastBatchNumber chainId forkId shouldSkipBatchEndEntry checkBatchEnd =
      .ok (
        (closingList db lastBlock batchNumber lastBatchNumber shouldSkipBatchEndEntry ++
          openingList db block.root batchNumber lastBatchNumber chainId).map some ++
        List.replicate (unfilled db batchNumber lastBatchNumber) none ++
        (blockList db block lastBlock block.transactions forkId batchNumber (fun _ => 0) ++
          finalEndEntriesOf db block batchNumber lastBatchNumber checkBatchEnd).map some) := by
  unfold createBlockWithBatchCheckStreamEntriesProto
  simp only [startEntriesOf_eq, ok_bind, createFullBlockStreamEntriesProto_eq, concatEntries_eq]
  change Except.ok _ = Except.ok _
  simp [filled, closingList]

theorem wholeBatchBlocks_cons (forkId batchNumber : Nat) (lastBlock : Block) (times : MinTimestamps)
    {block : Block} {txs : List Tx} (hTxs : txsPerBlock block.number = some txs)
    (blocks : List Block) :
    wholeBatchBlocks db txsPerBlock forkId batchNumber lastBlock times (block :: blocks) =
      (wholeBatchBlocks db txsPerBlock forkId batchNumber
        block (minTimestampsAt db block.number times)
        blocks).map fun rest =>
          ((blockList db block lastBlock txs forkId batchNumber times).map some ++ rest.1,
            rest.2) := by
  simp only [wholeBatchBlocks, hTxs, createFullBlockStreamEntriesProto_eq, ok_bind]
  cases wholeBatchBlocks db txsPerBlock forkId batchNumber
    block (minTimestampsAt db block.number times) blocks with
  | error e => rfl
  | ok rest => simp [filled, Except.map]

theorem wholeBatchBlocks_ok (forkId batchNumber : Nat) (lastBlock : Block) (times : MinTimestamps)
    {blocks : List Block} (hTxs : ∀ block ∈ blocks, txsPerBlock block.number ≠ none) :
    ∃ result,
      wholeBatchBlocks db txsPerBlock forkId batchNumber lastBlock times blocks = .ok result := by
  induction blocks generalizing lastBlock times with
  | nil => exact ⟨_, rfl⟩
  | cons block blocks ih =>
    rcases Option.ne_none_iff_exists'.mp (hTxs block (by simp)) with ⟨txs, hHere⟩
    rcases ih block (minTimestampsAt db block.number times) (fun b hb => hTxs b (by simp [hb])) with
      ⟨rest, hRest⟩
    rw [wholeBatchBlocks_cons db forkId batchNumber lastBlock times hHere, hRest]
    exact ⟨_, rfl⟩

/- The entries of a block, whatever came before it. -/
def IsBlockList (db : Db) (forkId batchNumber : Nat) (block : Block)
    (entries : List Entry) : Prop :=
  ∃ lastBlock txs times, entries = blockList db block lastBlock txs forkId batchNumber times

theorem wholeBatchBlocks_parts {forkId batchNumber : Nat} {lastBlock : Block}
    {times : MinTimestamps} {blocks : List Block} {written : List (Option Entry) × Block}
    (hWritten : wholeBatchBlocks db txsPerBlock forkId batchNumber
      lastBlock times blocks = .ok written) :
    ∃ parts : List (List Entry), written.1 = parts.flatten.map some ∧
      List.Forall₂ (IsBlockList db forkId batchNumber) blocks parts := by
  induction blocks generalizing lastBlock times written with
  | nil =>
    cases hWritten
    exact ⟨[], rfl, .nil⟩
  | cons block blocks ih =>
    cases hTxs : txsPerBlock block.number with
    | none => simp [wholeBatchBlocks, hTxs] at hWritten
    | some txs =>
      rw [wholeBatchBlocks_cons db forkId batchNumber lastBlock times hTxs] at hWritten
      cases hRest : wholeBatchBlocks db txsPerBlock forkId batchNumber block
        (minTimestampsAt db block.number times) blocks with
      | error e =>
        rw [hRest] at hWritten
        cases hWritten
      | ok rest =>
        rw [hRest] at hWritten
        cases hWritten
        rcases ih hRest with ⟨parts, hParts, hBlocks⟩
        refine ⟨blockList db block lastBlock txs forkId
          batchNumber times :: parts, ?_, .cons ⟨lastBlock, txs, times, rfl⟩ hBlocks⟩
        change _ ++ rest.1 = _
        rw [List.flatten_cons, List.map_append, hParts]

theorem buildWholeBatch_eq (chainId previousBatchNumber batchNumber : Nat) (block : Block)
    (blocks : List Block) (txsPerBlock : Nat → Option (List Tx)) (times : MinTimestamps)
    {lastBlock : Block} (hLast : db.readBlockByNumber (sub64 block.number 1) = some lastBlock) :
    buildWholeBatchStreamEntriesProto db chainId previousBatchNumber batchNumber (block :: blocks)
        txsPerBlock times =
      (wholeBatchBlocks db txsPerBlock (db.getForkId batchNumber) batchNumber lastBlock
          times (block :: blocks)).map fun written =>
        let gers := db.getBatchGlobalExitRootsProto previousBatchNumber batchNumber
        let batchGap := sub64 batchNumber previousBatchNumber
        (batchStartList db batchNumber previousBatchNumber
            batchGap chainId block.root gers).map some ++
          List.replicate (outside gers (workingBatches previousBatchNumber batchGap)).length none ++
          (written.1 ++
            (addBatchEndEntriesProto batchNumber written.2.root gers
              (db.getBatchLocalExitRootFromSCStorageForLatestBlock batchNumber)).map some) := by
  have hFirst : sliceIndex (block :: blocks) 0 = .ok block := rfl
  unfold buildWholeBatchStreamEntriesProto
  simp only [hFirst, ok_bind, createBatchStartEntriesProto_eq,
    hLast, deref, Option.elim_some, concatEntries_eq]
  cases wholeBatchBlocks db txsPerBlock (db.getForkId batchNumber) batchNumber lastBlock times
    (block :: blocks) with
  | error e => rfl
  | ok written =>
    change Except.ok _ = Except.ok _
    simp [filled]

def sampleBlock (number : Nat) : Block := ⟨number, number, 0, 0, 0, []⟩

/- Each block is a batch of its own, without transactions. -/
def sampleDb (table : GerTable) : Db where
  readBlockByNumber number := some (sampleBlock number)
  number_eq _ _ hEq := by
    rw [← Option.some.inj hEq]
    rfl
  localExitRootAt _ := 0
  blockBatches := some
  getL2BlockNosByBatch batch := [batch]
  globalExitRootsBatches := table
  forkIds _ := 1
  getBlockGlobalExitRoot _ := 0
  getBlockL1BlockHash _ := 0
  getBlockL1InfoTreeIndex _ := 0
  getL1InfoTreeUpdate _ := none
  getBlockInfoRoot _ := 0
  getIntermediateTxStateRoot _ _ := 0
  getEffectiveGasPricePercentage _ := 255
  getInvalidBatch _ := false
  getBatchEnd _ := false
  batchesProgress := 0

/- The chain without exit root updates. -/
def plainDb : Db := sampleDb ⟨[], List.Pairwise.nil⟩

end XLayerErigon.DataStream
