import XLayerErigon.Sequencer.InfoTreeIndex

/-
  The exit roots of the sequencer and of a follower.

  Before a block is executed, the exit root of its L1 info tree index is written to the exit root
  manager contract, and after it the exit root and the L1 block hash go into the block info tree.
  The sequencer decides this from its index progress and the contract, and a follower from the
  data stream, the highest index it has seen and a table of the exit roots it knows.

  Main results:
    * `buildBlock_agrees_iff`
    * `follower_agrees_iff`
    * `buildBlocks_isSome`
-/

namespace XLayerErigon.Sequencer

-- The Index of a New Block

/-
  The tables of updates, by index and by exit root.  Every update is stored under its own index
  and exit root.
-/
structure InfoTreeTables where
  updates : UpdateTable
  updatesByGer : Bytes32 → Option L1InfoTreeUpdate
  updates_key : ∀ row ∈ updates, row.2.index = row.1
  updatesByGer_key : ∀ ger update, updatesByGer ger = some update → update.ger = ger

/- The fields of a stream block about the L1 info tree. -/
structure StreamedBlock where
  globalExitRoot : Bytes32
  l1BlockHash : Bytes32
  l1InfoTreeIndex : BitVec 32
  deriving DecidableEq

structure L1InfoTreeOffset where
  index : Nat
  offset : Int

structure L1InjectedBatch where
  lastGlobalExitRoot : Bytes32
  l1ParentHash : Bytes32
  timestamp : Nat

/-
  Where a new block comes from: the injected batch, the transaction pool, the batches of the L1,
  or a rolled back block whose index is used again.
-/
inductive BlockSource where
  | injected (injectedBatch : L1InjectedBatch)
  | proposed (proposedTimestamp : Nat)
  | l1Recovery (l1InfoTreeIndex : BitVec 32)
  | resequence (atNewBlockBoundary : Bool) (currentBlock : StreamedBlock)

def BlockSource.isInjected : BlockSource → Bool
  | .injected _ => true
  | _ => false

structure PreparedBlock extends InfoTreeChoice where
  shouldWriteGerToContract : Bool

/- What follows from an index and its update. -/
def InfoTreeChoice.of (infoTreeIndexProgress l1TreeUpdateIndex : Nat)
    (l1TreeUpdate : Option L1InfoTreeUpdate) :
    InfoTreeChoice where
  infoTreeIndexProgress :=
    if l1TreeUpdateIndex > 0 then l1TreeUpdateIndex
    else infoTreeIndexProgress
  l1TreeUpdate := l1TreeUpdate
  l1TreeUpdateIndex := l1TreeUpdateIndex
  l1BlockHash :=
    if l1TreeUpdateIndex > 0 then
      (l1TreeUpdate.map (·.parentHash)).getD 0
    else 0
  ger :=
    if l1TreeUpdateIndex > 0 then
      (l1TreeUpdate.map (·.ger)).getD 0
    else 0

/- Rounds enough for the search to end. -/
def searchRounds (rows : UpdateTable) : Nat :=
  ((getLatestL1InfoTreeUpdate rows).map (·.index)).getD 0 + 1

/-
  The index of a rolled back block, moved by the configured offset.  The sum is taken in signed 64
  bits.
-/
def resequenceIndex (l1InfoTreeOffset : Option L1InfoTreeOffset) (atNewBlockBoundary : Bool)
    (currentBlock : StreamedBlock) : Nat :=
  if atNewBlockBoundary then
    let index := currentBlock.l1InfoTreeIndex.toNat
    match l1InfoTreeOffset with
    | none => index
    | some offset =>
      if index ≠ 0 ∧ offset.index ≤ index then
        ((index + offset.offset) % 2 ^ 64).toNat
      else index
  else 0

/-
  The injected batch does not come this way: for it the result is what
  `processInjectedInitialBatch` passes on.
-/
def prepareL1AndInfoTreeRelatedStuff (tables : InfoTreeTables)
    (l1InfoTreeOffset : Option L1InfoTreeOffset) (infoTreeIndexProgress : Nat) :
    BlockSource → Option PreparedBlock
  | .injected injectedBatch =>
      some
        { infoTreeIndexProgress := 0
          l1TreeUpdate := some
              { index := 0
                ger := injectedBatch.lastGlobalExitRoot
                parentHash := injectedBatch.l1ParentHash
                timestamp := injectedBatch.timestamp }
          l1TreeUpdateIndex := 0
          l1BlockHash := injectedBatch.l1ParentHash
          ger := injectedBatch.lastGlobalExitRoot
          shouldWriteGerToContract := true }
  | .proposed proposedTimestamp =>
    (prepareInfoTree (searchRounds tables.updates)
      infoTreeIndexProgress tables.updates proposedTimestamp).map (fun choice => ⟨choice, true⟩)
  | .l1Recovery l1InfoTreeIndex =>
    let index := l1InfoTreeIndex.toNat
    some
      ⟨.of infoTreeIndexProgress index (getL1InfoTreeUpdate tables.updates index),
        decide (infoTreeIndexProgress < index)⟩
  | .resequence atNewBlockBoundary currentBlock =>
    let index := resequenceIndex l1InfoTreeOffset atNewBlockBoundary currentBlock
    let shouldWriteGerToContract := decide (infoTreeIndexProgress < index)
    if index > 0 then
      some
        { infoTreeIndexProgress := index
          l1TreeUpdate := tables.updatesByGer currentBlock.globalExitRoot
          l1TreeUpdateIndex := index
          l1BlockHash := currentBlock.l1BlockHash
          ger := currentBlock.globalExitRoot
          shouldWriteGerToContract }
    else
      some
        { infoTreeIndexProgress
          l1TreeUpdate := none
          l1TreeUpdateIndex := index
          l1BlockHash := 0
          ger := 0
          shouldWriteGerToContract }

-- The Sequencer

/- The storage of the exit root manager contract. -/
abbrev ContractSlots := Bytes32 → Bytes32

/- `mapKey` is the hash of an exit root and the position of the map of exit roots. -/
variable (mapKey : Bytes32 → Bytes32)

/- Only the low 64 bits of the slot are compared with 0. -/
def readGerManagerL1BlockHash (slots : ContractSlots) (ger : Bytes32) : Bytes32 :=
  let key := slots (mapKey ger)
  if key.setWidth 64 = 0 then 0 else key

/- The slot and the value that are written. -/
def gerManagerWrite (ger l1BlockHash : Bytes32) : Bytes32 × Bytes32 := (mapKey ger, l1BlockHash)

def ContractSlots.apply (slots : ContractSlots) :
    Option (Bytes32 × Bytes32) → ContractSlots
  | none => slots
  | some write => Function.update slots write.1 write.2

/-
  The rows of a block that is starting, zero where nothing is stored, and the write to the
  contract.
-/
structure StartedBlock where
  globalExitRoot : Bytes32
  l1BlockHash : Bytes32
  write : Option (Bytes32 × Bytes32)
  deriving DecidableEq

def StartedBlock.none : StartedBlock := ⟨0, 0, Option.none⟩

/- The first block without an update is a nil pointer. -/
def handleStateForNewBlockStarting (slots : ContractSlots) (blockNumber : Nat)
    (l1info : Option L1InfoTreeUpdate) (shouldWriteGerToContract : Bool) : Option StartedBlock :=
  match l1info with
  | none =>
    if blockNumber = 1 then none
    else some StartedBlock.none
  | some l1info =>
    if l1info.index > 0 ∨ blockNumber = 1 then
      some
        { globalExitRoot := l1info.ger
          l1BlockHash := l1info.parentHash
          write :=
            if shouldWriteGerToContract ∧ readGerManagerL1BlockHash mapKey slots l1info.ger = 0 then
              some (gerManagerWrite mapKey l1info.ger l1info.parentHash)
            else none }
    else some StartedBlock.none

/-
  What a node does for a block: the write to the contract, and the values in the block info tree.
-/
structure ExitRootUse where
  write : Option (Bytes32 × Bytes32)
  ger : Bytes32
  l1BlockHash : Bytes32
  deriving DecidableEq

structure BuiltBlock where
  uses : ExitRootUse
  globalExitRoot : Bytes32
  l1BlockHash : Bytes32
  l1InfoTreeIndex : Nat
  deriving DecidableEq

/- The stream has the rows, and the index in 32 bits. -/
def BuiltBlock.streamed (block : BuiltBlock) : StreamedBlock where
  globalExitRoot := block.globalExitRoot
  l1BlockHash := block.l1BlockHash
  l1InfoTreeIndex := BitVec.ofNat 32 block.l1InfoTreeIndex

structure SequencerSide where
  executionAt : Nat
  infoTreeIndexProgress : Nat
  slots : ContractSlots

/- A new block, whose transactions may write any slot. -/
structure NewBlock where
  source : BlockSource
  transactions : ContractSlots → ContractSlots

/-
  The injected batch is built exactly where nothing has been executed yet.  The progress is stored
  only if it is above the one before.
-/
def SequencerSide.buildBlock (tables : InfoTreeTables) (l1InfoTreeOffset : Option L1InfoTreeOffset)
    (s : SequencerSide) (block : NewBlock) : Option (BuiltBlock × SequencerSide) :=
  if (s.executionAt = 0) ↔ block.source.isInjected then
    (prepareL1AndInfoTreeRelatedStuff tables l1InfoTreeOffset s.infoTreeIndexProgress
      block.source).bind fun prepared =>
        (handleStateForNewBlockStarting mapKey s.slots
          (s.executionAt + 1) prepared.l1TreeUpdate prepared.shouldWriteGerToContract).map
          fun started =>
            ({ uses := ⟨started.write, prepared.ger,
                prepared.l1BlockHash⟩
               globalExitRoot := started.globalExitRoot
               l1BlockHash := started.l1BlockHash
               l1InfoTreeIndex := prepared.l1TreeUpdateIndex },
              { executionAt := s.executionAt + 1
                infoTreeIndexProgress := max s.infoTreeIndexProgress prepared.infoTreeIndexProgress
                slots := block.transactions (s.slots.apply started.write) })
  else none

def SequencerSide.buildBlocks (tables : InfoTreeTables)
    (l1InfoTreeOffset : Option L1InfoTreeOffset) :
    SequencerSide → List NewBlock → Option (List BuiltBlock)
  | _, [] => some []
  | s, block :: blocks =>
      (s.buildBlock mapKey tables l1InfoTreeOffset block).bind fun built =>
          (built.2.buildBlocks tables l1InfoTreeOffset blocks).map (built.1 :: ·)

/- The processor of one run, with the table of exit roots that have been written. -/
structure FollowerSide where
  highestL1InfoTreeIndex : BitVec 32
  globalExitRoots : List Bytes32

structure FollowerRows where
  blockGlobalExitRoot : Bytes32
  blockL1BlockHash : Bytes32
  reusedL1InfoTreeIndex : Bool

def FollowerSide.writeL2Block (f : FollowerSide) (l2Block : StreamedBlock) :
    FollowerRows × FollowerSide :=
  let didStoreGer :=
    decide (l2Block.globalExitRoot ≠ 0 ∧ l2Block.globalExitRoot ∉ f.globalExitRoots)
  let l1InfoTreeIndexReused :=
    decide (l2Block.l1InfoTreeIndex ≠ 0 ∧ l2Block.l1InfoTreeIndex ≤ f.highestL1InfoTreeIndex)
  ({ blockGlobalExitRoot :=
    if l1InfoTreeIndexReused ∨ didStoreGer then
      l2Block.globalExitRoot
    else 0
     -- a zero hash is not stored, and read as zero
     blockL1BlockHash := l2Block.l1BlockHash
     reusedL1InfoTreeIndex := l1InfoTreeIndexReused },
    { f with
      globalExitRoots :=
        if didStoreGer then
          l2Block.globalExitRoot :: f.globalExitRoots
        else f.globalExitRoots })

/- The write before a block from fork 7 on. -/
def syncerPreExecuteStateSet (rows : FollowerRows) : Option (Bytes32 × Bytes32) :=
  if !rows.reusedL1InfoTreeIndex ∧ rows.blockGlobalExitRoot ≠ 0 then
    some (gerManagerWrite mapKey rows.blockGlobalExitRoot rows.blockL1BlockHash)
  else none

def FollowerSide.processFullBlock (f : FollowerSide) (l2Block : StreamedBlock) :
    ExitRootUse × FollowerSide :=
  let written := f.writeL2Block l2Block
  ({ write := syncerPreExecuteStateSet mapKey written.1
     ger := written.1.blockGlobalExitRoot
     l1BlockHash := written.1.blockL1BlockHash },
    { written.2 with
      highestL1InfoTreeIndex :=
        if l2Block.l1InfoTreeIndex > f.highestL1InfoTreeIndex then
          l2Block.l1InfoTreeIndex
        else f.highestL1InfoTreeIndex })

def FollowerSide.processBlocks :
    FollowerSide → List StreamedBlock → List ExitRootUse
  | _, [] => []
  | f, l2Block :: l2Blocks =>
      let processed := f.processFullBlock mapKey l2Block
      processed.1 :: processed.2.processBlocks l2Blocks

-- One Block

/-
  An exit root that both sides take for a new one: it is not in the contract, and the follower
  does not know it.  The follower never writes the zero exit root, so both sides agree on it only
  if its slot is set already.
-/
def Unused (slots : ContractSlots) (globalExitRoots : List Bytes32) (ger : Bytes32) : Prop :=
  if ger = 0 then
    readGerManagerL1BlockHash mapKey slots ger ≠ 0
  else
    ger ∉ globalExitRoots ∧ readGerManagerL1BlockHash mapKey slots ger = 0

/-
  The condition on the source of a block.  A proposed block may get the index that was used last,
  and then its exit root must be in the contract.  A rolled back block must have the L1 block hash
  that is stored for its exit root, or no exit root if none is stored.
-/
def BlockSource.Fine (tables : InfoTreeTables) (l1InfoTreeOffset : Option L1InfoTreeOffset)
    (s : SequencerSide) (f : FollowerSide) : BlockSource → Prop
  | .injected injectedBatch =>
      Unused mapKey s.slots f.globalExitRoots injectedBatch.lastGlobalExitRoot
  | .proposed proposedTimestamp =>
      ∀ index update,
        calculateNextL1TreeUpdateToUse (searchRounds tables.updates)
            s.infoTreeIndexProgress tables.updates proposedTimestamp =
          some (index, some update) →
        0 < index →
        index < 2 ^ 32 ∧ if s.infoTreeIndexProgress < index then
            Unused mapKey s.slots f.globalExitRoots update.ger
          else
            readGerManagerL1BlockHash mapKey s.slots update.ger ≠ 0
  | .l1Recovery l1InfoTreeIndex =>
      ∀ update, getL1InfoTreeUpdate tables.updates l1InfoTreeIndex.toNat = some update →
        s.infoTreeIndexProgress < l1InfoTreeIndex.toNat →
        Unused mapKey s.slots f.globalExitRoots update.ger
  | .resequence atNewBlockBoundary currentBlock =>
      let index := resequenceIndex l1InfoTreeOffset atNewBlockBoundary currentBlock
      0 < index →
      index < 2 ^ 32 ∧
        ((∃ update,
            tables.updatesByGer currentBlock.globalExitRoot =
                some update ∧
              0 < update.index ∧ update.parentHash = currentBlock.l1BlockHash ∧
              (s.infoTreeIndexProgress < index →
                Unused mapKey s.slots f.globalExitRoots currentBlock.globalExitRoot)) ∨
          ((∀ update,
              tables.updatesByGer currentBlock.globalExitRoot = some update → update.index = 0) ∧
            currentBlock.globalExitRoot = 0 ∧ currentBlock.l1BlockHash = 0))

variable {mapKey} {tables : InfoTreeTables} {l1InfoTreeOffset : Option L1InfoTreeOffset}
  {s s' : SequencerSide} {f : FollowerSide} {block : NewBlock} {built : BuiltBlock}

variable {recentlyUsed proposedTimestamp fuel index : Nat}

theorem getL1InfoTreeUpdate_index {i : Nat} {update : L1InfoTreeUpdate}
    (hGet : getL1InfoTreeUpdate tables.updates i = some update) : update.index = i := by
  rcases Option.map_eq_some_iff.mp hGet with ⟨row, hFind, rfl⟩
  have hKey := tables.updates_key row (List.mem_of_find?_eq_some hFind)
  have hRow := List.find?_some hFind
  simp at hRow
  omega

/- The search ends within its rounds. -/
theorem searchBack_isSome {recentlyUsed proposedTimestamp fuel : Nat} {latest : L1InfoTreeUpdate}
    (hFuel : latest.index < fuel) :
    (searchBack tables.updates recentlyUsed proposedTimestamp fuel latest).isSome := by
  fun_induction searchBack tables.updates recentlyUsed proposedTimestamp fuel latest with
  | case1 => exact absurd hFuel (Nat.not_lt_zero _)
  | case5 fuel latest hTime hEnd next hNext ih =>
    have hIndex := getL1InfoTreeUpdate_index hNext
    exact ih (by omega)
  | _ => rfl

theorem prepareL1AndInfoTreeRelatedStuff_isSome (tables : InfoTreeTables)
    (l1InfoTreeOffset : Option L1InfoTreeOffset) (infoTreeIndexProgress : Nat)
    (source : BlockSource) :
    (prepareL1AndInfoTreeRelatedStuff tables
      l1InfoTreeOffset infoTreeIndexProgress source).isSome := by
  cases source with
  | injected injectedBatch => rfl
  | proposed proposedTimestamp =>
    simp only [prepareL1AndInfoTreeRelatedStuff, prepareInfoTree, Option.isSome_map,
      calculateNextL1TreeUpdateToUse, searchRounds]
    cases hLatest : getLatestL1InfoTreeUpdate tables.updates with
    | none => rfl
    | some latest =>
      simp only [Option.map_some, Option.getD_some]
      split
      · rfl
      · apply searchBack_isSome
        omega
  | l1Recovery l1InfoTreeIndex => rfl
  | resequence atNewBlockBoundary currentBlock =>
    simp only [prepareL1AndInfoTreeRelatedStuff]
    split <;> rfl

theorem processFullBlock_uses (mapKey : Bytes32 → Bytes32) (f : FollowerSide)
    (l2Block : StreamedBlock) :
    (f.processFullBlock mapKey l2Block).1 =
      if l2Block.l1InfoTreeIndex ≠ 0 ∧ l2Block.l1InfoTreeIndex ≤ f.highestL1InfoTreeIndex then
        ⟨none, l2Block.globalExitRoot, l2Block.l1BlockHash⟩
      else if l2Block.globalExitRoot ≠ 0 ∧
          l2Block.globalExitRoot ∉ f.globalExitRoots then
        ⟨some (gerManagerWrite mapKey l2Block.globalExitRoot l2Block.l1BlockHash),
          l2Block.globalExitRoot, l2Block.l1BlockHash⟩
      else ⟨none, 0, l2Block.l1BlockHash⟩ := by
  simp only [FollowerSide.processFullBlock, FollowerSide.writeL2Block, syncerPreExecuteStateSet]
  by_cases hReused :
      l2Block.l1InfoTreeIndex ≠ 0 ∧ l2Block.l1InfoTreeIndex ≤ f.highestL1InfoTreeIndex
  · simp only [if_pos hReused, decide_eq_true hReused]
    simp
  · simp only [if_neg hReused, decide_eq_false hReused]
    by_cases hStored : l2Block.globalExitRoot ≠ 0 ∧ l2Block.globalExitRoot ∉ f.globalExitRoots
    · simp only [if_pos hStored, decide_eq_true hStored]
      simpa using hStored.1
    · simp only [if_neg hStored, decide_eq_false hStored]
      simp

/- An index that fits is the same in the stream. -/
theorem toNat_streamed_index (hIndex : built.l1InfoTreeIndex < 2 ^ 32) :
    built.streamed.l1InfoTreeIndex.toNat = built.l1InfoTreeIndex := by
  rw [BuiltBlock.streamed, BitVec.toNat_ofNat]
  exact Nat.mod_eq_of_lt hIndex

/- An index that was used before. -/
abbrev Reused (s : SequencerSide) (index : Nat) : Prop :=
  0 < index ∧ index ≤ s.infoTreeIndexProgress

theorem streamed_reused_iff (hIndex : built.l1InfoTreeIndex < 2 ^ 32)
    (hProgress : s.infoTreeIndexProgress = f.highestL1InfoTreeIndex.toNat) :
    (built.streamed.l1InfoTreeIndex ≠ 0 ∧
        built.streamed.l1InfoTreeIndex ≤ f.highestL1InfoTreeIndex) ↔
      Reused s built.l1InfoTreeIndex := by
  have hNat := toNat_streamed_index hIndex
  rw [Reused, BitVec.le_def, hNat, hProgress, Ne, ← BitVec.toNat_inj, hNat]
  simp [Nat.pos_iff_ne_zero]

theorem ExitRootUse.eq_iff (a b : ExitRootUse) :
    a = b ↔ a.write = b.write ∧ a.ger = b.ger ∧ a.l1BlockHash = b.l1BlockHash := by
  rcases a with ⟨write, ger, l1BlockHash⟩
  rcases b with ⟨write', ger', l1BlockHash'⟩
  simp

def builtOf (prepared : PreparedBlock) (started : StartedBlock) : BuiltBlock where
  uses := ⟨started.write, prepared.ger, prepared.l1BlockHash⟩
  globalExitRoot := started.globalExitRoot
  l1BlockHash := started.l1BlockHash
  l1InfoTreeIndex := prepared.l1TreeUpdateIndex

theorem buildBlock_cases
    (hBuild : s.buildBlock mapKey tables l1InfoTreeOffset block = some (built, s')) :
    (s.executionAt = 0 ↔ block.source.isInjected = true) ∧
      ∃ prepared started,
        prepareL1AndInfoTreeRelatedStuff tables l1InfoTreeOffset s.infoTreeIndexProgress
            block.source = some prepared ∧
          handleStateForNewBlockStarting mapKey s.slots (s.executionAt + 1) prepared.l1TreeUpdate
              prepared.shouldWriteGerToContract =
            some started ∧
          built = builtOf prepared started ∧
          s'.infoTreeIndexProgress =
            max s.infoTreeIndexProgress prepared.infoTreeIndexProgress := by
  rw [SequencerSide.buildBlock] at hBuild
  by_cases hKind : s.executionAt = 0 ↔ block.source.isInjected = true
  · rw [if_pos hKind] at hBuild
    rcases Option.bind_eq_some_iff.mp hBuild with ⟨prepared, hPrepared, hRest⟩
    rcases Option.map_eq_some_iff.mp hRest with ⟨started, hStarted, hEq⟩
    cases hEq
    exact ⟨hKind, prepared, started, hPrepared, hStarted, rfl, rfl⟩
  · rw [if_neg hKind] at hBuild
    cases hBuild

theorem handleStateForNewBlockStarting_empty {slots : ContractSlots} {blockNumber : Nat}
    {l1info : Option L1InfoTreeUpdate} {shouldWrite : Bool} {started : StartedBlock}
    (hNumber : blockNumber ≠ 1) (hIndex : ∀ update, l1info = some update → update.index = 0)
    (hStarted : handleStateForNewBlockStarting mapKey slots
      blockNumber l1info shouldWrite = some started) : started = StartedBlock.none := by
  revert hStarted
  fun_cases handleStateForNewBlockStarting mapKey slots blockNumber l1info shouldWrite with
  | case1 hOne => exact absurd hOne hNumber
  | case3 update hStored => exact absurd (hIndex update rfl) (by omega)
  | _ => exact fun hStarted => (Option.some.inj hStarted).symm

/- Nothing is stored for the block. -/
theorem builtOf_empty_agrees_iff {prepared : PreparedBlock} :
    (f.processFullBlock mapKey (builtOf prepared StartedBlock.none).streamed).1 =
        (builtOf prepared StartedBlock.none).uses ↔
      prepared.ger = 0 ∧ prepared.l1BlockHash = 0 := by
  have hProcessed : (f.processFullBlock mapKey
      (builtOf prepared StartedBlock.none).streamed).1 = ⟨none, 0, 0⟩ := by
    rw [processFullBlock_uses]
    simp [BuiltBlock.streamed, builtOf, StartedBlock.none]
  rw [hProcessed, ExitRootUse.eq_iff]
  exact (and_iff_right rfl).trans (and_congr eq_comm eq_comm)

theorem builtOf_stored_agrees_iff {prepared : PreparedBlock} {started : StartedBlock}
    {blockNumber : Nat} {update : L1InfoTreeUpdate} (hUpdate : prepared.l1TreeUpdate = some update)
    (hStored : update.index > 0 ∨ blockNumber = 1)
    (hStarted : handleStateForNewBlockStarting mapKey s.slots blockNumber prepared.l1TreeUpdate
      prepared.shouldWriteGerToContract =
      some started) (hIndex : prepared.l1TreeUpdateIndex < 2 ^ 32)
    (hProgress : s.infoTreeIndexProgress = f.highestL1InfoTreeIndex.toNat)
    (hGer : prepared.ger = update.ger)
    (hShould : ¬ Reused s prepared.l1TreeUpdateIndex → prepared.shouldWriteGerToContract = true) :
    (f.processFullBlock mapKey
        (builtOf prepared started).streamed).1 = (builtOf prepared started).uses ↔
      update.parentHash = prepared.l1BlockHash ∧
        if Reused s prepared.l1TreeUpdateIndex then
          prepared.shouldWriteGerToContract = true →
            readGerManagerL1BlockHash mapKey s.slots update.ger ≠ 0
        else Unused mapKey s.slots f.globalExitRoots update.ger := by
  have hReused := @streamed_reused_iff s f (builtOf prepared started) hIndex hProgress
  rw [hUpdate, handleStateForNewBlockStarting, if_pos hStored] at hStarted
  cases hStarted
  rw [processFullBlock_uses, ExitRootUse.eq_iff]
  by_cases hUsed : Reused s prepared.l1TreeUpdateIndex
  · rw [if_pos (hReused.mpr hUsed), if_pos hUsed]
    simp only [BuiltBlock.streamed, builtOf, hGer]
    grind
  · rw [if_neg (hUsed ∘ hReused.mp), if_neg hUsed]
    simp only [BuiltBlock.streamed, builtOf, hGer, hShould hUsed, Unused]
    grind

section PerSource

variable {prepared : PreparedBlock} {started : StartedBlock}

/- Both sides do the same, and the index fits. -/
def Agrees (mapKey : Bytes32 → Bytes32) (f : FollowerSide) (built : BuiltBlock) : Prop :=
  built.l1InfoTreeIndex < 2 ^ 32 ∧ (f.processFullBlock mapKey built.streamed).1 = built.uses

variable
  (hStarted : handleStateForNewBlockStarting mapKey s.slots (s.executionAt + 1)
    prepared.l1TreeUpdate prepared.shouldWriteGerToContract = some started)
  (hProgress : s.infoTreeIndexProgress = f.highestL1InfoTreeIndex.toNat)
include hStarted hProgress

/-
  The two ways to take over an index: without a stored update both sides use nothing, and with one
  the index decides.
-/
theorem agrees_of_iff {infoTreeIndexProgress index : Nat} {update : Option L1InfoTreeUpdate}
    {shouldWrite : Bool}
    (hPrepared : prepared = ⟨.of infoTreeIndexProgress index update, shouldWrite⟩)
    (hKey : ∀ found, update = some found → found.index = index)
    (hShould : s.infoTreeIndexProgress < index → shouldWrite = true) (hNumber : s.executionAt ≠ 0) :
    Agrees mapKey f (builtOf prepared started) ↔
      index < 2 ^ 32 ∧
        ∀ found, update = some found → 0 < index → if s.infoTreeIndexProgress < index then
            Unused mapKey s.slots f.globalExitRoots found.ger
          else shouldWrite = true → readGerManagerL1BlockHash mapKey s.slots found.ger ≠ 0 := by
  subst hPrepared
  have hOne : s.executionAt + 1 ≠ 1 := by omega
  apply and_congr_right
  intro hIndex
  by_cases hStored : ∃ found, update = some found ∧ 0 < index
  · rcases hStored with ⟨found, rfl, hPos⟩
    have hFound := hKey found rfl
    rw [builtOf_stored_agrees_iff rfl (Or.inl (by omega)) hStarted hIndex hProgress
      (by simp [InfoTreeChoice.of, hPos]) (fun hNew => hShould (by
        have hNew' : ¬ Reused s index := hNew
        omega))]
    simp only [InfoTreeChoice.of]
    by_cases hNew : s.infoTreeIndexProgress < index
    · simp [Reused, hNew, hPos]
    · simp [Reused, hNew, hPos, Nat.le_of_not_lt hNew]
  · have hEmpty : ∀ found, update = some found → found.index = 0 := by
      intro found hFound
      rw [hKey found hFound]
      by_contra hPos
      exact hStored ⟨found, hFound, by omega⟩
    rw [handleStateForNewBlockStarting_empty hOne hEmpty hStarted, builtOf_empty_agrees_iff]
    constructor
    · intro hZero found hFound hPos
      exact absurd ⟨found, hFound, hPos⟩ hStored
    · intro hFine
      cases update with
      | none => simp [InfoTreeChoice.of]
      | some found =>
        have hZero : ¬0 < index := fun hPos => hStored ⟨found, rfl, hPos⟩
        simp [InfoTreeChoice.of, hZero]

variable {source : BlockSource}
  (hPrepared : prepareL1AndInfoTreeRelatedStuff tables l1InfoTreeOffset s.infoTreeIndexProgress
    source = some prepared)
include hPrepared

theorem injected_agrees_iff {injectedBatch : L1InjectedBatch}
    (hSource : source = .injected injectedBatch) (hFirst : s.executionAt = 0) :
    Agrees mapKey f (builtOf prepared started) ↔
      source.Fine mapKey tables l1InfoTreeOffset s f := by
  subst hSource
  cases hPrepared
  have hSmall : 0 < 2 ^ 32 := by decide
  have hAgrees := builtOf_stored_agrees_iff rfl
    (Or.inr (by omega)) hStarted hSmall hProgress rfl (fun _ => rfl)
  rw [Agrees, hAgrees]
  simp [builtOf, BlockSource.Fine]

theorem proposed_agrees_iff {proposedTimestamp : Nat}
    (hSource : source = .proposed proposedTimestamp) (hNumber : s.executionAt ≠ 0) :
    Agrees mapKey f (builtOf prepared started) ↔
      source.Fine mapKey tables l1InfoTreeOffset s f := by
  subst hSource
  rcases Option.map_eq_some_iff.mp hPrepared with ⟨choice, hChoice, rfl⟩
  rcases Option.map_eq_some_iff.mp hChoice with ⟨⟨index, update⟩, hCalculated, rfl⟩
  have hFound := calculateNextL1TreeUpdateToUse_cases hCalculated
  simp only [Prod.mk.injEq] at hFound
  have hKey : ∀ found, update = some found → found.index = index := by
    rintro found rfl
    rcases hFound with ⟨_, ⟨⟩⟩ | ⟨_, ⟨hIndex, ⟨⟩⟩, _⟩
    exact hIndex.symm
  have hAgrees := agrees_of_iff hStarted hProgress rfl hKey (fun _ => rfl) hNumber
  refine hAgrees.trans ?_
  simp only [BlockSource.Fine, hCalculated, Option.some.injEq, Prod.mk.injEq]
  constructor
  · rintro ⟨hIndex, hFine⟩ _ found ⟨rfl, hUpdate⟩ hPos
    refine ⟨hIndex, ?_⟩
    simpa using hFine found hUpdate hPos
  · intro hFine
    rcases hFound with ⟨rfl, rfl⟩ | ⟨found, ⟨hSame, rfl⟩, _⟩
    · exact ⟨by decide, by simp⟩
    · by_cases hPos : 0 < index
      · have hThis := hFine index found ⟨rfl, rfl⟩ hPos
        refine ⟨hThis.1, ?_⟩
        rintro _ ⟨⟩ -
        simpa using hThis.2
      · refine ⟨by omega, ?_⟩
        intro _ _ hIndex
        exact absurd hIndex hPos

theorem l1Recovery_agrees_iff {l1InfoTreeIndex : BitVec 32}
    (hSource : source = .l1Recovery l1InfoTreeIndex) (hNumber : s.executionAt ≠ 0) :
    Agrees mapKey f (builtOf prepared started) ↔
      source.Fine mapKey tables l1InfoTreeOffset s f := by
  subst hSource
  cases hPrepared
  have hAgrees := agrees_of_iff hStarted hProgress rfl (fun _ => getL1InfoTreeUpdate_index)
    (fun hNew => decide_eq_true hNew) hNumber
  refine hAgrees.trans ?_
  simp only [BlockSource.Fine, l1InfoTreeIndex.isLt, true_and]
  apply forall₂_congr
  intro found hFound
  by_cases hNew : s.infoTreeIndexProgress < l1InfoTreeIndex.toNat
  · have hPos : 0 < l1InfoTreeIndex.toNat := by omega
    simp [hNew, hPos]
  · simp [hNew]

theorem resequence_agrees_iff {atNewBlockBoundary : Bool} {currentBlock : StreamedBlock}
    (hSource : source = .resequence atNewBlockBoundary currentBlock) (hNumber : s.executionAt ≠ 0) :
    Agrees mapKey f (builtOf prepared started) ↔
      source.Fine mapKey tables l1InfoTreeOffset s f := by
  subst hSource
  have hOne : s.executionAt + 1 ≠ 1 := by omega
  simp only [prepareL1AndInfoTreeRelatedStuff] at hPrepared
  simp only [BlockSource.Fine]
  generalize hGen :
    resequenceIndex l1InfoTreeOffset atNewBlockBoundary currentBlock = index at hPrepared ⊢
  by_cases hPos : index > 0
  · rw [if_pos hPos] at hPrepared
    cases hPrepared
    rw [Agrees, forall_prop_of_true hPos]
    apply and_congr_right
    intro hIndex
    by_cases hStored :
        ∃ update, tables.updatesByGer currentBlock.globalExitRoot = some update ∧ 0 < update.index
    · rcases hStored with ⟨update, hUpdate, hUpdatePos⟩
      have hKey := tables.updatesByGer_key _ _ hUpdate
      rw [builtOf_stored_agrees_iff hUpdate (Or.inl hUpdatePos) hStarted hIndex hProgress
        hKey.symm (by
          intro hNew
          have hNew' : ¬ Reused s index := hNew
          exact decide_eq_true (by omega))]
      simp only [hKey, hUpdate]
      by_cases hNew : s.infoTreeIndexProgress < index
      · have hUsed : ¬ Reused s index := by omega
        grind
      · have hUsed : Reused s index := by omega
        grind
    · have hEmpty : ∀ update,
          tables.updatesByGer currentBlock.globalExitRoot = some update → update.index = 0 := by
        intro update hUpdate
        by_contra hUpdatePos
        exact hStored ⟨update, hUpdate, by omega⟩
      rw [handleStateForNewBlockStarting_empty hOne hEmpty hStarted, builtOf_empty_agrees_iff]
      grind
  · rw [if_neg hPos] at hPrepared
    cases hPrepared
    have hNone : ∀ update : L1InfoTreeUpdate,
        (none : Option L1InfoTreeUpdate) = some update → update.index = 0 := by
      rintro update ⟨⟩
    rw [Agrees, handleStateForNewBlockStarting_empty hOne hNone hStarted, builtOf_empty_agrees_iff]
    have hZero : index = 0 := by omega
    simp [hZero, builtOf]

end PerSource

theorem buildBlock_agrees_iff
    (hBuild : s.buildBlock mapKey tables l1InfoTreeOffset block = some (built, s'))
    (hProgress : s.infoTreeIndexProgress = f.highestL1InfoTreeIndex.toNat) :
    Agrees mapKey f built ↔ block.source.Fine mapKey tables l1InfoTreeOffset s f := by
  rcases buildBlock_cases hBuild with ⟨hKind, prepared, started, hPrepared, hStarted, rfl, -⟩
  have hNumber : block.source.isInjected = false → s.executionAt ≠ 0 := by
    intro hOther hZero
    rw [hKind.mp hZero] at hOther
    cases hOther
  generalize block.source = source at *
  cases source with
  | injected injectedBatch =>
    exact injected_agrees_iff hStarted hProgress hPrepared rfl (hKind.mpr rfl)
  | proposed proposedTimestamp =>
    exact proposed_agrees_iff hStarted hProgress hPrepared rfl (hNumber rfl)
  | l1Recovery l1InfoTreeIndex =>
    exact l1Recovery_agrees_iff hStarted hProgress hPrepared rfl (hNumber rfl)
  | resequence atNewBlockBoundary currentBlock =>
    exact resequence_agrees_iff hStarted hProgress hPrepared rfl (hNumber rfl)

-- A Run of Blocks

/- The progress is the highest index so far. -/
theorem prepared_progress {infoTreeIndexProgress : Nat} {source : BlockSource}
    {prepared : PreparedBlock}
    (hPrepared : prepareL1AndInfoTreeRelatedStuff tables
      l1InfoTreeOffset infoTreeIndexProgress source = some prepared) :
    max infoTreeIndexProgress prepared.infoTreeIndexProgress =
      max infoTreeIndexProgress prepared.l1TreeUpdateIndex := by
  cases source with
  | injected injectedBatch =>
    cases hPrepared
    rfl
  | proposed proposedTimestamp =>
    rcases Option.map_eq_some_iff.mp hPrepared with ⟨choice, hChoice, rfl⟩
    rcases Option.map_eq_some_iff.mp hChoice with ⟨⟨index, update⟩, hCalculated, rfl⟩
    dsimp only
    split <;> omega
  | l1Recovery l1InfoTreeIndex =>
    cases hPrepared
    dsimp only [InfoTreeChoice.of]
    split <;> omega
  | resequence atNewBlockBoundary currentBlock =>
    simp only [prepareL1AndInfoTreeRelatedStuff] at hPrepared
    split at hPrepared
    · cases hPrepared
      rfl
    · cases hPrepared
      dsimp only
      omega

/- Both sides count the index in the same way. -/
theorem buildBlock_progress
    (hBuild : s.buildBlock mapKey tables l1InfoTreeOffset block = some (built, s'))
    (hProgress : s.infoTreeIndexProgress = f.highestL1InfoTreeIndex.toNat)
    (hIndex : built.l1InfoTreeIndex < 2 ^ 32) :
    s'.infoTreeIndexProgress =
      (f.processFullBlock mapKey built.streamed).2.highestL1InfoTreeIndex.toNat := by
  rcases buildBlock_cases hBuild with ⟨-, prepared, started, hPrepared, -, rfl, hNext⟩
  have hNat : (builtOf prepared started).streamed.l1InfoTreeIndex.toNat =
        prepared.l1TreeUpdateIndex :=
    toNat_streamed_index hIndex
  rw [hNext, prepared_progress hPrepared, hProgress]
  simp only [FollowerSide.processFullBlock, gt_iff_lt, BitVec.lt_def, hNat]
  split
  · rw [hNat]
    omega
  · omega

/-
  Every block meets the condition on its source, in the states that the two sides have before it.
-/
def AllFine (mapKey : Bytes32 → Bytes32) (tables : InfoTreeTables)
    (l1InfoTreeOffset : Option L1InfoTreeOffset) :
    SequencerSide → FollowerSide → List NewBlock → Prop
  | _, _, [] => True
  | s, f, block :: blocks =>
      block.source.Fine mapKey tables l1InfoTreeOffset s f ∧
        ∀ built s', s.buildBlock mapKey tables l1InfoTreeOffset block = some (built, s') →
          AllFine mapKey tables l1InfoTreeOffset s' (f.processFullBlock mapKey built.streamed).2
            blocks

/-
  A follower that starts with the index progress of the sequencer does what the sequencer did for
  every block, and no index is cut off by the stream, exactly if every block meets the condition.
-/
theorem follower_agrees_iff (mapKey : Bytes32 → Bytes32) (tables : InfoTreeTables)
    (l1InfoTreeOffset : Option L1InfoTreeOffset) (s : SequencerSide) (f : FollowerSide)
    (blocks : List NewBlock) (builts : List BuiltBlock)
    (hProgress : s.infoTreeIndexProgress = f.highestL1InfoTreeIndex.toNat)
    (hBuilt : s.buildBlocks mapKey tables l1InfoTreeOffset blocks = some builts) :
    ((∀ built ∈ builts, built.l1InfoTreeIndex < 2 ^ 32) ∧
        f.processBlocks mapKey (builts.map BuiltBlock.streamed) = builts.map BuiltBlock.uses) ↔
      AllFine mapKey tables l1InfoTreeOffset s f blocks := by
  induction blocks generalizing s f builts with
  | nil =>
    cases hBuilt
    simp [FollowerSide.processBlocks, AllFine]
  | cons block blocks ih =>
    rcases Option.bind_eq_some_iff.mp hBuilt with ⟨⟨built, s'⟩, hBuild, hOthersBuilt⟩
    rcases Option.map_eq_some_iff.mp hOthersBuilt with ⟨rest, hRest, rfl⟩
    have hAgrees := buildBlock_agrees_iff hBuild hProgress
    have hAll : AllFine mapKey tables l1InfoTreeOffset s f (block :: blocks) ↔
          Agrees mapKey f built ∧
            AllFine mapKey tables l1InfoTreeOffset s'
              (f.processFullBlock mapKey built.streamed).2 blocks := by
      rw [AllFine, hAgrees, hBuild]
      simp
    rw [hAll]
    simp only [List.map_cons, FollowerSide.processBlocks,
      List.cons.injEq, List.forall_mem_cons, Agrees]
    constructor
    · rintro ⟨⟨hIndex, hIndices⟩, hUses, hOthers⟩
      have hNext := buildBlock_progress hBuild hProgress hIndex
      exact ⟨⟨hIndex, hUses⟩, (ih s' _ rest hNext hRest).mp ⟨hIndices, hOthers⟩⟩
    · rintro ⟨⟨hIndex, hUses⟩, hFine⟩
      have hNext := buildBlock_progress hBuild hProgress hIndex
      rcases (ih s' _ rest hNext hRest).mpr hFine with ⟨hIndices, hOthers⟩
      exact ⟨⟨hIndex, hIndices⟩, hUses, hOthers⟩

/- A block of the right kind is always built. -/
theorem buildBlock_isSome (mapKey : Bytes32 → Bytes32) (tables : InfoTreeTables)
    (l1InfoTreeOffset : Option L1InfoTreeOffset) (s : SequencerSide) (block : NewBlock)
    (hKind : s.executionAt = 0 ↔ block.source.isInjected = true) :
    (s.buildBlock mapKey tables l1InfoTreeOffset block).isSome := by
  rcases Option.isSome_iff_exists.mp
      (prepareL1AndInfoTreeRelatedStuff_isSome tables
        l1InfoTreeOffset s.infoTreeIndexProgress block.source) with
    ⟨prepared, hPrepared⟩
  rw [SequencerSide.buildBlock, if_pos hKind, hPrepared, Option.bind_some, Option.isSome_map]
  cases hUpdate : prepared.l1TreeUpdate with
  | some update =>
    rw [handleStateForNewBlockStarting]
    split <;> rfl
  | none =>
    have hNumber : s.executionAt + 1 ≠ 1 := by
      intro hOne
      have hInjected := hKind.mp (by omega)
      cases hSource : block.source with
      | injected injectedBatch =>
        rw [hSource] at hPrepared
        cases hPrepared
        cases hUpdate
      | _ =>
        rw [hSource] at hInjected
        cases hInjected
    rw [handleStateForNewBlockStarting, if_neg hNumber]
    rfl

/- Blocks of the right kinds are always built: the searches end and no update is missed. -/
theorem buildBlocks_isSome (mapKey : Bytes32 → Bytes32) (tables : InfoTreeTables)
    (l1InfoTreeOffset : Option L1InfoTreeOffset) (s : SequencerSide) (blocks : List NewBlock)
    (hKinds : ∀ i block, blocks[i]? = some block →
      (s.executionAt + i = 0 ↔ block.source.isInjected = true)) :
    (s.buildBlocks mapKey tables l1InfoTreeOffset blocks).isSome := by
  induction blocks generalizing s with
  | nil => rfl
  | cons block blocks ih =>
    have hKind : s.executionAt = 0 ↔ _ := hKinds 0 block rfl
    rcases Option.isSome_iff_exists.mp
        (buildBlock_isSome mapKey tables l1InfoTreeOffset s block hKind) with ⟨next, hBuild⟩
    have hAt : next.2.executionAt = s.executionAt + 1 := by
      rw [SequencerSide.buildBlock, if_pos hKind] at hBuild
      rcases Option.bind_eq_some_iff.mp hBuild with ⟨_, -, hRest⟩
      rcases Option.map_eq_some_iff.mp hRest with ⟨_, -, rfl⟩
      rfl
    rw [SequencerSide.buildBlocks, hBuild, Option.bind_some, Option.isSome_map]
    refine ih next.2 fun i other hOther => ?_
    rw [hAt, Nat.add_assoc, Nat.add_comm 1]
    exact hKinds (i + 1) other hOther

/- The updates 1 and 2 have the exit roots 10 and `second`. Nothing is stored by exit root. -/
def twoUpdates (second : Bytes32) : InfoTreeTables where
  updates := [(1, ⟨1, 10, 21, 5⟩), (2, ⟨2, second, 22, 6⟩)]
  updatesByGer := fun _ => none
  updates_key := by simp
  updatesByGer_key := by simp

def recoveredBlock (l1InfoTreeIndex : BitVec 32) : NewBlock := ⟨.l1Recovery l1InfoTreeIndex, id⟩

def newSequencer : SequencerSide := ⟨0, 0, fun _ => 0⟩

def newFollower : FollowerSide := ⟨0, []⟩

def injectedBlock : NewBlock := ⟨.injected ⟨9, 20, 4⟩, id⟩

theorem buildBlocks_isSome_injected :
    (newSequencer.buildBlocks id (twoUpdates 11) none [injectedBlock, recoveredBlock 3]).isSome :=
  buildBlocks_isSome id _ none newSequencer _ fun i block hBlock => by
    rcases i with _ | _ | i <;> cases hBlock <;> decide

/- The index 1 is used, then 2, then 1 again, then none. -/
theorem follower_agrees_iff_reused :
    AllFine id (twoUpdates 11) none newSequencer newFollower
      [injectedBlock, recoveredBlock 1, recoveredBlock 2, recoveredBlock 1, recoveredBlock 0] :=
  (follower_agrees_iff id (twoUpdates 11) none newSequencer newFollower _
    [⟨⟨some (9, 20), 9, 20⟩, 9, 20, 0⟩, ⟨⟨some (10, 21), 10, 21⟩, 10, 21, 1⟩,
      ⟨⟨some (11, 22), 11, 22⟩, 11, 22, 2⟩, ⟨⟨none, 10, 21⟩, 10, 21, 1⟩, ⟨⟨none, 0, 0⟩, 0, 0, 0⟩]
    rfl (by decide)).mp ⟨by decide, by decide⟩

/-
  A new index with an exit root that was used before: the sequencer has the exit root in the block
  info tree, and the follower has zero.  A rolled back block whose exit root is not stored: the
  sequencer has its exit root and L1 block hash, and the follower has zeros.
-/
theorem follower_drops_known_exit_root :
    (newSequencer.buildBlocks id (twoUpdates 10) none
        [injectedBlock, recoveredBlock 1, recoveredBlock 2] =
        some
          [⟨⟨some (9, 20), 9, 20⟩, 9, 20, 0⟩, ⟨⟨some (10, 21), 10, 21⟩, 10, 21, 1⟩,
            ⟨⟨none, 10, 22⟩, 10, 22, 2⟩] ∧
      newFollower.processBlocks id [⟨9, 20, 0⟩, ⟨10, 21, 1⟩, ⟨10, 22, 2⟩] =
        [⟨some (9, 20), 9, 20⟩, ⟨some (10, 21), 10, 21⟩, ⟨none, 0, 22⟩]) ∧
    (newSequencer.buildBlocks id (twoUpdates 11) none
        [injectedBlock, ⟨.resequence true ⟨12, 23, 3⟩, id⟩] =
        some [⟨⟨some (9, 20), 9, 20⟩, 9, 20, 0⟩, ⟨⟨none, 12, 23⟩, 0, 0, 3⟩] ∧
      newFollower.processBlocks id [⟨9, 20, 0⟩, ⟨0, 0, 3⟩] =
        [⟨some (9, 20), 9, 20⟩, ⟨none, 0, 0⟩]) := by
  decide

end XLayerErigon.Sequencer
