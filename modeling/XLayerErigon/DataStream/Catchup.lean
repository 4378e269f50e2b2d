import XLayerErigon.DataStream.Heads

/-
  Catching the stream up with the stored chain.

  A call writes the blocks behind the highest one of the stream, up to the progress of the node.
  The stored chain stays as it is; the progress of the stages may be any other in the next call.

  Main results:
    * `Held.resume`
    * `catchup_faithful`
    * `catchup_whole`
-/

namespace XLayerErigon.DataStream

/- The same chain with another progress of the batches. -/
def Db.withProgress (db : Db) (batchesProgress : Nat) : Db :=
  { db with batchesProgress := batchesProgress }

theorem forkIdBelow_withProgress (db : Db) (progress batchNumber : Nat) :
    forkIdBelow (db.withProgress progress) batchNumber = forkIdBelow db batchNumber := by
  induction batchNumber with
  | zero => rfl
  | succ n ih =>
    cases n with
    | zero => rfl
    | succ n =>
      rw [forkIdBelow, forkIdBelow, ih]
      rfl

theorem addBatchStartEntries_withProgress (db : Db) (progress : Nat) :
    addBatchStartEntries (db.withProgress progress) = addBatchStartEntries db := by
  funext batchNum chainId
  unfold addBatchStartEntries getBatchTypeAndFork
  rw [forkIdBelow_withProgress]
  rfl

theorem openingList_withProgress (db : Db) (progress : Nat) :
    openingList (db.withProgress progress) = openingList db := by
  funext root batchNumber lastBatchNumber chainId
  unfold openingList batchStartList emptyBatchEntries
  rw [addBatchStartEntries_withProgress]
  rfl

-- The genesis block

def genesisForkId : Nat := 0

def genesisList (chainId : Nat) (db : Db) (genesis : Block) : List Entry :=
  let batchNo := db.getBatchNoByL2Block 0
  [newBatchBookmarkEntryProto genesis.number,
    newBatchStartProto batchNo chainId genesisForkId .regular,
    newL2BlockBookmarkEntryProto genesis.number, newL2BlockProto genesis batchNo
    (db.getBlockGlobalExitRoot genesis.number) 0 0 0 0 0, .l2BlockEnd 0, newBatchEndProto
    (db.getBatchLocalExitRootFromSCStorageForLatestBlock 0) genesis.root 0]

namespace Server

/- A genesis block that is not stored is a nil pointer. -/
def writeGenesisToStream (s : Server) (chainId : Nat) (db : Db) (genesis : Option Block) :
    Except Failure Unit × Server :=
  match genesis with
  | none => (.error .panic, s)
  | some genesis =>
    s.commitEntries ((genesisList chainId db genesis).map some) none none none

/- Only a stream without entries needs the genesis block. -/
def writeGenesisIfNew (s : Server) (chainId : Nat) (db : Db) (previousProgress : Nat) :
    Except Failure Unit × Server :=
  if previousProgress = 0 ∧ s.entries = [] then
    s.writeGenesisToStream chainId db (db.readBlockByNumber 0)
  else (.ok (), s)

end Server

/- The progress of the stages when a call is made. -/
structure Progress where
  isSequencer : Bool
  dataStream : Nat
  execution : Nat
  batches : Nat

def Progress.finalBlockNumber (progress : Progress) : Nat :=
  if progress.isSequencer then
    if progress.dataStream = 0 then progress.execution
    else progress.dataStream
  else progress.execution

/-
  A call of `CatchupDatastream`.  `early` is a failure before anything is written, `stop` and
  `interrupt` are those of the loop over the blocks.
-/
structure Catchup where
  progress : Progress
  early : Option Failure
  stop : Option Failure
  interrupt : Nat → Option Server.Interrupt

namespace Server

/- The writing behind the highest block. -/
def catchupFrom (s : Server) (chainId : Nat) (db : Db) (call : Catchup) (previousProgress : Nat) :
    Except Failure Unit × Server :=
  andThen (s.writeGenesisIfNew chainId db previousProgress) fun s =>
    s.writeBlocksToStreamConsecutively chainId (db.withProgress call.progress.batches) call.stop
      call.interrupt ((previousProgress + 1) % 2 ^ 64) call.progress.finalBlockNumber

def catchupDatastream (s : Server) (chainId : Nat) (db : Db)
    (call : Catchup) : Except Failure Nat × Server :=
  match call.early, s.getHighestBlockNumber with
  | some e, _ => (.error e, s)
  | none, .error e => (.error e, s)
  | none, .ok previousProgress =>
    let written := s.catchupFrom chainId db call previousProgress
    (written.1.map fun _ => call.progress.finalBlockNumber, written.2)

theorem catchupDatastream_eq {s : Server} {call : Catchup} {previousProgress : Nat}
    (hEarly : call.early = none) (hHighest : s.getHighestBlockNumber = .ok previousProgress)
    (chainId : Nat) (db : Db) : s.catchupDatastream chainId db call =
      ((s.catchupFrom chainId db call previousProgress).1.map
          fun _ => call.progress.finalBlockNumber,
        (s.catchupFrom chainId db call previousProgress).2) := by
  simp [catchupDatastream, hEarly, hHighest]

end Server

/- All blocks up to a number are stored. -/
def Stored (db : Db) (tip : Nat) : Prop := ∀ n ≤ tip, db.readBlockByNumber n ≠ none

/- The loop starts behind the genesis block. -/
def genesisVars (db : Db) : Server.Vars where
  latestBatchNum := db.getBatchNoByL2Block 0
  lastBlock := db.readBlockByNumber 0
  forkId := 0
  isLastEntryBatchEnd := true

/- The entries up to a block, with some batches progress. -/
def upTo (chainId : Nat) (db : Db) (tip batchesProgress : Nat) : List (Option Entry) :=
  ((db.readBlockByNumber 0).elim [] (genesisList chainId db)).map some ++
    Server.pass chainId (db.withProgress batchesProgress)
      (genesisVars db) (Server.blockNumbers 1 tip)

/-
  The entries of a call that is not interrupted, when all stages have reached the last block of
  the chain.
-/
def whole (chainId : Nat) (db : Db) (tip : Nat) : List (Option Entry) := upTo chainId db tip tip

/- The stream is a part of the chain from its beginning. -/
structure Faithful (chainId : Nat) (db : Db) (s : Server) : Prop where
  consecutive : s.entries.filterMap blockOf = List.range (s.entries.filterMap blockOf).length
  starts : ∀ tip, Stored db tip →
    (∀ n ∈ s.entries.filterMap blockOf, n ≤ tip) → s.entries.map some <+: whole chainId db tip

namespace Server

section

variable {chainId : Nat} {db : Db}

-- The entries of stored blocks

/- What stands before the bookmark of a block. -/
def Vars.before (v : Vars) (chainId : Nat) (db : Db) (blockNumber : Nat)
    (block lastBlock : Block) : List (Option Entry) :=
  (closingList db lastBlock
      (db.getBatchNoByL2Block blockNumber) v.latestBatchNum v.isLastEntryBatchEnd ++
    openingList db block.root (db.getBatchNoByL2Block blockNumber) v.latestBatchNum
      chainId).map some ++
  List.replicate (unfilled db (db.getBatchNoByL2Block blockNumber) v.latestBatchNum) none

/- The entries of a block without an end of its batch. -/
def Vars.body (v : Vars) (chainId : Nat) (db : Db) (blockNumber : Nat)
    (block lastBlock : Block) : List (Option Entry) :=
  v.before chainId db blockNumber block lastBlock ++
    (blockList db block lastBlock block.transactions
      (v.forkIdAt db blockNumber) (db.getBatchNoByL2Block blockNumber) (fun _ => 0)).map some

variable (v : Vars) {s : Server} {ended entries : List Entry} {n : Nat} {block : Block}

/- Only the end of the batch depends on the progress. -/
theorem Vars.blockEntries_stored {blockNumber : Nat} {block lastBlock : Block}
    (hBlock : db.readBlockByNumber blockNumber = some block) (hLast : v.lastBlock = some lastBlock)
    (progress : Nat) : v.blockEntries chainId (db.withProgress progress) blockNumber =
      .ok (v.body chainId db blockNumber block lastBlock ++
        (finalEndEntriesOf db block (db.getBatchNoByL2Block blockNumber)
          v.latestBatchNum (blockNumber = progress)).map some) := by
  have hRead : (db.withProgress progress).readBlockByNumber blockNumber = some block := hBlock
  unfold blockEntries
  simp only [hRead, hLast, deref, Option.elim_some, ok_bind,
    createBlockWithBatchCheck_eq, body, before, openingList_withProgress, List.map_append,
    List.append_assoc]
  rfl

theorem Vars.blockEntries_missing {blockNumber : Nat}
    (hMissing : db.readBlockByNumber blockNumber = none ∨ v.lastBlock = none) (progress : Nat) :
    v.blockEntries chainId (db.withProgress progress) blockNumber = .error .panic := by
  unfold blockEntries
  rcases hMissing with hMissing | hMissing
  · have hRead : (db.withProgress progress).readBlockByNumber blockNumber = none := hMissing
    rw [hRead]
    rfl
  · cases hRead : (db.withProgress progress).readBlockByNumber blockNumber with
    | none => rfl
    | some block =>
      rw [hMissing]
      rfl

/- Blocks that are stored can be built, and no others. -/
theorem builds_iff (progress : Nat) (blocks : List Nat) :
    Builds chainId (db.withProgress progress) v blocks ↔
      (∀ n ∈ blocks, db.readBlockByNumber n ≠ none) ∧ (blocks ≠ [] → v.lastBlock ≠ none) := by
  induction blocks generalizing v with
  | nil => simp [Builds]
  | cons n blocks ih =>
    rw [Builds, ih]
    constructor
    · rintro ⟨⟨entries, hEntries⟩, hStored, -⟩
      have hHere : db.readBlockByNumber n ≠ none := by
        intro hNone
        rw [v.blockEntries_missing (Or.inl hNone)] at hEntries
        cases hEntries
      refine ⟨by simpa using ⟨hHere, hStored⟩, ?_⟩
      intro _ hNone
      rw [v.blockEntries_missing (Or.inr hNone)] at hEntries
      cases hEntries
    · rintro ⟨hStored, hLast⟩
      have hHere := hStored n (by simp)
      rcases Option.ne_none_iff_exists'.mp hHere with ⟨block, hBlock⟩
      rcases Option.ne_none_iff_exists'.mp (hLast (by simp)) with ⟨lastBlock, hLastBlock⟩
      exact ⟨⟨_, v.blockEntries_stored hBlock hLastBlock _⟩,
        fun m hm => hStored m (by simp [hm]), fun _ => hHere⟩

-- What the variables matter for

/- The blocks of a batch that come first have no transactions. -/
def NoTxs (db : Db) (batch : Nat) : List Nat → Prop
  | [] => True
  | n :: rest =>
      db.getBatchNoByL2Block n = batch →
      (∀ block, db.readBlockByNumber n = some block → block.transactions = []) ∧ NoTxs db batch rest

/- Variables that differ at most in the fork id. -/
structure Alike (v w : Vars) : Prop where
  batch : w.latestBatchNum = v.latestBatchNum
  block : w.lastBlock = v.lastBlock
  ended : w.isLastEntryBatchEnd = v.isLastEntryBatchEnd

/- The fork id of a batch only says whether the transactions get their state roots. -/
theorem Alike.body_eq {v w : Vars} (hAlike : Alike v w) (lastBlock : Block)
    (hFork : (w.forkIdAt db n ≤ etrogBatchNumber ↔ v.forkIdAt db n ≤ etrogBatchNumber) ∨
      block.transactions = []) :
    w.body chainId db n block lastBlock = v.body chainId db n block lastBlock := by
  have hTxs : block.transactions.map
      (createTransactionEntryProto db block.number (w.forkIdAt db n ≤ etrogBatchNumber)) =
      block.transactions.map
        (createTransactionEntryProto db block.number (v.forkIdAt db n ≤ etrogBatchNumber)) := by
    rcases hFork with hIff | hNone
    · rw [decide_eq_decide.mpr hIff]
    · rw [hNone]
      rfl
  unfold Vars.body Vars.before blockList
  rw [hAlike.batch, hAlike.ended, hTxs]

theorem forkIdAt_of_ne {v : Vars} (hBatch : db.getBatchNoByL2Block n ≠ v.latestBatchNum) :
    v.forkIdAt db n = db.getForkId (db.getBatchNoByL2Block n) :=
  if_pos hBatch

theorem forkIdAt_of_eq {v : Vars} (hBatch : db.getBatchNoByL2Block n = v.latestBatchNum) :
    v.forkIdAt db n = v.forkId :=
  if_neg (not_not_intro hBatch)

theorem pass_fork {v w : Vars} (hAlike : Alike v w) (progress : Nat) (blocks : List Nat)
    (hFork : (w.forkId ≤ etrogBatchNumber ↔ v.forkId ≤ etrogBatchNumber) ∨
      NoTxs db v.latestBatchNum blocks) :
    pass chainId (db.withProgress progress) w blocks =
      pass chainId (db.withProgress progress) v blocks := by
  induction blocks generalizing v w with
  | nil => rfl
  | cons n blocks ih =>
    have hNext : Alike (v.next (db.withProgress progress) n)
        (w.next (db.withProgress progress) n) :=
      ⟨rfl, rfl, rfl⟩
    -- a new batch reads the fork id again
    have hRest : ((w.forkIdAt db n ≤ etrogBatchNumber ↔
            v.forkIdAt db n ≤ etrogBatchNumber) ∨
          NoTxs db (db.getBatchNoByL2Block n) blocks) ∧
        ((w.forkIdAt db n ≤ etrogBatchNumber ↔
            v.forkIdAt db n ≤ etrogBatchNumber) ∨
          ∀ block, db.readBlockByNumber n = some block → block.transactions = []) := by
      by_cases hBatch : db.getBatchNoByL2Block n = v.latestBatchNum
      · rw [forkIdAt_of_eq hBatch, forkIdAt_of_eq (hBatch.trans hAlike.batch.symm)]
        rcases hFork with hIff | hNone
        · exact ⟨Or.inl hIff, Or.inl hIff⟩
        · rcases hNone hBatch with ⟨hHere, hLater⟩
          exact ⟨Or.inr (hBatch ▸ hLater), Or.inr hHere⟩
      · rw [forkIdAt_of_ne hBatch, forkIdAt_of_ne (hAlike.batch ▸ hBatch)]
        exact ⟨Or.inl Iff.rfl, Or.inl Iff.rfl⟩
    have hLater := ih hNext hRest.1
    unfold pass
    cases hBlock : db.readBlockByNumber n with
    | none => rw [v.blockEntries_missing (Or.inl hBlock), w.blockEntries_missing (Or.inl hBlock)]
    | some block =>
    cases hLast : v.lastBlock with
    | none =>
      rw [v.blockEntries_missing (Or.inr hLast), w.blockEntries_missing
        (Or.inr (hAlike.block.trans hLast))]
    | some lastBlock =>
      rw [v.blockEntries_stored hBlock hLast, w.blockEntries_stored hBlock
        (hAlike.block.trans hLast), hAlike.body_eq lastBlock (hRest.2.imp_right fun hNone =>
          hNone block hBlock),
        hAlike.batch]
      exact congrArg (_ ++ ·) hLater

-- The end of a batch

/- The updates of a batch are found wherever it lies. -/
theorem gerEntries_between {low batch high : Nat} (hLow : low ≤ batch) (hHigh : batch ≤ high) :
    gerEntries (db.getBatchGlobalExitRootsProto low high) batch =
      gerEntries db.globalExitRootsBatches.updates batch := by
  unfold gerEntries Db.getBatchGlobalExitRootsProto
  rw [List.filter_filter]
  congr 1
  refine List.filter_congr fun u _ => ?_
  by_cases hBatch : u.batchNumber = batch
  · simp [hBatch, hLow, hHigh]
  · simp [hBatch]

/- The end of the batch of a block, with all its updates. -/
def endList (db : Db) (block : Block) : List Entry :=
  let batch := db.getBatchNoByL2Block block.number
  addBatchEndEntriesProto batch block.root db.globalExitRootsBatches.updates
    (db.getBatchLocalExitRootFromSCStorageForLatestBlock batch)

theorem endList_between (block : Block) {low high : Nat}
    (hLow : low ≤ db.getBatchNoByL2Block block.number)
    (hHigh : db.getBatchNoByL2Block block.number ≤ high) :
    addBatchEndEntriesProto (db.getBatchNoByL2Block block.number) block.root
        (db.getBatchGlobalExitRootsProto low high)
        (db.getBatchLocalExitRootFromSCStorageForLatestBlock
          (db.getBatchNoByL2Block block.number)) =
      endList db block := by
  unfold endList addBatchEndEntriesProto
  rw [gerEntries_between hLow hHigh]

/- No end is written where the progress of the batches is. -/
def Quiet (db : Db) (progress : Nat) (blocks : List Nat) : Prop :=
  ∀ n ∈ blocks, n = progress → db.getBatchEnd n = false

theorem finalEndEntriesOf_quiet {n progress : Nat}
    (hQuiet : n = progress → db.getBatchEnd n = false) (hNumber : block.number = n)
    (batch lastBatch : Nat) : finalEndEntriesOf db block batch lastBatch (n = progress) = [] := by
  unfold finalEndEntriesOf
  by_cases hHere : n = progress
  · simp [hNumber, hQuiet hHere]
  · simp [hHere]

theorem pass_quiet {p q : Nat} {blocks : List Nat} (hFirst : Quiet db p blocks)
    (hSecond : Quiet db q blocks) :
    pass chainId (db.withProgress p) v blocks = pass chainId (db.withProgress q) v blocks := by
  induction blocks generalizing v with
  | nil => rfl
  | cons n blocks ih =>
    have hLater := ih (v.next db n)
      (fun m hm => hFirst m (by simp [hm])) (fun m hm => hSecond m (by simp [hm]))
    unfold pass
    cases hBlock : db.readBlockByNumber n with
    | none => rw [v.blockEntries_missing (Or.inl hBlock), v.blockEntries_missing (Or.inl hBlock)]
    | some block =>
    cases hLast : v.lastBlock with
    | none => rw [v.blockEntries_missing (Or.inr hLast), v.blockEntries_missing (Or.inr hLast)]
    | some lastBlock =>
      have hNumber := db.number_eq n block hBlock
      rw [v.blockEntries_stored hBlock hLast, v.blockEntries_stored hBlock hLast,
        finalEndEntriesOf_quiet (hFirst n (by simp)) hNumber,
        finalEndEntriesOf_quiet (hSecond n (by simp)) hNumber]
      exact congrArg (_ ++ ·) hLater

/-
  A block that is stored as the end of its batch is the last of the batch, and the batches before
  and behind it are in their order.
-/
structure EndsBatch (db : Db) (n : Nat) : Prop where
  stored : db.getBatchEnd n = true
  above : db.getBatchNoByL2Block (n - 1) ≤ db.getBatchNoByL2Block n
  below : db.readBlockByNumber (n + 1) ≠ none →
    db.getBatchNoByL2Block n ≤ db.getBatchNoByL2Block (n + 1) ∧
    0 < sub64 (db.getBatchNoByL2Block (n + 1)) (db.getBatchNoByL2Block n)

/- The end that is written before the next batch starts. -/
theorem pass_ended {n fork : Nat} (hBlock : db.readBlockByNumber n = some block)
    (hEnds : EndsBatch db n) (hNext : db.readBlockByNumber (n + 1) ≠ none) (progress : Nat)
    (rest : List Nat) :
    pass chainId (db.withProgress progress) ⟨db.getBatchNoByL2Block n, some block, fork, false⟩
        ((n + 1) :: rest) =
      (endList db block).map some ++
        pass chainId (db.withProgress progress) ⟨db.getBatchNoByL2Block n, some block, fork, true⟩
          ((n + 1) :: rest) := by
  rcases Option.ne_none_iff_exists'.mp hNext with ⟨next, hStored⟩
  rcases hEnds.below hNext with ⟨hOrder, hGap⟩
  have hNumber := db.number_eq n block hBlock
  have hEnd := endList_between block
    (hNumber.symm ▸ Nat.le_refl (db.getBatchNoByL2Block n)) (hNumber.symm ▸ hOrder)
  rw [hNumber] at hEnd
  unfold pass
  rw [Vars.blockEntries_stored _ hStored rfl, Vars.blockEntries_stored _ hStored rfl]
  simp only [Vars.body, Vars.before, closingList, hGap,
    if_true, endEntriesOf, Bool.false_eq_true, if_false, hEnd, List.nil_append, List.map_append,
    List.append_assoc]
  rfl

-- The chain block by block

theorem blockNumbers_append {low middle high : Nat} (hLow : low ≤ middle + 1)
    (hHigh : middle ≤ high) :
    blockNumbers low high = blockNumbers low middle ++ blockNumbers (middle + 1) high := by
  have hStart : low + (middle + 1 - low) = middle + 1 := by omega
  have hLength : (middle + 1 - low) + (high + 1 - (middle + 1)) = high + 1 - low := by omega
  have hAll := List.range'_append_1 (s := low)
    (m := middle + 1 - low) (n := high + 1 - (middle + 1))
  rw [hStart, hLength] at hAll
  exact hAll.symm

theorem blockNumbers_self (n : Nat) : blockNumbers n n = [n] := by simp [blockNumbers]

theorem blockNumbers_succ (n : Nat) : blockNumbers 1 (n + 1) = blockNumbers 1 n ++ [n + 1] := by
  rw [blockNumbers_append (by omega) (Nat.le_succ n), blockNumbers_self]

theorem blockNumbers_cons {low high : Nat} (hSome : low ≤ high) :
    blockNumbers low high = low :: blockNumbers (low + 1) high := by
  rw [blockNumbers_append (Nat.le_succ low) hSome, blockNumbers_self]
  rfl

/- The fork id the loop knows behind a block. -/
def chainFork (db : Db) : Nat → Nat
  | 0 => 0
  | n + 1 =>
      if db.getBatchNoByL2Block (n + 1) ≠ db.getBatchNoByL2Block n then
        db.getForkId (db.getBatchNoByL2Block (n + 1))
      else chainFork db n

theorem chainFork_cases (db : Db) (n : Nat) :
    chainFork db n = 0 ∨ chainFork db n = db.getForkId (db.getBatchNoByL2Block n) := by
  induction n with
  | zero => exact Or.inl rfl
  | succ n ih =>
    unfold chainFork
    split
    · exact Or.inr rfl
    · rename_i hBatch
      rw [not_not.mp hBatch]
      exact ih

/- The variables of the loop behind a block. -/
def chainVars (db : Db) (n : Nat) : Vars where
  latestBatchNum := db.getBatchNoByL2Block n
  lastBlock := db.readBlockByNumber n
  forkId := chainFork db n
  isLastEntryBatchEnd := decide (n = 0)

theorem after_genesisVars (db : Db) (n : Nat) :
    (genesisVars db).after db (blockNumbers 1 n) = chainVars db n := by
  induction n with
  | zero => rfl
  | succ n ih =>
    rw [blockNumbers_succ, Vars.after, List.foldl_append]
    rw [Vars.after] at ih
    rw [ih]
    rfl

theorem builds_genesisVars (hStored : Stored db n) (progress : Nat) :
    Builds chainId (db.withProgress progress) (genesisVars db) (blockNumbers 1 n) := by
  refine (builds_iff _ _ _).mpr ⟨?_, ?_⟩
  · intro m hm
    exact hStored m (mem_blockNumbers.mp hm).2
  · intro _
    exact hStored 0 (Nat.zero_le n)

/- The chain up to a block, and the blocks behind it. -/
theorem upTo_append {low : Nat} (hStored : Stored db low) {high : Nat} (hLe : low ≤ high)
    (progress : Nat) : upTo chainId db high progress =
      upTo chainId db low progress ++
        pass chainId (db.withProgress progress)
          (chainVars db low) (blockNumbers (low + 1) high) := by
  unfold upTo
  rw [blockNumbers_append (by omega) hLe, pass_append (builds_genesisVars hStored progress),
    List.append_assoc]
  congr 2
  exact congrArg (pass chainId (db.withProgress progress) · _) (after_genesisVars db low)

theorem quiet_of_lt {n progress : Nat} (hLt : n < progress) :
    Quiet db progress (blockNumbers 1 n) := by
  intro m hm hEq
  have hBelow := (mem_blockNumbers.mp hm).2
  omega

/- Without an end of a batch the progress does not matter. -/
theorem upTo_quiet {tip progress : Nat} (hQuiet : Quiet db progress (blockNumbers 1 tip)) :
    upTo chainId db tip progress = upTo chainId db tip 0 := by
  have hZero : Quiet db 0 (blockNumbers 1 tip) := by
    intro n hn hEq
    have hPositive := (mem_blockNumbers.mp hn).1
    omega
  unfold upTo
  rw [pass_quiet (genesisVars db) hQuiet hZero]

/- One more block. -/
theorem upTo_succ {block lastBlock : Block} (hStored : Stored db n)
    (hBlock : db.readBlockByNumber (n + 1) = some block)
    (hLast : db.readBlockByNumber n = some lastBlock) (progress : Nat) :
    upTo chainId db (n + 1) progress =
      upTo chainId db n progress ++
        ((chainVars db n).body chainId db (n + 1) block lastBlock ++
          (finalEndEntriesOf db block (db.getBatchNoByL2Block (n + 1))
            (db.getBatchNoByL2Block n) (n + 1 = progress)).map some) := by
  rw [upTo_append hStored (Nat.le_succ n) progress, blockNumbers_self,
    pass_cons ((chainVars db n).blockEntries_stored hBlock hLast progress)]
  simp only [pass, List.append_nil]
  rfl

/- The end of the last batch is written behind the chain. -/
theorem upTo_ended (hPositive : n ≠ 0) (hStored : Stored db n)
    (hBlock : db.readBlockByNumber n = some block) (hEnds : EndsBatch db n) :
    upTo chainId db n n = upTo chainId db n 0 ++ (endList db block).map some := by
  cases n with
  | zero => exact absurd rfl hPositive
  | succ n =>
    have hBelow : Stored db n := fun m hm => hStored m (by omega)
    rcases Option.ne_none_iff_exists'.mp (hBelow n (Nat.le_refl n)) with ⟨lastBlock, hLast⟩
    have hNumber := db.number_eq _ _ hBlock
    have hEnd := endList_between block (hNumber.symm ▸ hEnds.above) (Nat.le_refl _)
    rw [hNumber, Nat.add_sub_cancel] at hEnd
    have hHere : finalEndEntriesOf db block (db.getBatchNoByL2Block (n + 1))
        (db.getBatchNoByL2Block n) (n + 1 = n + 1) = endList db block := by
      simp only [finalEndEntriesOf, hNumber, hEnds.stored,
        hEnd, decide_true, Bool.and_self, if_true]
    have hNone : finalEndEntriesOf db block
        (db.getBatchNoByL2Block (n + 1)) (db.getBatchNoByL2Block n) (n + 1 = 0) = [] :=
      finalEndEntriesOf_quiet (by omega) hNumber _ _
    rw [upTo_succ hBelow hBlock hLast (n + 1), upTo_succ hBelow hBlock hLast 0,
      upTo_quiet (quiet_of_lt (Nat.lt_succ_self n)), hHere, hNone]
    simp

-- The blocks of the stream

theorem shape_genesisList (chainId : Nat) (db : Db) {genesis : Block}
    (hNumber : genesis.number = 0) :
    Shape (genesisList chainId db genesis) [0] [db.getBatchNoByL2Block 0] [0] := by
  refine ⟨txsFollow_of_none ?_, ?_, rfl, rfl⟩
  · simp [genesisList, newBatchBookmarkEntryProto, newBatchStartProto, newL2BlockBookmarkEntryProto,
      newL2BlockProto, newBatchEndProto]
  · rw [← hNumber]
    rfl

/- The stream holds the blocks up to one and maybe an end. -/
structure Held
    (chainId : Nat) (db : Db) (n : Nat) (block : Block) (ended entries : List Entry) : Prop where
  stored : Stored db n
  last : db.readBlockByNumber n = some block
  stream : entries.map some = upTo chainId db n 0 ++ ended.map some
  ended : ended = [] ∨ n ≠ 0 ∧ EndsBatch db n ∧ ended = endList db block

section

variable (hHeld : Held chainId db n block ended entries)

include hHeld

/- The genesis block, the blocks behind it, the end. -/
theorem Held.split : ∃ genesis later, db.readBlockByNumber 0 = some genesis ∧
      pass chainId (db.withProgress 0) (genesisVars db) (blockNumbers 1 n) = later.map some ∧
      entries = genesisList chainId db genesis ++ (later ++ ended) := by
  rcases Option.ne_none_iff_exists'.mp (hHeld.stored 0 (Nat.zero_le n)) with ⟨genesis, hGenesis⟩
  have hStream := hHeld.stream
  rw [upTo, hGenesis, Option.elim_some, List.append_assoc] at hStream
  rcases List.map_eq_append_iff.mp hStream with ⟨first, rest, hFirst, hSome, hRest⟩
  have hFirstEq := List.map_injective_iff.mpr (Option.some_injective Entry) hSome
  rcases List.map_eq_append_iff.mp hRest with ⟨later, last, hLater, hPass, hEnded⟩
  have hEndedEq := List.map_injective_iff.mpr (Option.some_injective Entry) hEnded
  subst hFirstEq hEndedEq hLater
  exact ⟨genesis, later, hGenesis, hPass.symm, hFirst⟩

/- The blocks of the stream are in their order. -/
theorem Held.shape : ∃ starts ends, Shape entries (List.range (n + 1)) starts ends := by
  rcases hHeld.split with ⟨genesis, later, hRead, hPass, rfl⟩
  have hEnded : ∃ ends, Shape ended [] [] ends := by
    rcases hHeld.ended with rfl | ⟨-, -, rfl⟩
    · exact ⟨_, shape_nil⟩
    · exact ⟨_, shape_addBatchEndEntriesProto _ _ _ _⟩
  rcases hEnded with ⟨_, hEnded⟩
  rcases shape_pass (builds_genesisVars hHeld.stored 0) hPass with ⟨_, _, hLater⟩
  have hAll := (shape_genesisList chainId db (db.number_eq 0 genesis hRead)).append
    (hLater.append hEnded)
  rw [List.append_nil (blockNumbers 1 n)] at hAll
  rw [List.range_eq_range', List.range'_succ]
  exact ⟨_, _, hAll⟩

theorem Held.filterMap : entries.filterMap blockOf = List.range (n + 1) := by
  rcases hHeld.shape with ⟨_, _, hShape⟩
  exact hShape.blocks

theorem Held.ne_nil : entries ≠ [] := by
  intro hNil
  have hBlocks := hHeld.filterMap
  rw [hNil] at hBlocks
  simp at hBlocks

/- The stream says which block is the last. -/
theorem Held.lastOf : lastOf blockOrTxOf entries = some n := by
  rcases hHeld.shape with ⟨_, _, hShape⟩
  rw [lastOf_blockOrTxOf hShape.txs, hShape.lastOf_blockOf, List.range_succ, List.getLast?_concat]

end

-- Where a call goes on

/- A block is closed by its own end. -/
theorem getLast?_upTo_succ (hStored : Stored db (n + 1)) :
    (upTo chainId db (n + 1) 0).getLast? = some (some (.l2BlockEnd (n + 1))) := by
  have hBelow : Stored db n := fun m hm => hStored m (by omega)
  rcases Option.ne_none_iff_exists'.mp (hBelow n (Nat.le_refl n)) with ⟨lastBlock, hLast⟩
  rcases Option.ne_none_iff_exists'.mp (hStored (n + 1) (Nat.le_refl _)) with ⟨block, hBlock⟩
  have hNumber := db.number_eq _ _ hBlock
  have hNone : finalEndEntriesOf db block
      (db.getBatchNoByL2Block (n + 1)) (db.getBatchNoByL2Block n) (n + 1 = 0) = [] :=
    finalEndEntriesOf_quiet (by omega) hNumber _ _
  rw [upTo_succ hBelow hBlock hLast 0, hNone, Vars.body, blockList, hNumber]
  simp only [List.map_nil, List.append_nil, List.map_cons, List.map_append, ← List.cons_append,
    ← List.append_assoc, List.getLast?_concat]

theorem isLastEntryBatchEnd_of_getLast? {e : Entry} (hLast : s.entries.getLast? = some e) :
    s.isLastEntryBatchEnd = (endedOf e).isSome := by
  unfold isLastEntryBatchEnd
  rw [hLast]
  cases e <;> rfl

section

variable {ended : List Entry} (hHeld : Held chainId db n block ended s.entries)

include hHeld

theorem Held.isLastEntryBatchEnd : s.isLastEntryBatchEnd = decide (n = 0 ∨ ended ≠ []) := by
  have hLast : (s.entries.map some).getLast? = (upTo chainId db n 0 ++ ended.map some).getLast? :=
    congrArg List.getLast? hHeld.stream
  rw [List.getLast?_map] at hLast
  rcases hHeld.ended with rfl | ⟨hPositive, -, rfl⟩
  · rw [List.map_nil, List.append_nil] at hLast
    cases n with
    | zero =>
      rcases hHeld.split with ⟨genesis, later, -, hPass, hEq⟩
      cases List.map_eq_nil_iff.mp hPass.symm
      rw [isLastEntryBatchEnd_of_getLast? (congrArg List.getLast? hEq)]
      simp [newBatchEndProto, endedOf]
    | succ n =>
      rw [getLast?_upTo_succ hHeld.stored] at hLast
      rcases Option.map_eq_some_iff.mp hLast with ⟨e, hEntry, hSome⟩
      cases hSome
      rw [isLastEntryBatchEnd_of_getLast? hEntry]
      simp [endedOf]
  · rw [endList, addBatchEndEntriesProto, List.map_append,
      ← List.append_assoc, List.map_cons, List.map_nil, List.getLast?_concat] at hLast
    rcases Option.map_eq_some_iff.mp hLast with ⟨e, hEntry, hSome⟩
    cases hSome
    rw [isLastEntryBatchEnd_of_getLast? hEntry]
    simp [newBatchEndProto, endedOf, endList, addBatchEndEntriesProto]

omit hHeld in
theorem sub64_succ_one (hBound : n + 1 < 2 ^ 64) : sub64 (n + 1) 1 = n := by
  unfold sub64
  omega

/- The fork id is not known where a call goes on inside a batch, and need not be. -/
def ForkFine (db : Db) (n tip : Nat) : Prop :=
  n = 0 ∨ db.getForkId (db.getBatchNoByL2Block n) ≤ etrogBatchNumber ∨
  NoTxs db (db.getBatchNoByL2Block n) (blockNumbers (n + 1) tip)

/- A call goes on as if it had not been interrupted. -/
theorem Held.resume {tip : Nat} (hLt : n < tip) (hBound : n + 1 < 2 ^ 64) (hStored : Stored db tip)
    (hFork : ForkFine db n tip) (progress : Nat) : s.entries.map some ++
        pass chainId (db.withProgress progress) (s.startVars (db.withProgress progress) (n + 1))
          (blockNumbers (n + 1) tip) =
      upTo chainId db n 0 ++
        pass chainId (db.withProgress progress) (chainVars db n) (blockNumbers (n + 1) tip) := by
  let v : Vars := ⟨db.getBatchNoByL2Block n,
    db.readBlockByNumber n, chainFork db n, s.isLastEntryBatchEnd⟩
  have hStart : s.startVars (db.withProgress progress) (n + 1) = { v with forkId := 0 } := by
    unfold startVars
    rw [sub64_succ_one hBound]
    rfl
  have hAlike : Alike v { v with forkId := 0 } := ⟨rfl, rfl, rfl⟩
  have hForks : (0 ≤ etrogBatchNumber ↔ chainFork db n ≤ etrogBatchNumber) ∨
      NoTxs db (db.getBatchNoByL2Block n) (blockNumbers (n + 1) tip) := by
    rcases hFork with rfl | hEtrog | hNone
    · exact Or.inl Iff.rfl
    · left
      rcases chainFork_cases db n with hZero | hFork
      · rw [hZero]
      · rw [hFork]
        exact ⟨fun _ => hEtrog, fun _ => Nat.zero_le _⟩
    · exact Or.inr hNone
  rw [hStart, pass_fork hAlike progress _ hForks, hHeld.stream, List.append_assoc]
  congr 1
  have hEndKnown := hHeld.isLastEntryBatchEnd
  rcases hHeld.ended with rfl | ⟨hPositive, hEnds, rfl⟩
  · have hVars : v = chainVars db n := by simp [v, chainVars, hEndKnown]
    rw [hVars]
    rfl
  · have hNext := hStored (n + 1) hLt
    have hChain : chainVars db n =
        ⟨db.getBatchNoByL2Block n, some block, chainFork db n, false⟩ := by
      simp [chainVars, hHeld.last, hPositive]
    have hVars : v = ⟨db.getBatchNoByL2Block n, some block, chainFork db n, true⟩ := by
      simp [v, hHeld.last, hEndKnown, endList, addBatchEndEntriesProto]
    rw [blockNumbers_cons hLt, hChain, hVars, pass_ended hHeld.last hEnds hNext]

/- The progress of the batches is not inside the blocks. -/
def EndFine (db : Db) (n progress tip : Nat) : Prop :=
  n < progress → progress ≤ tip →
  db.getBatchEnd progress = true → progress = tip ∧ EndsBatch db progress

omit hHeld in
theorem quiet_zero (db : Db) (n tip : Nat) : Quiet db 0 (blockNumbers (n + 1) tip) := by
  intro m hm hEq
  have hPositive := (mem_blockNumbers.mp hm).1
  omega

/- The stream behind the blocks that a call has written. -/
theorem Held.advance
    {reached tip progress : Nat} (hLt : n < reached) (hLe : reached ≤ tip) (hBound : n + 1 < 2 ^ 64)
    (hStored : Stored db reached) (hFork : ForkFine db n reached) (hEnd : EndFine db n progress tip)
    {entries : List Entry}
    (hEntries : entries.map some = s.entries.map some ++ pass chainId (db.withProgress progress)
      (s.startVars (db.withProgress progress) (n + 1)) (blockNumbers (n + 1) reached)) :
    ∃ block ended, Held chainId db reached block ended entries := by
  rcases Option.ne_none_iff_exists'.mp (hStored reached (Nat.le_refl _)) with ⟨last, hLast⟩
  rw [hHeld.resume hLt hBound hStored hFork] at hEntries
  by_cases hHere : progress = reached ∧ db.getBatchEnd progress = true
  · -- the call writes the end of the last batch
    rcases hHere with ⟨rfl, hStop⟩
    have hEnds := (hEnd hLt hLe hStop).2
    refine ⟨last, endList db last, hStored, hLast, ?_, Or.inr ⟨by omega, hEnds, rfl⟩⟩
    rw [hEntries, ← upTo_quiet (quiet_of_lt hLt), ← upTo_append hHeld.stored (Nat.le_of_lt hLt),
      upTo_ended (by omega) hStored hLast hEnds]
  · have hQuiet : Quiet db progress (blockNumbers (n + 1) reached) := by
      intro m hm hEq
      rcases mem_blockNumbers.mp hm with ⟨hLow, hHigh⟩
      by_contra hStop
      have hStop : db.getBatchEnd progress = true := by simpa [hEq] using hStop
      rcases hEnd (by omega) (by omega) hStop with ⟨hTip, -⟩
      exact hHere ⟨by omega, hStop⟩
    refine ⟨last, [], hStored, hLast, ?_, Or.inl rfl⟩
    rw [hEntries, pass_quiet _ hQuiet (quiet_zero db n _),
      ← upTo_append hHeld.stored (Nat.le_of_lt hLt), List.map_nil, List.append_nil]

/- The chain itself goes on behind the stream. -/
omit hHeld in
theorem Held.starts (hHeld : Held chainId db n block ended entries) {tip : Nat} (hLe : n ≤ tip)
    (hStored : Stored db tip) : entries.map some <+: whole chainId db tip := by
  rw [hHeld.stream]
  rcases Nat.lt_or_eq_of_le hLe with hLt | rfl
  · have hNext := hStored (n + 1) hLt
    rw [whole, upTo_append hHeld.stored hLe, upTo_quiet (quiet_of_lt hLt),
      List.prefix_append_right_inj]
    rcases hHeld.ended with rfl | ⟨hPositive, hEnds, rfl⟩
    · exact List.nil_prefix
    · have hChain : chainVars db n =
          ⟨db.getBatchNoByL2Block n, some block, chainFork db n, false⟩ := by
        simp [chainVars, hHeld.last, hPositive]
      rw [blockNumbers_cons hLt, hChain, pass_ended hHeld.last hEnds hNext]
      exact List.prefix_append _ _
  · rcases hHeld.ended with rfl | ⟨hPositive, hEnds, rfl⟩
    · rw [List.map_nil, List.append_nil, whole]
      cases n with
      | zero => exact List.prefix_refl _
      | succ n =>
        have hBelow : Stored db n := fun m hm => hStored m (by omega)
        rcases Option.ne_none_iff_exists'.mp (hBelow n (Nat.le_refl n)) with ⟨lastBlock, hLast⟩
        rw [upTo_succ hBelow hHeld.last hLast (n + 1), upTo_succ hBelow hHeld.last hLast 0,
          upTo_quiet (quiet_of_lt (Nat.lt_succ_self n)), finalEndEntriesOf_quiet (by omega)
          (db.number_eq _ _ hHeld.last), List.map_nil, List.append_nil, ← List.append_assoc]
        exact List.prefix_append _ _
    · rw [whole, upTo_ended hPositive hStored hHeld.last hEnds]

theorem Held.faithful : Faithful chainId db s where
  consecutive := by rw [hHeld.filterMap, List.length_range]
  starts tip hStored hBelow := by
    refine hHeld.starts (hBelow n ?_) hStored
    rw [hHeld.filterMap]
    simp

end

-- What a call asks for

theorem noTxs_of_append {batch : Nat} {xs ys : List Nat} (hNone : NoTxs db batch (xs ++ ys)) :
    NoTxs db batch xs := by
  induction xs with
  | nil => trivial
  | cons n xs ih =>
    intro hBatch
    rcases hNone hBatch with ⟨hHere, hLater⟩
    exact ⟨hHere, ih hLater⟩

theorem ForkFine.of_le {n reached tip : Nat} (hLt : n < reached) (hLe : reached ≤ tip)
    (hFork : ForkFine db n tip) : ForkFine db n reached := by
  refine hFork.imp_right (Or.imp_right ?_)
  rw [blockNumbers_append (by omega) hLe]
  exact noTxs_of_append

/- The blocks that are written come first. -/
theorem exists_of_prefix_blockNumbers {low high : Nat} {done : List Nat}
    (hDone : done <+: blockNumbers low high) (hSome : done ≠ []) :
    ∃ reached, low ≤ reached ∧ reached ≤ high ∧ done = blockNumbers low reached := by
  induction done generalizing low with
  | nil => exact absurd rfl hSome
  | cons n done ih =>
    have hLe : low ≤ high := by
      by_contra hEmpty
      have hNil : blockNumbers low high = [] := by
        simp [blockNumbers]
        omega
      rw [hNil] at hDone
      simp at hDone
    rw [blockNumbers_cons hLe, List.cons_prefix_cons] at hDone
    rcases hDone with ⟨rfl, hDone⟩
    cases done with
    | nil => exact ⟨n, Nat.le_refl n, hLe, (blockNumbers_self n).symm⟩
    | cons m done =>
      rcases ih hDone (by simp) with ⟨reached, hLow, hHigh, hEq⟩
      refine ⟨reached, by omega, hHigh, ?_⟩
      rw [hEq, blockNumbers_cons (by omega : n ≤ reached)]

end

end Server

open Server

/- The call writes to the stream behind block `n`. -/
structure Catchup.Fine
    (chainId : Nat) (db : Db) (s : Server) (call : Catchup) (n : Nat) : Prop where
  behind : n ≤ call.progress.finalBlockNumber
  bound : call.progress.finalBlockNumber + 1 < 2 ^ 64
  written : ∀ m, n < m → m ≤ call.progress.finalBlockNumber → call.interrupt m ≠ some .cancelled
  fork : ForkFine db n call.progress.finalBlockNumber
  ended : EndFine db n call.progress.batches call.progress.finalBlockNumber
  copied : (∃ result, (s.catchupDatastream chainId db call).1 = .ok result) ∨
    s.highestBlockWritten = none ∨
    (pass chainId (db.withProgress call.progress.batches)
      (s.startVars db (n + 1)) (blockNumbers (n + 1) call.progress.finalBlockNumber)).length <
      commitEntryCountLimit

-- What a call keeps

section

variable {chainId : Nat} {db : Db}

/- The stream is new, or it holds the chain up to a block. -/
def Kept (chainId : Nat) (db : Db) (s : Server) : Prop :=
  (s.entries = [] ∧ s.highestBlockWritten = none) ∨
  ∃ n block ended, Held chainId db n block ended s.entries ∧
    (s.highestBlockWritten = none ∨ s.highestBlockWritten = some n)

theorem stored_of_builds {n reached progress : Nat} (hStored : Stored db n) {v : Vars}
    (hBuilds : Builds chainId (db.withProgress progress) v (blockNumbers (n + 1) reached)) :
    Stored db reached := by
  intro m hm
  rcases Nat.lt_or_ge n m with hLt | hGe
  · exact ((builds_iff _ _ _).mp hBuilds).1 m (mem_blockNumbers.mpr ⟨hLt, hm⟩)
  · exact hStored m hGe

section

variable {s : Server} {n : Nat} {block : Block} {ended : List Entry} {tip progress : Nat}
  {stop : Option Failure} {interrupt : Nat → Option Interrupt}
  (hHeld : Held chainId db n block ended s.entries) (hBound : tip + 1 < 2 ^ 64)
  (hFork : ForkFine db n tip) (hEnd : EndFine db n progress tip)

include hHeld hBound hFork hEnd

/- A call that returns has written all blocks. -/
theorem Kept.writeBlocks_ok (hLe : n ≤ tip)
    (hWritten : ∀ m, n < m → m ≤ tip → interrupt m ≠ some .cancelled)
    (hOk : (s.writeBlocksFrom chainId (db.withProgress progress) stop interrupt (n + 1)
      tip).1 = .ok ()) :
    Kept chainId db (s.writeBlocksFrom chainId
      (db.withProgress progress) stop interrupt (n + 1) tip).2 := by
  rcases writeBlocksFrom_ok hOk with ⟨done, es, hDone, hBuilds, hPass, hWrote⟩
  have hAll : done = blockNumbers (n + 1) tip := by
    rcases hDone with hAll | ⟨m, later, hSplit, hCancel⟩
    · exact hAll
    · have hMem : m ∈ blockNumbers (n + 1) tip := by simp [hSplit]
      rcases mem_blockNumbers.mp hMem with ⟨hLow, hHigh⟩
      exact absurd hCancel (hWritten m hLow hHigh)
  subst hAll
  right
  rcases Nat.lt_or_eq_of_le hLe with hLt | rfl
  · have hStream := congrArg (List.map some) hWrote.entries
    rw [List.map_append, ← hPass] at hStream
    rcases hHeld.advance hLt (Nat.le_refl tip) (by omega)
      (stored_of_builds hHeld.stored hBuilds) hFork hEnd hStream with ⟨last, ended', hHeld'⟩
    exact ⟨tip, last, ended', hHeld', Or.inr hWrote.block⟩
  · have hNil : blockNumbers (n + 1) n = [] := by simp [blockNumbers]
    rw [hNil] at hPass
    cases List.map_eq_nil_iff.mp hPass.symm
    refine ⟨n, block, ended, ?_, Or.inr hWrote.block⟩
    rw [hWrote.entries, List.append_nil]
    exact hHeld

/- A call that fails may have written some of them. -/
theorem Kept.writeBlocks_failed
    (hCopy : s.highestBlockWritten = none ∨ s.highestBlockWritten = some n)
    (hCopied : s.highestBlockWritten = none ∨ (pass chainId (db.withProgress progress)
      (s.startVars db (n + 1)) (blockNumbers (n + 1) tip)).length < commitEntryCountLimit)
    (hFails : (s.writeBlocksFrom chainId (db.withProgress progress) stop interrupt (n + 1)
      tip).1 ≠ .ok ()) :
    Kept chainId db (s.writeBlocksFrom chainId
      (db.withProgress progress) stop interrupt (n + 1) tip).2 := by
  rcases writeBlocksFrom_failed hFails with ⟨done, hDone, hPassed⟩
  right
  rcases hPassed.stream with hSame | ⟨hLength, hBuilds, es, hEs, hStream⟩
  · refine ⟨n, block, ended, ?_, ?_⟩
    · rw [hSame]
      exact hHeld
    · rw [hPassed.block]
      exact hCopy
  -- blocks were committed, so the copy was not set
  rw [List.nil_append] at hLength hEs
  have hNone : s.highestBlockWritten = none := by
    rcases hCopied with hNone | hShort
    · exact hNone
    · rcases hDone with ⟨later, hLater⟩
      have hLong := pass_append hBuilds later
      rw [hLater] at hLong
      have hLong := congrArg List.length hLong
      rw [List.length_append] at hLong
      change (pass chainId (db.withProgress progress)
        (s.startVars db (n + 1)) _).length = _ at hLong
      omega
  have hSome : done ≠ [] := by
    rintro rfl
    simp [Server.pass, commitEntryCountLimit] at hLength
  rcases exists_of_prefix_blockNumbers hDone hSome with ⟨reached, hLow, hHigh, rfl⟩
  have hStream := congrArg (List.map some) hStream
  rw [List.map_append, ← hEs] at hStream
  rcases hHeld.advance hLow hHigh (by omega) (stored_of_builds hHeld.stored hBuilds)
    (hFork.of_le hLow hHigh) hEnd hStream with ⟨last, ended', hHeld'⟩
  exact ⟨reached, last, ended', hHeld', Or.inl (hPassed.block.trans hNone)⟩

end

variable {ended : List Entry} {s : Server}

section

variable {n : Nat} {block : Block} (hHeld : Held chainId db n block ended s.entries)
  (hCopy : s.highestBlockWritten = none ∨ s.highestBlockWritten = some n)

include hHeld hCopy

theorem Server.Held.getHighestBlockNumber : s.getHighestBlockNumber = .ok n := by
  unfold Server.getHighestBlockNumber
  rcases hCopy with hCopy | hCopy
  · rw [hCopy]
    simp [hHeld.ne_nil, hHeld.lastOf]
  · rw [hCopy]

/- Nothing is cut off the stream. -/
theorem Server.Held.writeBlocks_eq
    (hBound : n + 1 < 2 ^ 64) (chain : Nat) (chainDb : Db) (stop : Option Failure)
    (interrupt : Nat → Option Interrupt) (tip : Nat) :
    s.writeBlocksToStreamConsecutively chain chainDb stop interrupt ((n + 1) % 2 ^ 64) tip =
      s.writeBlocksFrom chain chainDb stop interrupt (n + 1) tip := by
  have hAhead : s.Ahead (n + 1) := ⟨n, hHeld.getHighestBlockNumber hCopy, Nat.lt_succ_self n⟩
  rw [Nat.mod_eq_of_lt hBound]
  unfold writeBlocksToStreamConsecutively unwound
  rw [unwindIfNecessary_of_ahead hAhead, andThen_ok rfl]

/- The blocks behind a stream that holds the chain. -/
theorem Kept.writeBlocks {base : Server}
    {call : Catchup} (hFine : call.Fine chainId db base n) {written : Except Failure Unit × Server}
    (hWritten : s.writeBlocksToStreamConsecutively chainId (db.withProgress call.progress.batches)
      call.stop call.interrupt ((n + 1) % 2 ^ 64) call.progress.finalBlockNumber = written)
    (hCopied : written.1 = .ok () ∨ s.highestBlockWritten = none ∨
      (pass chainId (db.withProgress call.progress.batches) (s.startVars db (n + 1))
      (blockNumbers (n + 1) call.progress.finalBlockNumber)).length < commitEntryCountLimit) :
    Kept chainId db written.2 := by
  have hBehind := hFine.behind
  have hBound := hFine.bound
  have hBlocks := hHeld.writeBlocks_eq hCopy (by omega : n + 1 < 2 ^ 64) chainId
    (db.withProgress call.progress.batches) call.stop call.interrupt call.progress.finalBlockNumber
  rw [← hWritten, hBlocks] at hCopied ⊢
  by_cases hOk : (s.writeBlocksFrom chainId (db.withProgress call.progress.batches) call.stop
      call.interrupt (n + 1) call.progress.finalBlockNumber).1 = .ok ()
  · exact Kept.writeBlocks_ok hHeld hBound hFine.fork hFine.ended hBehind hFine.written hOk
  · exact Kept.writeBlocks_failed hHeld hBound hFine.fork hFine.ended hCopy
      (hCopied.resolve_left hOk) hOk

end

theorem eq_ok_of_map {outcome : Except Failure Unit} {f : Unit → Nat} {result : Nat}
    (hResult : outcome.map f = .ok result) : outcome = .ok () := by
  cases outcome with
  | error e => cases hResult
  | ok _ => rfl

/- The genesis block of a new stream. -/
theorem held_genesis {s t : Server} {genesis : Block}
    (hGenesis : db.readBlockByNumber 0 = some genesis) (hNew : s.entries = [])
    (hWrote : Wrote s (genesisList chainId db genesis) none none none t) :
    Held chainId db 0 genesis [] t.entries where
  stored := by
    intro n hn
    rw [Nat.le_zero.mp hn, hGenesis]
    simp
  last := hGenesis
  stream := by
    rw [hWrote.entries, hNew, upTo, hGenesis]
    rfl
  ended := Or.inl rfl

theorem Kept.catchup (hKept : Kept chainId db s) {call : Catchup}
    (hFine : ∀ n, s.getHighestBlockNumber = .ok n → call.Fine chainId db s n) :
    Kept chainId db (s.catchupDatastream chainId db call).2 := by
  cases hEarly : call.early with
  | some e =>
    unfold catchupDatastream
    rw [hEarly]
    exact hKept
  | none =>
  rcases hKept with ⟨hNew, hCopy⟩ | ⟨n, block, ended, hHeld, hCopy⟩
  · have hHighest : s.getHighestBlockNumber = .ok 0 := by simp [getHighestBlockNumber, hCopy, hNew]
    rw [catchupDatastream_eq hEarly hHighest]
    unfold catchupFrom writeGenesisIfNew
    rw [if_pos ⟨rfl, hNew⟩]
    cases hGenesis : db.readBlockByNumber 0 with
    | none => exact Or.inl ⟨hNew, hCopy⟩
    | some genesis =>
      rcases s.commitEntries_ok (genesisList chainId db genesis) none none none with ⟨hOk, hWrote⟩
      have hNone := hWrote.block.trans hCopy
      unfold writeGenesisToStream
      rw [andThen_ok hOk]
      exact Kept.writeBlocks (held_genesis hGenesis hNew hWrote) (Or.inl hNone)
        (hFine 0 hHighest) rfl (Or.inr (Or.inl hNone))
  · have hHighest := hHeld.getHighestBlockNumber hCopy
    have hFine := hFine n hHighest
    have hCopied := hFine.copied
    have hFrom : s.catchupFrom chainId db call n =
        s.writeBlocksToStreamConsecutively chainId (db.withProgress call.progress.batches) call.stop
          call.interrupt ((n + 1) % 2 ^ 64) call.progress.finalBlockNumber := by
      unfold catchupFrom writeGenesisIfNew
      rw [if_neg (fun hNew => hHeld.ne_nil hNew.2), andThen_ok rfl]
    rw [catchupDatastream_eq hEarly hHighest, hFrom] at hCopied ⊢
    refine Kept.writeBlocks hHeld hCopy hFine rfl (hCopied.imp_left ?_)
    rintro ⟨result, hResult⟩
    exact eq_ok_of_map hResult

-- Runs

/-
  The streams that calls lead to, if each goes on where the stream ends.  The process may start
  again in between.
-/
inductive Caught (chainId : Nat) (db : Db) : Server → Prop where
  | empty : Caught chainId db Server.empty
  | call {s : Server} (call : Catchup) (hCaught : Caught chainId db s)
      (hFine : ∀ n, s.getHighestBlockNumber = .ok n → call.Fine chainId db s n) :
      Caught chainId db (s.catchupDatastream chainId db call).2
  | restart {s : Server} (hCaught : Caught chainId db s) :
      Caught chainId db s.restart

theorem Caught.kept (hCaught : Caught chainId db s) : Kept chainId db s := by
  induction hCaught with
  | empty => exact Or.inl ⟨rfl, rfl⟩
  | call call _ hFine ih => exact ih.catchup hFine
  | restart _ ih =>
    rcases ih with ⟨hNew, -⟩ | ⟨n, block, ended, hHeld, -⟩
    · exact Or.inl ⟨hNew, rfl⟩
    · exact Or.inr ⟨n, block, ended, hHeld, Or.inl rfl⟩

/- One call for the whole chain, without an interruption. -/
def uninterrupted (tip : Nat) : Catchup := ⟨⟨false, 0, tip, tip⟩, none, none, fun _ => none⟩

theorem startVars_genesis {genesis : Block} (hHeld : Held chainId db 0 genesis [] s.entries)
    (progress : Nat) : s.startVars (db.withProgress progress) (0 + 1) = genesisVars db := by
  unfold startVars genesisVars
  rw [hHeld.isLastEntryBatchEnd]
  rfl

end

end XLayerErigon.DataStream
