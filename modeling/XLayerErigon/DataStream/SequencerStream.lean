import XLayerErigon.DataStream.Brackets

/-
  The sequencer's stream.

  The sequencer writes block after block.  A batch is closed when a block of another one comes, or
  when the sequencer starts or halts.  Whether it is closed already is decided from the copies
  that the server keeps.

  Main results:
    * `Orderly.closeBefore`
    * `SequencerStep.run_orderly`
    * `sequencer_bracketed`
-/

namespace XLayerErigon.DataStream

open Server

-- The sequencer's writer

/- Where a call of the sequencer fails to read or write. -/
structure Stops where
  -- what the end of a batch needs
  close : Option Failure
  -- the end of the batch itself
  ended : Option Failure
  -- the blocks
  read : Option Failure
  -- the block
  written : Option Failure
  -- the progress of the stage
  saved : Option Failure

def Stops.nowhere : Stops := ⟨none, none, none, none, none⟩

namespace Server

/- A block that is not stored is a nil pointer. -/
def finalizeLastBatchInDatastream (s : Server) (db : Db) (stops : Stops)
    (batchToClose blockToCloseAt : Nat) : Except Failure Unit × Server :=
  match stops.close, db.readBlockByNumber blockToCloseAt with
  | some e, _ => (.error e, s)
  | none, none => (.error .panic, s)
  | none, some lastBlock =>
    s.writeBatchEnd db stops.ended batchToClose lastBlock.root
      (db.getBatchLocalExitRootFromSCStorageByBlock blockToCloseAt)

def finalizeLastBatchInDatastreamIfNotFinalized (s : Server) (db : Db) (stops : Stops)
    (batchToClose blockToCloseAt : Nat) : Except Failure Unit × Server :=
  if s.isLastEntryBatchEnd then (.ok (), s)
  else
    s.finalizeLastBatchInDatastream db stops batchToClose blockToCloseAt

/- The last batch is closed if another one comes. -/
def closeBefore (s : Server) (db : Db) (stops : Stops)
    (highestClosedBatch highestStartedBatch : Nat) (batchNumber : Nat) (blockNumbers : List Nat) :
    Except Failure Unit × Server :=
  if batchNumber > highestStartedBatch ∧ highestClosedBatch ≠ highestStartedBatch then
    match blockNumbers.head? with
    | none => (.error .panic, s)
    | some firstBlockNumber =>
      s.finalizeLastBatchInDatastream db stops highestStartedBatch (sub64 firstBlockNumber 1)
  else (.ok (), s)

/- Only the first block of a request is asked for its batch. -/
def previousBlockBatchNumber (db : Db) (batchNumber : Nat) (blockNumbers : List Nat)
    (previousBlock : Block) : Option Nat :=
  if blockNumbers.length = 1 then
    db.blockBatches previousBlock.number
  else some batchNumber

def writeLastBlock (s : Server) (chainId : Nat) (db : Db) (stops : Stops) (forkId batchNumber : Nat)
    (blockNumbers : List Nat) (lastBlockNumber : Nat) : Except Failure Unit × Server :=
  match stops.read, db.readBlockByNumber (sub64 lastBlockNumber 1) with
  | some e, _ => (.error e, s)
  | none, none => (.error .panic, s)
  | none, some previousBlock =>
    match previousBlockBatchNumber db batchNumber blockNumbers previousBlock,
      db.readBlockByNumber lastBlockNumber with
    | none, _ => (.ok (), s)
    | some _, none => (.error .panic, s)
    | some previousBatch, some block =>
      andThen
        (s.writeBlockWithBatchStartToStream chainId db
          stops.written forkId batchNumber previousBatch previousBlock block)
        fun s => (stops.saved.elim (.ok ()) .error, s)

def writeBlockDetailsToDatastream (s : Server) (chainId : Nat) (db : Db) (stops : Stops)
    (forkId batchNumber : Nat) (blockNumbers : List Nat) : Except Failure Unit × Server :=
  let closed := s.getHighestClosedBatch
  let started := closed.2.getHighestBatchNumber
  andThen (started.2.closeBefore db stops closed.1 started.1 batchNumber blockNumbers) fun s =>
    match blockNumbers.getLast? with
    | none => (.error .panic, s)
    | some lastBlockNumber =>
      s.writeLastBlock chainId db stops forkId batchNumber blockNumbers lastBlockNumber

/- Whether the execution is unwound to the stream. -/
def alignment (db : Db) (lastExecutedBlock lastDatastreamBlock : Nat) : Except Failure Bool :=
  if lastExecutedBlock > lastDatastreamBlock then
    (deref (db.readBlockByNumber lastDatastreamBlock)).map fun _ => true
  else if lastExecutedBlock < lastDatastreamBlock then
    .error .panic
  else .ok false

def alignExecutionToDatastream (s : Server) (db : Db) (stops : Stops) (lastExecutedBlock : Nat) :
    Except Failure Bool × Server :=
  let started := s.getHighestBatchNumber
  let closed := started.2.getHighestClosedBatch
  match closed.2.getHighestBlockNumber with
  | .error e => (.error e, closed.2)
  | .ok lastDatastreamBlock =>
    let finalized :=
      if started.1 ≠ closed.1 then
        closed.2.finalizeLastBatchInDatastreamIfNotFinalized db stops started.1 lastDatastreamBlock
      else (.ok (), closed.2)
    (finalized.1.bind fun _ =>
      alignment db lastExecutedBlock lastDatastreamBlock, finalized.2)

end Server

-- Runs of the sequencer

/- The batches of the blocks that are stored, from the genesis block on, and the stream. -/
structure SequencerState where
  batches : List Nat
  stream : Server

/- The genesis block is of batch 0. -/
def SequencerState.initial (chainId : Nat) (db : Db) (genesis : Block) : SequencerState :=
  ⟨[0], (Server.empty.writeGenesisToStream chainId db (some genesis)).2⟩

/-
  What the sequencer does.  A block is written from a database that has it; the list of blocks
  written so far starts with `first`.  If the call fails the block is not stored.
-/
inductive SequencerStep where
  | write (db : Db) (stops : Stops) (forkId batchNumber first : Nat)
  | align (db : Db) (stops : Stops) (lastExecutedBlock : Nat)
  | halt (db : Db) (stops : Stops) (batchToClose latestBlock : Nat)
  | unwind (blockNumber : Nat)
  | getHighestBatchNumber
  | getHighestClosedBatch
  | restart

namespace SequencerStep

/- The call that writes a block behind the stored ones. -/
def writeCall (chainId : Nat) (state : SequencerState) (db : Db) (stops : Stops)
    (forkId batchNumber first : Nat) : Except Failure Unit × Server :=
  state.stream.writeBlockDetailsToDatastream chainId db stops forkId batchNumber
    (blockNumbers first state.batches.length)

def run (chainId : Nat) (state : SequencerState) :
    SequencerStep → SequencerState
  | write db stops forkId batchNumber first =>
      let written := writeCall chainId state db stops forkId batchNumber first
      match written.1 with
      | .error _ => ⟨state.batches, written.2⟩
      | .ok _ => ⟨state.batches ++ [batchNumber], written.2⟩
  | align db stops lastExecutedBlock =>
    ⟨state.batches, (state.stream.alignExecutionToDatastream db stops lastExecutedBlock).2⟩
  | halt db stops batchToClose latestBlock =>
    ⟨state.batches,
      (state.stream.finalizeLastBatchInDatastreamIfNotFinalized
        db stops batchToClose latestBlock).2⟩
  | unwind blockNumber =>
    ⟨state.batches.take (blockNumber + 1), state.stream⟩
  | getHighestBatchNumber =>
    ⟨state.batches, state.stream.getHighestBatchNumber.2⟩
  | getHighestClosedBatch =>
    ⟨state.batches, state.stream.getHighestClosedBatch.2⟩
  | restart => ⟨state.batches, state.stream.restart⟩

/-
  A block is of the batch of the block before it or of a later one, and the blocks of a request
  are all of one batch.
-/
structure ValidWrite (state : SequencerState) (db : Db) (batchNumber first : Nat) : Prop where
  stored : ∀ n, db.blockBatches n = (state.batches ++ [batchNumber])[n]?
  later : ∀ last ∈ state.batches.getLast?, last ≤ batchNumber
  -- batch 0 is that of the genesis block
  genesis : 0 < batchNumber
  positive : 0 < first
  here : first ≤ state.batches.length
  request : ∀ n, first ≤ n → n < state.batches.length → state.batches[n]? = some batchNumber
  batchBound : batchNumber < 2 ^ 64
  blockBound : state.batches.length < 2 ^ 64

def Valid (state : SequencerState) : SequencerStep → Prop
  | write db _ _ batchNumber first =>
      ValidWrite state db batchNumber first
  | _ => True

end SequencerStep

-- A stream in order

/-
  The stream can be read, its batches are in their order, and the copies say which batch was
  started last and whether it is closed.  It reaches the stored blocks; if it ends with them, its
  last batch is that of the last block.
-/
structure Orderly (batches : List Nat) (s : Server) : Prop where
  txs : TxsFollow s.entries
  marked : Marked s.entries
  opened : ∃ o, openBatch s.entries = some o ∧ o ≠ some 0
  sorted : (s.entries.filterMap startedOf).Pairwise (· < ·)
  block : HeadOk s.highestBlockWritten blockOf s.entries
  batch : HeadOk s.highestBatchWritten startedOf s.entries
  closed : ∀ c, s.highestClosedBatchWritten = some c →
    (c = (lastOf startedOf s.entries).getD 0 ↔ openBatch s.entries = some none)
  reach : batches.length ≤ (lastOf blockOf s.entries).getD 0 + 1
  sync : (lastOf blockOf s.entries).getD 0 < batches.length →
    (lastOf startedOf s.entries).getD 0 = batches.getLast?.getD 0

namespace Orderly

variable {batches : List Nat} {s : Server}

section

variable (hOrderly : Orderly batches s)

include hOrderly

theorem bracketed : Bracketed s.entries := by
  rcases hOrderly.opened with ⟨o, hOpen, -⟩
  exact bracketed_of_openBatch hOpen (hOrderly.sorted.imp Nat.ne_of_lt)

/- Each batch that was started is at most the last one. -/
theorem le_last {number : Nat} (hMem : number ∈ s.entries.filterMap startedOf) :
    number ≤ (lastOf startedOf s.entries).getD 0 := by
  rw [lastOf_eq_getLast?]
  exact le_getLast_of_sorted hOrderly.sorted hMem

/- The open batch is the one that was started last. -/
theorem openBatch_eq (hOpen : openBatch s.entries ≠ some none) :
    openBatch s.entries = some (some ((lastOf startedOf s.entries).getD 0)) := by
  rcases hOrderly.opened with ⟨o, hSome, -⟩
  cases o with
  | none => exact absurd hSome hOpen
  | some number =>
    rw [(heads_of_openBatch hSome).2 number rfl]
    exact hSome

theorem of_same {t : Server} (hSame : Same s t) : Orderly batches t := by
  rcases s with ⟨entries, marks, block, closed, batch⟩
  rcases t with ⟨entries', marks', block', closed', batch'⟩
  rcases hSame with ⟨rfl, rfl, rfl, rfl⟩
  exact { hOrderly with }

/- What the stream says about the last end is right. -/
theorem lastEnded_iff : ((lastOf endedOf s.entries).getD 0 =
        (lastOf startedOf s.entries).getD 0 ↔
      openBatch s.entries = some none) := by
  rcases hOrderly.opened with ⟨o, hOpen, hPositive⟩
  rcases heads_of_openBatch hOpen with ⟨hNone, hSome⟩
  cases o with
  | none =>
    rw [hNone rfl, hOpen]
    simp
  | some number =>
    have hOnce : (s.entries.filterMap startedOf).Nodup := hOrderly.sorted.imp Nat.ne_of_lt
    have hStill := (ends_of_openBatch hOpen hOnce).2 number rfl
    rw [hSome number rfl, hOpen]
    simp only [Option.getD_some, Option.some.injEq, reduceCtorEq, iff_false]
    intro hEq
    cases hLast : lastOf endedOf s.entries with
    | none =>
      rw [hLast] at hEq
      exact hPositive (congrArg some hEq.symm)
    | some ended =>
      rw [hLast] at hEq
      rw [lastOf_eq_getLast?] at hLast
      exact hStill (hEq ▸ List.mem_of_getLast? hLast)

/- The getters only fill in what is right. -/
theorem getHighestClosedBatch : Orderly batches s.getHighestClosedBatch.2 ∧
    (s.getHighestClosedBatch.1 =
        (lastOf startedOf s.entries).getD 0 ↔
      openBatch s.entries = some none) := by
  unfold Server.getHighestClosedBatch
  cases hCopy : s.highestClosedBatchWritten with
  | some number => exact ⟨hOrderly, hOrderly.closed number hCopy⟩
  | none =>
    refine ⟨{ hOrderly with closed := ?_ }, hOrderly.lastEnded_iff⟩
    intro c hEq
    rw [← Option.some.inj hEq]
    exact hOrderly.lastEnded_iff

theorem getHighestBatchNumber : Orderly batches s.getHighestBatchNumber.2 ∧
    s.getHighestBatchNumber.1 = (lastOf startedOf s.entries).getD 0 := by
  unfold Server.getHighestBatchNumber
  cases hCopy : s.highestBatchWritten with
  | some number => exact ⟨hOrderly, hOrderly.batch number hCopy⟩
  | none =>
    cases hLast : lastOf startedOf s.entries with
    | none => exact ⟨hOrderly, rfl⟩
    | some number =>
      refine ⟨{ hOrderly with batch := ?_ }, rfl⟩
      exact headOk_set (by rw [hLast]; rfl) none

theorem restart : Orderly batches s.restart := by
  refine { hOrderly with block := headOk_none _ _, batch := headOk_none _ _, closed := ?_ }
  intro c hEq
  cases hEq

theorem getHighestBlockNumber {highest : Nat} (hHighest : s.getHighestBlockNumber = .ok highest) :
    highest = (lastOf blockOf s.entries).getD 0 := by
  unfold Server.getHighestBlockNumber at hHighest
  cases hCopy : s.highestBlockWritten with
  | some number =>
    rw [hCopy] at hHighest
    rw [← Except.ok.inj hHighest]
    exact hOrderly.block number hCopy
  | none =>
    rw [hCopy] at hHighest
    by_cases hNil : s.entries = []
    · simp only [hNil, if_true] at hHighest
      rw [hNil]
      exact (Except.ok.inj hHighest).symm
    · simp only [hNil, if_false, lastOf_blockOrTxOf hOrderly.txs] at hHighest
      cases hLast : lastOf blockOf s.entries with
      | none =>
        rw [hLast] at hHighest
        cases hHighest
      | some number =>
        rw [hLast] at hHighest
        exact (Except.ok.inj hHighest).symm

/- A stream that can be read, by its last block and its last batch. -/
omit hOrderly in
theorem of_heads {t : Server} {last started : Nat} {opened : Option Nat}
    (hTxs : TxsFollow t.entries) (hPiece : Piece none t.entries opened)
    (hPositive : opened ≠ some 0) (hSorted : (t.entries.filterMap startedOf).Pairwise (· < ·))
    (hBlock : (lastOf blockOf t.entries).getD 0 = last)
    (hStarted : (lastOf startedOf t.entries).getD 0 = started)
    (hCopies : (∀ n, t.highestBlockWritten = some n → n = last) ∧
      (∀ n, t.highestBatchWritten = some n → n = started) ∧
      ∀ c, t.highestClosedBatchWritten = some c → (c = started ↔ opened = none))
    (hReach : batches.length ≤ last + 1)
    (hSync : last < batches.length → started = batches.getLast?.getD 0) : Orderly batches t := by
  subst hBlock hStarted
  refine ⟨hTxs, hPiece.marked, ⟨opened, hPiece.reads, hPositive⟩, hSorted, hCopies.1, hCopies.2.1,
    ?_, hReach, hSync⟩
  intro c hEq
  rw [openBatch, hPiece.reads, Option.some.injEq]
  exact hCopies.2.2 c hEq

theorem wroteEnd {number : Nat}
    (hOpen : openBatch s.entries = some (some number)) {root localExitRoot : Hash}
    {gers : List UpdateGER} {t : Server} (hWrote : Wrote s (addBatchEndEntriesProto number root gers
      localExitRoot) none none (some number) t) :
    Orderly batches t ∧ openBatch t.entries = some none ∧
      t.entries.filterMap startedOf = s.entries.filterMap startedOf ∧
      lastOf blockOf t.entries = lastOf blockOf s.entries := by
  have hShape := (Shape.mk hOrderly.txs rfl rfl rfl).close number root gers localExitRoot
  have hPiece := (Piece.mk hOpen hOrderly.marked).append
    (piece_addBatchEnd number root gers localExitRoot)
  rw [← hWrote.entries] at hShape hPiece
  have hBlock : lastOf blockOf t.entries = lastOf blockOf s.entries :=
    hShape.lastOf_blockOf.trans (lastOf_eq_getLast? _ _).symm
  have hStarted : lastOf startedOf t.entries = lastOf startedOf s.entries :=
    hShape.lastOf_startedOf.trans (lastOf_eq_getLast? _ _).symm
  refine ⟨of_heads hShape.txs hPiece (by simp) ?_ (congrArg (·.getD 0) hBlock)
    (congrArg (·.getD 0) hStarted) ⟨?_, ?_, ?_⟩ hOrderly.reach hOrderly.sync, hPiece.reads,
    hShape.starts, hBlock⟩
  · rw [hShape.starts]
    exact hOrderly.sorted
  · exact fun n hEq => hOrderly.block n (hWrote.block.symm.trans hEq)
  · exact fun n hEq => hOrderly.batch n (hWrote.batch.symm.trans hEq)
  · intro c hEq
    rw [← Option.some.inj (hWrote.closed.symm.trans hEq), (heads_of_openBatch hOpen).2 number rfl]
    simp

end

end Orderly

-- Closing a batch

/- Entries that are not bookmarks leave the table alone. -/
theorem Server.Op.bookmarks_commitEntries (op : Op) {entries : List Entry}
    (hNone : ∀ mark, .bookmark mark ∉ entries) : (op.commitEntriesToStreamProto
      (entries.map some)).2.server.bookmarks = op.server.bookmarks := by
  induction entries generalizing op with
  | nil => rfl
  | cons e entries ih =>
    have hHere : (op.add e).server.bookmarks =
        op.server.bookmarks := by
      cases e with
      | bookmark mark => exact absurd (by simp) (hNone mark)
      | _ => rfl
    rw [List.map_cons, Op.commitEntriesToStreamProto, ih (op.add e) fun mark hMem =>
      hNone mark (by simp [hMem])]
    exact hHere

theorem Server.bookmarks_commitEntries (s : Server) {entries : List Entry}
    (hNone : ∀ mark, .bookmark mark ∉ entries) (block batch closed : Option Nat) :
    (s.commitEntries (entries.map some) block batch closed).2.bookmarks = s.bookmarks := by
  have hAdded := Op.bookmarks_commitEntries ⟨s, []⟩ hNone
  dsimp only [commitEntries]
  split
  · exact hAdded
  · exact hAdded

theorem Server.getHighestBlockNumber_congr {s t : Server}
    (hCopy : t.highestBlockWritten = s.highestBlockWritten) (hNil : t.entries = [] ↔ s.entries = [])
    (hLast : lastOf blockOrTxOf t.entries = lastOf blockOrTxOf s.entries) :
    t.getHighestBlockNumber = s.getHighestBlockNumber := by
  unfold getHighestBlockNumber
  rw [hCopy, hLast]
  simp only [hNil]

/- What closing a batch leaves of a stream in order. -/
structure Closing
    (batches : List Nat) (s : Server) (closed : Except Failure Unit × Server) : Prop where
  orderly : Orderly batches closed.2
  bookmarks : closed.2.bookmarks = s.bookmarks
  starts : closed.2.entries.filterMap startedOf = s.entries.filterMap startedOf
  highest : closed.2.getHighestBlockNumber = s.getHighestBlockNumber
  ended : closed.1 = .ok () → openBatch closed.2.entries = some none

namespace Orderly

variable {batches : List Nat} {s : Server}

variable {batchNumber chainId forkId : Nat} {prevBlock block : Block}

/- The getters only change a copy. -/
theorem got_getHighestClosedBatch (s : Server) : s.getHighestClosedBatch.2.entries = s.entries ∧
    s.getHighestClosedBatch.2.bookmarks = s.bookmarks ∧
    s.getHighestClosedBatch.2.highestBlockWritten = s.highestBlockWritten ∧
    s.getHighestClosedBatch.2.highestClosedBatchWritten = some s.getHighestClosedBatch.1 := by
  unfold Server.getHighestClosedBatch
  cases hCopy : s.highestClosedBatchWritten with
  | some number => exact ⟨rfl, rfl, rfl, hCopy⟩
  | none => exact ⟨rfl, rfl, rfl, rfl⟩

theorem got_getHighestBatchNumber (s : Server) : s.getHighestBatchNumber.2.entries = s.entries ∧
    s.getHighestBatchNumber.2.bookmarks = s.bookmarks ∧
    s.getHighestBatchNumber.2.highestBlockWritten = s.highestBlockWritten ∧
    s.getHighestBatchNumber.2.highestClosedBatchWritten = s.highestClosedBatchWritten := by
  unfold Server.getHighestBatchNumber
  cases s.highestBatchWritten with
  | some number => exact ⟨rfl, rfl, rfl, rfl⟩
  | none =>
    cases lastOf startedOf s.entries <;> exact ⟨rfl, rfl, rfl, rfl⟩

theorem writeBatchEnd (hOrderly : Orderly batches s) {number : Nat}
    (hOpen : openBatch s.entries = some (some number)) (db : Db) (stop : Option Failure)
    (root localExitRoot : Hash) :
    Closing batches s (s.writeBatchEnd db stop number root localExitRoot) := by
  have hGot := hOrderly.getHighestClosedBatch.1
  rcases got_getHighestClosedBatch s with ⟨hEntries, hMarks, hCopy, -⟩
  unfold Server.writeBatchEnd
  cases stop with
  | some e =>
    refine ⟨hGot, hMarks, by rw [hEntries], ?_, by simp⟩
    exact getHighestBlockNumber_congr hCopy (by rw [hEntries]) (by rw [hEntries])
  | none =>
    rcases commitEntries_ok s.getHighestClosedBatch.2
      (addBatchEndEntriesProto number root
        (db.getBatchGlobalExitRootsProto s.getHighestClosedBatch.1 number)
        localExitRoot) none none (some number) with
      ⟨-, hWrote⟩
    rcases hGot.wroteEnd (hEntries.symm ▸ hOpen) hWrote with ⟨hAfter, hClosed, hStarts, -⟩
    have hAll := hWrote.entries
    rw [hEntries] at hStarts hAll
    refine ⟨hAfter, ?_, hStarts, ?_, fun _ => hClosed⟩
    · refine (Server.bookmarks_commitEntries _ ?_ _ _ _).trans hMarks
      intro mark hMem
      rcases mem_addBatchEndEntriesProto hMem with ⟨u, hEq⟩ | ⟨last, hEq⟩
      · cases hEq
      · cases hEq
    · -- the stream has the start of the open batch
      have hSome : s.entries ≠ [] := by
        intro hNil
        rw [hNil] at hOpen
        cases hOpen
      refine getHighestBlockNumber_congr (hWrote.block.trans hCopy) ?_ ?_
      · rw [hAll]
        simp [hSome]
      · rw [hAll, lastOf_append, lastOf_eq_none (noBlocks_addBatchEndEntriesProto _ _ _ _)]
        rfl

theorem finalize (hOrderly : Orderly batches s) {number : Nat}
    (hOpen : openBatch s.entries = some (some number)) (db : Db) (stops : Stops)
    (blockToCloseAt : Nat) :
    Closing batches s (s.finalizeLastBatchInDatastream db stops number blockToCloseAt) := by
  unfold Server.finalizeLastBatchInDatastream
  cases stops.close with
  | some e => exact ⟨hOrderly, rfl, rfl, rfl, by simp⟩
  | none =>
    cases db.readBlockByNumber blockToCloseAt with
    | none => exact ⟨hOrderly, rfl, rfl, rfl, by simp⟩
    | some lastBlock => exact hOrderly.writeBatchEnd hOpen db _ _ _

/- Before a block of a later batch the last one is closed. -/
theorem closeBefore (hOrderly : Orderly batches s) {closed started : Nat}
    (hClosed : closed = (lastOf startedOf s.entries).getD 0 ↔ openBatch s.entries = some none)
    (hStarted : started = (lastOf startedOf s.entries).getD 0) (db : Db) (stops : Stops)
    (batchNumber : Nat) (numbers : List Nat) : (batchNumber > started ∧
      Closing batches s (s.closeBefore db stops closed started batchNumber numbers)) ∨
    (s.closeBefore db stops closed started batchNumber numbers = (.ok (), s) ∧
      (batchNumber > started → openBatch s.entries = some none)) := by
  unfold Server.closeBefore
  by_cases hClose : batchNumber > started ∧ closed ≠ started
  · rw [if_pos hClose]
    refine Or.inl ⟨hClose.1, ?_⟩
    cases numbers.head? with
    | none => exact ⟨hOrderly, rfl, rfl, rfl, by simp⟩
    | some first =>
      have hOpen : openBatch s.entries ≠ some none := by
        intro hNone
        exact hClose.2 ((hClosed.mpr hNone).trans hStarted.symm)
      have hOpen := hOrderly.openBatch_eq hOpen
      rw [← hStarted] at hOpen
      exact hOrderly.finalize hOpen db stops _
  · rw [if_neg hClose]
    refine Or.inr ⟨rfl, fun hLater => ?_⟩
    have hEq : closed = started := by
      by_contra hNe
      exact hClose ⟨hLater, hNe⟩
    exact hClosed.mp (hEq.trans hStarted)

-- Writing a block

/-
  A block may follow on what is left of the stream: it goes on with the last batch, or no batch is
  open and a later one starts.
-/
structure Follows (base : Server) (previousBatch batchNumber : Nat) : Prop where
  txs : TxsFollow base.entries
  marked : Marked base.entries
  sorted : (base.entries.filterMap startedOf).Pairwise (· < ·)
  batch : (previousBatch = batchNumber ∧
      (lastOf startedOf base.entries).getD 0 = batchNumber ∧
      (∃ o, openBatch base.entries = some o ∧ o ≠ some 0) ∧
      ∀ c, base.highestClosedBatchWritten = some c →
        (c = batchNumber ↔ openBatch base.entries = some none)) ∨
    (previousBatch < batchNumber ∧
      (lastOf startedOf base.entries).getD 0 ≤ previousBatch ∧
      openBatch base.entries = some none ∧ base.highestClosedBatchWritten ≠ some batchNumber)

section Wrote

variable {base t : Server} {previousBatch : Nat} {db : Db}
  (hWrote : Wrote base (startsBefore chainId db batchNumber previousBatch block ++
    blockList db block prevBlock block.transactions forkId batchNumber (fun _ => 0))
    (some block.number) (some batchNumber) none t) (hReach : batches.length ≤ block.number + 1)
  (hSync : block.number < batches.length → batches.getLast?.getD 0 = batchNumber)

include hWrote hReach hSync

/- A block that is written behind the closing. -/
theorem Follows.wrote (hFollows : Follows base previousBatch batchNumber)
    (hBound : batchNumber < 2 ^ 64) : Orderly batches t := by
  have hShape := (Shape.mk hFollows.txs rfl rfl rfl).append
    ((shape_startsBefore chainId db batchNumber previousBatch block).append
      (shape_blockList db block prevBlock block.transactions forkId batchNumber fun _ => 0))
  rw [← hWrote.entries, List.append_nil] at hShape
  have hPiece : ∀ o m, openBatch base.entries = some o →
      Piece o (startsBefore chainId db batchNumber previousBatch block) m →
      Piece none t.entries m := by
    intro o m hOpen hStarts
    rw [hWrote.entries]
    exact (Piece.mk hOpen hFollows.marked).append
      (hStarts.append (piece_blockList db _ _ _ _ _ _ m))
  have hBlock : (lastOf blockOf t.entries).getD 0 = block.number := by
    simp [hShape.lastOf_blockOf]
  have hBlockCopy : ∀ n, t.highestBlockWritten = some n → n = block.number :=
    fun n hEq => (Option.some.inj (hWrote.block.symm.trans hEq)).symm
  have hBatchCopy : ∀ n, t.highestBatchWritten = some n → n = batchNumber :=
    fun n hEq => (Option.some.inj (hWrote.batch.symm.trans hEq)).symm
  rcases hFollows.batch with ⟨rfl, hLast, ⟨o, hOpen, hPositive⟩, hClosed⟩ |
    ⟨hLt, hLast, hOpen, hClosed⟩
  · -- the block goes on with the last batch
    rw [if_pos rfl, List.append_nil] at hShape
    have hStarted : (lastOf startedOf t.entries).getD 0 = previousBatch := by
      rw [hShape.lastOf_startedOf, ← lastOf_eq_getLast?]
      exact hLast
    refine of_heads hShape.txs (hPiece o o hOpen ?_) hPositive (hShape.starts ▸ hFollows.sorted)
      hBlock hStarted ⟨hBlockCopy, hBatchCopy, ?_⟩ hReach fun hLt => (hSync hLt).symm
    · rw [startsBefore, if_pos rfl]
      exact piece_quiet (by simp) o
    · intro c hEq
      rw [hClosed c (hWrote.closed.symm.trans hEq), hOpen, Option.some.injEq]
  · -- the first block of a later batch
    rw [if_neg (Nat.ne_of_lt hLt)] at hShape
    have hStarted : (lastOf startedOf t.entries).getD 0 = batchNumber := by
      rw [hShape.lastOf_startedOf, ← List.append_assoc, List.getLast?_concat]
      rfl
    refine of_heads hShape.txs (hPiece none (some batchNumber) hOpen ?_) ?_ ?_
      hBlock hStarted ⟨hBlockCopy, hBatchCopy, ?_⟩ hReach fun hLt => (hSync hLt).symm
    · rw [startsBefore, if_neg (Nat.ne_of_lt hLt)]
      exact piece_batchStartList db _ _ _ _ _ _
    · simp only [ne_eq, Option.some.injEq]
      omega
    · rcases sorted_workingBatches hLt hBound with ⟨hSorted, hBetween⟩
      have hBelow : ∀ number ∈ base.entries.filterMap startedOf, number ≤ previousBatch := by
        intro number hMem
        have hLe := le_getLast_of_sorted hFollows.sorted hMem
        rw [← lastOf_eq_getLast?] at hLe
        exact Nat.le_trans hLe hLast
      rw [hShape.starts, ← List.append_assoc]
      refine List.pairwise_append.mpr ⟨List.pairwise_append.mpr ⟨hFollows.sorted, hSorted, ?_⟩,
        by simp, ?_⟩
      · intro x hx y hy
        exact Nat.lt_of_le_of_lt (hBelow x hx) (hBetween y hy).1
      · intro x hx y hy
        rw [List.mem_singleton.mp hy]
        rcases List.mem_append.mp hx with hx | hx
        · exact Nat.lt_of_le_of_lt (hBelow x hx) hLt
        · exact (hBetween x hx).2
    · intro c hEq
      have hNe : c ≠ batchNumber := by
        rintro rfl
        exact hClosed (hWrote.closed.symm.trans hEq)
      simp [hNe]

end Wrote

-- What a block is written behind

/- Nothing is cut off: the stream ends with the last block. -/
theorem follows_of_ahead (hOrderly : Orderly batches s)
    (hLater : batches.getLast?.getD 0 ≤ batchNumber) (hAhead : s.Ahead batches.length)
    (hOpen : batches.getLast?.getD 0 < batchNumber → openBatch s.entries = some none) :
    Follows s (batches.getLast?.getD 0) batchNumber := by
  rcases hAhead with ⟨highest, hHighest, hLt⟩
  rw [hOrderly.getHighestBlockNumber hHighest] at hLt
  have hSync := hOrderly.sync hLt
  refine ⟨hOrderly.txs, hOrderly.marked, hOrderly.sorted, ?_⟩
  rcases Nat.eq_or_lt_of_le hLater with hSame | hLess
  · rw [hSame] at hSync
    refine Or.inl ⟨hSame, hSync, hOrderly.opened, ?_⟩
    intro c hCopy
    rw [← hSync]
    exact hOrderly.closed c hCopy
  · refine Or.inr ⟨hLess, Nat.le_of_eq hSync, hOpen hLess, ?_⟩
    intro hCopy
    have hLast := (hOrderly.closed _ hCopy).mpr (hOpen hLess)
    omega

/-
  A block that the stream has already is written again.  The bookmark is the one in the stream,
  the block continues the batch before it, and its batch is taken for closed only if its end is
  not cut off.
-/
structure RewriteFine
    (s : Server) (previousBatch batchNumber : Nat) (mark : BookMark) (entryNum : Nat) : Prop where
  mark : s.entries[entryNum]? = some (.bookmark mark)
  batch :
    if previousBatch = batchNumber then
      lastOf startedOf (s.entries.take entryNum) = some batchNumber
    else
      (lastOf startedOf (s.entries.take entryNum)).getD 0 ≤ previousBatch
  closed : s.getHighestClosedBatch.1 = batchNumber ↔
    lastOf endedOf (s.entries.take entryNum) = some batchNumber

theorem mem_of_lastOf {f : Entry → Option Nat} {entries : List Entry} {number : Nat}
    (hLast : lastOf f entries = some number) : number ∈ entries.filterMap f := by
  rw [lastOf_eq_getLast?] at hLast
  exact List.mem_of_getLast? hLast

theorem mem_filterMap_of_take {f : Entry → Option Nat} {entries : List Entry}
    {entryNum number : Nat} (hMem : number ∈ (entries.take entryNum).filterMap f) :
    number ∈ entries.filterMap f := by
  rw [← List.take_append_drop entryNum entries, List.filterMap_append]
  exact List.mem_append_left _ hMem

/- The batch of a block that is written again was started. -/
theorem RewriteFine.started (hOrderly : Orderly batches s)
    {previousBatch batchNumber blockNum entryNum : Nat}
    (hFine : RewriteFine s previousBatch batchNumber (unwindMark blockNum previousBatch batchNumber)
      entryNum) : batchNumber ≤ (lastOf startedOf s.entries).getD 0 := by
  refine hOrderly.le_last ?_
  have hBatch := hFine.batch
  have hMark := hFine.mark
  by_cases hSame : previousBatch = batchNumber
  · rw [if_pos hSame] at hBatch
    exact mem_filterMap_of_take (mem_of_lastOf hBatch)
  · rw [unwindMark, if_neg hSame] at hMark
    rcases hOrderly.opened with ⟨o, hOpen, -⟩
    exact (openBatch_take hOpen hOrderly.marked hMark).2

/- What is left of the stream before the block. -/
theorem follows_of_cut (hOrderly : Orderly batches s) {base : Server}
    {previousBatch batchNumber blockNum entryNum : Nat}
    (hFine : RewriteFine base previousBatch batchNumber
      (unwindMark blockNum previousBatch batchNumber)
      entryNum) (hEntries : s.entries = base.entries)
    (hCopy : s.highestClosedBatchWritten = some base.getHighestClosedBatch.1)
    (hLater : previousBatch ≤ batchNumber) (hPositive : 0 < batchNumber) :
    Follows { s with entries := s.entries.take entryNum } previousBatch batchNumber := by
  have hMark := hFine.mark
  have hBatch := hFine.batch
  have hClosed := hFine.closed
  rw [← hEntries] at hMark hBatch hClosed
  have hSplit := hOrderly.sorted
  rw [← List.take_append_drop entryNum s.entries, List.filterMap_append] at hSplit
  have hSorted := (List.pairwise_append.mp hSplit).1
  have hOnce : ((s.entries.take entryNum).filterMap startedOf).Nodup := hSorted.imp Nat.ne_of_lt
  rcases hOrderly.opened with ⟨o, hOpen, -⟩
  refine ⟨hOrderly.txs.take entryNum, hOrderly.marked.take hMark, hSorted, ?_⟩
  by_cases hSame : previousBatch = batchNumber
  · rw [if_pos hSame] at hBatch
    have hPart := hOpen
    rw [← List.take_append_drop entryNum s.entries] at hPart
    rcases openBatch_of_append hPart with ⟨before, hBefore⟩
    rcases heads_of_openBatch hBefore with ⟨hNone, hSome⟩
    have hEnds := (ends_of_openBatch hBefore hOnce).2
    refine Or.inl ⟨hSame, by rw [hBatch]; rfl, ⟨before, hBefore, ?_⟩, ?_⟩
    · rintro rfl
      have hZero := Option.some.inj (hBatch.symm.trans (hSome 0 rfl))
      omega
    · intro c hEq
      have hValue : c = base.getHighestClosedBatch.1 := Option.some.inj (hEq.symm.trans hCopy)
      rw [hValue, hClosed, hBefore]
      constructor
      · intro hEnded
        cases before with
        | none => rfl
        | some number =>
          have hNumber := Option.some.inj (hBatch.symm.trans (hSome number rfl))
          exact absurd (mem_of_lastOf hEnded) (hNumber ▸ hEnds number rfl)
      · intro hEq
        rw [hNone (Option.some.inj hEq), hBatch]
  · rw [if_neg hSame] at hBatch
    rw [unwindMark, if_neg hSame] at hMark
    have hLess : previousBatch < batchNumber := by omega
    have hBefore := (openBatch_take hOpen hOrderly.marked hMark).1
    refine Or.inr ⟨hLess, hBatch, hBefore, ?_⟩
    intro hEq
    have hValue := Option.some.inj (hEq.symm.trans hCopy)
    have hEnded := hClosed.mp hValue.symm
    have hMem := (ends_of_openBatch hBefore hOnce).1 _ (mem_of_lastOf hEnded)
    have hLe := le_getLast_of_sorted hSorted hMem
    rw [← lastOf_eq_getLast?] at hLe
    omega

/- The stream when the block itself is written. -/
structure Prepared (batches : List Nat) (s : Server) (batchNumber : Nat) (t : Server) : Prop where
  orderly : Orderly batches t
  bookmarks : t.bookmarks = s.bookmarks
  starts : t.entries.filterMap startedOf = s.entries.filterMap startedOf
  highest : t.getHighestBlockNumber = s.getHighestBlockNumber
  opened : (lastOf startedOf s.entries).getD 0 < batchNumber → openBatch t.entries = some none
  kept : (lastOf startedOf s.entries).getD 0 < batchNumber ∨
    (t.entries = s.entries ∧ t.highestClosedBatchWritten = some s.getHighestClosedBatch.1)

/- The closing of the last batch, with what is asked before. -/
theorem prepared (hOrderly : Orderly batches s) (db : Db) (stops : Stops) (batchNumber : Nat)
    (numbers : List Nat) {closing : Except Failure Unit × Server}
    (hClosing : s.getHighestClosedBatch.2.getHighestBatchNumber.2.closeBefore
      db stops s.getHighestClosedBatch.1 s.getHighestClosedBatch.2.getHighestBatchNumber.1
      batchNumber numbers = closing) :
    Orderly batches closing.2 ∧
    (closing.1 = .ok () → Prepared batches s batchNumber closing.2) := by
  rcases hOrderly.getHighestClosedBatch with ⟨hFirst, hClosed⟩
  rcases hFirst.getHighestBatchNumber with ⟨hSecond, hStarted⟩
  rcases got_getHighestClosedBatch s with ⟨hEntries, hMarks, hBlock, hCopy⟩
  rcases got_getHighestBatchNumber s.getHighestClosedBatch.2
    with ⟨hEntries', hMarks', hBlock', hCopy'⟩
  have hAll := hEntries'.trans hEntries
  have hHighest : s.getHighestClosedBatch.2.getHighestBatchNumber.2.getHighestBlockNumber =
        s.getHighestBlockNumber :=
    getHighestBlockNumber_congr (hBlock'.trans hBlock) (by rw [hAll]) (by rw [hAll])
  rw [hEntries] at hStarted
  rcases hSecond.closeBefore (hAll.symm ▸ hClosed)
    (hAll.symm ▸ hStarted) db stops batchNumber numbers with ⟨hLater, hDone⟩ | ⟨hNothing, hOpen⟩
  · rw [hClosing] at hDone
    rw [hStarted] at hLater
    exact ⟨hDone.orderly, fun hOk =>
      ⟨hDone.orderly,
        hDone.bookmarks.trans (hMarks'.trans hMarks), hDone.starts.trans (by rw [hAll]),
        hDone.highest.trans hHighest, fun _ => hDone.ended hOk, Or.inl hLater⟩⟩
  · rw [hClosing] at hNothing
    rw [hStarted] at hOpen
    subst hNothing
    exact ⟨hSecond, fun _ =>
      ⟨hSecond, hMarks'.trans hMarks, by rw [hAll], hHighest,
        hOpen, Or.inr ⟨hAll, hCopy'.trans hCopy⟩⟩⟩

/- The block can be written again from its bookmark on. -/
def RewritesFine (batches : List Nat) (s : Server) (batchNumber : Nat) : Prop :=
  ∀ entryNum, s.bookmarks (unwindMark batches.length (batches.getLast?.getD 0) batchNumber) =
      some entryNum →
    RewriteFine s (batches.getLast?.getD 0) batchNumber
      (unwindMark batches.length (batches.getLast?.getD 0) batchNumber) entryNum

/- The block follows on what the unwinding leaves. -/
theorem Prepared.follows {t : Server} (hPrepared : Prepared batches s batchNumber t)
    (hOrderly : Orderly batches s) (hLater : batches.getLast?.getD 0 ≤ batchNumber)
    (hPositive : 0 < batchNumber)
    (hFine : s.Ahead batches.length ∨ RewritesFine batches s batchNumber) {db : Db}
    (hUnwound : (t.unwindIfNecessary db batches.length
      (batches.getLast?.getD 0) batchNumber).1 = .ok ()) :
    Follows (t.unwindIfNecessary db batches.length
      (batches.getLast?.getD 0) batchNumber).2 (batches.getLast?.getD 0) batchNumber := by
  have hStarted : lastOf startedOf t.entries = lastOf startedOf s.entries := by
    rw [lastOf_eq_getLast?, lastOf_eq_getLast?, hPrepared.starts]
  rcases t.unwindIfNecessary_cases db batches.length (batches.getLast?.getD 0) batchNumber with
    ⟨hAhead, hSame⟩ | ⟨hFails, -⟩ | ⟨entryNum, hReached, hMark, -, hCut⟩
  · rw [hSame]
    refine hPrepared.orderly.follows_of_ahead hLater hAhead fun hLess => hPrepared.opened ?_
    rcases hAhead with ⟨highest, hHighest, hLt⟩
    rw [hPrepared.orderly.getHighestBlockNumber hHighest] at hLt
    rw [← hStarted, hPrepared.orderly.sync hLt]
    exact hLess
  · exact absurd hUnwound hFails
  · rw [hCut]
    rw [hPrepared.bookmarks] at hMark
    rcases hFine with hAhead | hFine
    · rcases hAhead with ⟨highest, hHighest, hLt⟩
      exact absurd ⟨highest, hPrepared.highest.trans hHighest, hLt⟩ hReached
    · have hFine := hFine entryNum hMark
      rcases hPrepared.kept with hLess | ⟨hEntries, hCopy⟩
      · have hLe := RewriteFine.started hOrderly hFine
        omega
      · exact hPrepared.orderly.follows_of_cut hFine hEntries hCopy hLater hPositive

end Orderly

-- One step

namespace SequencerStep

open Orderly

variable {chainId : Nat} {state : SequencerState} {db : Db} {stops : Stops}
  {forkId batchNumber first : Nat}

def lastBatch (state : SequencerState) : Nat := state.batches.getLast?.getD 0

/- The stream does not have the block yet, or the call writes it again. -/
def WriteFine (chainId : Nat) (state : SequencerState) (db : Db) (stops : Stops)
    (forkId batchNumber first : Nat) : Prop :=
  state.stream.Ahead state.batches.length ∨
  ((writeCall chainId state db stops forkId batchNumber first).1 = .ok () ∧
    ∀ entryNum, state.stream.bookmarks
        (unwindMark state.batches.length (lastBatch state) batchNumber) = some entryNum →
      RewriteFine state.stream (lastBatch state) batchNumber
        (unwindMark state.batches.length (lastBatch state) batchNumber) entryNum)

theorem ValidWrite.lastBatch_le (hValid : ValidWrite state db batchNumber first) :
    lastBatch state ≤ batchNumber := by
  unfold lastBatch
  cases hLast : state.batches.getLast? with
  | none => exact Nat.zero_le _
  | some last => exact hValid.later last (by simp [hLast])

theorem ValidWrite.previousBatch (hValid : ValidWrite state db batchNumber first)
    {previousBlock : Block}
    (hRead : db.readBlockByNumber (sub64 state.batches.length 1) = some previousBlock) :
    previousBlockBatchNumber db batchNumber (blockNumbers first state.batches.length)
      previousBlock = some (lastBatch state) := by
  have hPositive := hValid.positive
  have hHere := hValid.here
  have hBound := hValid.blockBound
  have hSub : sub64 state.batches.length 1 = state.batches.length - 1 := by
    unfold sub64
    omega
  have hLast : state.batches.getLast? = state.batches[state.batches.length - 1]? :=
    List.getLast?_eq_getElem?
  have hNumber := db.number_eq _ _ hRead
  unfold previousBlockBatchNumber lastBatch
  split
  · rw [hNumber, hValid.stored, hSub, List.getElem?_append_left (by omega), ← hLast]
    cases hSome : state.batches.getLast? with
    | none =>
      have hNil := List.getLast?_eq_none_iff.mp hSome
      rw [hNil] at hHere
      exact absurd hHere (by simp; omega)
    | some last => rfl
  · rename_i hLength
    have hMany : first ≤ state.batches.length - 1 := by
      simp only [blockNumbers, List.length_range'] at hLength
      omega
    rw [hLast, hValid.request _ hMany (by omega)]
    rfl

/- What a call leaves that writes a block. -/
def Leaves (batches : List Nat) (batchNumber : Nat) (written : Except Failure Unit × Server) :
    Prop :=
  (written.1 = .ok () → Orderly (batches ++ [batchNumber]) written.2) ∧
    (written.1 ≠ .ok () → Orderly batches written.2)

section

variable (hOrderly : Orderly state.batches state.stream)

include hOrderly

/- The block of the call, when the last batch is closed. -/
theorem writeLastBlock_orderly (hValid : ValidWrite state db batchNumber first) {t : Server}
    (hPrepared : Prepared state.batches state.stream batchNumber t)
    (hFine : state.stream.Ahead state.batches.length ∨
      ((t.writeLastBlock chainId db stops forkId batchNumber
      (blockNumbers first state.batches.length) state.batches.length).1 = .ok () ∧
      RewritesFine state.batches state.stream batchNumber))
    {written : Except Failure Unit × Server} (hWritten : t.writeLastBlock chainId db stops forkId
      batchNumber (blockNumbers first state.batches.length) state.batches.length = written) :
    Leaves state.batches batchNumber written := by
  have hStay : ∀ e : Failure, written = (.error e, t) →
      Leaves state.batches batchNumber written := by
    rintro e rfl
    exact ⟨by simp, fun _ => hPrepared.orderly⟩
  unfold writeLastBlock at hWritten hFine
  cases hRead : stops.read with
  | some e =>
    rw [hRead] at hWritten
    exact hStay e hWritten.symm
  | none =>
  rw [hRead] at hWritten hFine
  cases hPrevious : db.readBlockByNumber (sub64 state.batches.length 1) with
  | none =>
    rw [hPrevious] at hWritten
    exact hStay .panic hWritten.symm
  | some previousBlock =>
  simp only [hPrevious, hValid.previousBatch hPrevious] at hWritten hFine
  cases hBlock : db.readBlockByNumber state.batches.length with
  | none =>
    rw [hBlock] at hWritten
    exact hStay .panic hWritten.symm
  | some block =>
  simp only [hBlock] at hWritten hFine
  have hNumber := db.number_eq _ _ hBlock
  subst hWritten
  rcases t.writeBlockWithBatchStartToStream_cases chainId db
    stops.written forkId batchNumber (lastBatch state)
    previousBlock block rfl rfl with ⟨hOk, hUnwound, hWrote⟩ | ⟨hFails, hSame⟩
  · -- the block is in the stream
    rw [hNumber] at hUnwound
    have hFollows := hPrepared.follows hOrderly
      hValid.lastBatch_le hValid.genesis (hFine.imp_right And.right) hUnwound
    rw [← hNumber] at hFollows
    rw [andThen_ok hOk]
    constructor
    · exact fun _ => hFollows.wrote hWrote (by simp [hNumber]) (by simp) hValid.batchBound
    · exact fun _ => hFollows.wrote hWrote (by omega) (by omega) hValid.batchBound
  · -- the block is not there, and nothing is cut off
    rcases andThen_failed hFails _ with ⟨hError, hServer⟩
    refine ⟨fun hOk => absurd hOk hError, fun _ => ?_⟩
    rw [hServer]
    rcases hFine with ⟨highest, hHighest, hLt⟩ | ⟨hOk, -⟩
    · have hAhead : t.Ahead state.batches.length := ⟨highest, hPrepared.highest.trans hHighest, hLt⟩
      rw [hNumber, unwindIfNecessary_of_ahead hAhead] at hSame
      exact hPrepared.orderly.of_same hSame
    · exact absurd hOk hError

theorem write_orderly (hValid : ValidWrite state db batchNumber first)
    (hFine : WriteFine chainId state db stops forkId batchNumber first) :
    Orderly ((write db stops forkId batchNumber first).run chainId state).batches
      ((write db stops forkId batchNumber first).run chainId state).stream := by
  have hWritten : Leaves state.batches batchNumber
      (writeCall chainId state db stops forkId batchNumber first) := by
    unfold WriteFine at hFine
    unfold writeCall writeBlockDetailsToDatastream at hFine ⊢
    dsimp only at hFine ⊢
    rcases hOrderly.prepared db stops batchNumber (blockNumbers first state.batches.length) rfl with
      ⟨hClosed, hPrepared⟩
    by_cases hOk :
        (state.stream.getHighestClosedBatch.2.getHighestBatchNumber.2.closeBefore
          db stops state.stream.getHighestClosedBatch.1
          state.stream.getHighestClosedBatch.2.getHighestBatchNumber.1
          batchNumber (blockNumbers first state.batches.length)).1 = .ok ()
    · rw [andThen_ok hOk, getLast?_blockNumbers hValid.here] at hFine ⊢
      exact writeLastBlock_orderly hOrderly hValid (hPrepared hOk) hFine rfl
    · rcases andThen_failed hOk _ with ⟨hError, hServer⟩
      refine ⟨fun hDone => absurd hDone hError, fun _ => ?_⟩
      rw [hServer]
      exact hClosed
  unfold run
  cases hResult : (writeCall chainId state db stops forkId batchNumber first).1 with
  | ok _ =>
    simp only [hResult]
    exact hWritten.1 hResult
  | error e =>
    simp only [hResult]
    exact hWritten.2 (by simp [hResult])

/- What the other steps ask for. -/
def Fine (chainId : Nat) (state : SequencerState) : SequencerStep → Prop
  | write db stops forkId batchNumber first =>
      WriteFine chainId state db stops forkId batchNumber first
  | halt _ _ batchToClose _ =>
      state.stream.isLastEntryBatchEnd = true ∨
      (lastOf startedOf state.stream.entries =
          some batchToClose ∧
        lastOf endedOf state.stream.entries ≠ some batchToClose)
  | _ => True

theorem align_orderly (lastExecutedBlock : Nat) : Orderly state.batches
      (state.stream.alignExecutionToDatastream db stops lastExecutedBlock).2 := by
  rcases hOrderly.getHighestBatchNumber with ⟨hFirst, hStarted⟩
  rcases hFirst.getHighestClosedBatch with ⟨hSecond, hClosed⟩
  have hEntries := (got_getHighestBatchNumber state.stream).1
  have hEntries' := (got_getHighestClosedBatch state.stream.getHighestBatchNumber.2).1
  unfold alignExecutionToDatastream
  dsimp only
  cases state.stream.getHighestBatchNumber.2.getHighestClosedBatch.2.getHighestBlockNumber with
  | error e => exact hSecond
  | ok lastDatastreamBlock =>
    dsimp only
    split
    · rename_i hNe
      unfold finalizeLastBatchInDatastreamIfNotFinalized
      split
      · exact hSecond
      · have hOpen : openBatch
            state.stream.getHighestBatchNumber.2.getHighestClosedBatch.2.entries ≠ some none := by
          rw [hEntries']
          intro hNone
          refine hNe (hStarted.trans ?_)
          rw [hClosed.mpr hNone, hEntries]
        have hOpen := hSecond.openBatch_eq hOpen
        rw [hEntries', hEntries, ← hStarted, ← hEntries, ← hEntries'] at hOpen
        exact (hSecond.finalize hOpen db stops _).orderly
    · exact hSecond

theorem halt_orderly {batchToClose : Nat}
    (hFine : state.stream.isLastEntryBatchEnd = true ∨ (lastOf startedOf state.stream.entries =
      some batchToClose ∧ lastOf endedOf state.stream.entries ≠
      some batchToClose)) (latestBlock : Nat) :
    Orderly state.batches
      (state.stream.finalizeLastBatchInDatastreamIfNotFinalized
        db stops batchToClose latestBlock).2 := by
  unfold finalizeLastBatchInDatastreamIfNotFinalized
  split
  · exact hOrderly
  · rename_i hLast
    rcases hFine with hEnd | ⟨hStarted, hEnded⟩
    · exact absurd hEnd hLast
    · have hOpen : openBatch state.stream.entries ≠ some none := by
        intro hNone
        have hEq := (heads_of_openBatch hNone).1 rfl
        exact hEnded (hEq.trans hStarted)
      have hOpen := hOrderly.openBatch_eq hOpen
      rw [hStarted] at hOpen
      exact (hOrderly.finalize hOpen db stops _).orderly

/- The stream reaches further than what is left. -/
theorem unwind_orderly (blockNumber : Nat) :
    Orderly (state.batches.take (blockNumber + 1)) state.stream := by
  have hReach := hOrderly.reach
  refine { hOrderly with reach := ?_, sync := ?_ }
  · rw [List.length_take]
    omega
  · intro hLt
    rw [List.length_take] at hLt
    rw [List.take_of_length_le (by omega)]
    exact hOrderly.sync (by omega)

theorem run_orderly {step : SequencerStep}
    (hValid : step.Valid state) (hFine : step.Fine chainId state) :
    Orderly (step.run chainId state).batches (step.run chainId state).stream := by
  cases step with
  | write db stops forkId batchNumber first => exact write_orderly hOrderly hValid hFine
  | align db stops lastExecutedBlock => exact align_orderly hOrderly lastExecutedBlock
  | halt db stops batchToClose latestBlock => exact halt_orderly hOrderly hFine latestBlock
  | unwind blockNumber => exact unwind_orderly hOrderly blockNumber
  | getHighestBatchNumber => exact hOrderly.getHighestBatchNumber.1
  | getHighestClosedBatch => exact hOrderly.getHighestClosedBatch.1
  | restart => exact hOrderly.restart

end

end SequencerStep

-- All steps

/-
  The states of the sequencer, from a stream with the genesis block, if all steps meet a
  condition.
-/
inductive SequencerRun (chainId : Nat) (condition : SequencerState → SequencerStep → Prop) :
    SequencerState → Prop where
  | initial (db : Db) (genesis : Block) (hBatch : db.getBatchNoByL2Block 0 = 0)
      (hNumber : genesis.number = 0) :
      SequencerRun chainId condition (SequencerState.initial chainId db genesis)
  | step {state : SequencerState} (step : SequencerStep)
      (hRun : SequencerRun chainId condition state) (hValid : step.Valid state)
      (hStep : condition state step) :
      SequencerRun chainId condition (step.run chainId state)

variable {state : SequencerState}

theorem orderly_initial (chainId : Nat) {db : Db} {genesis : Block}
    (hBatch : db.getBatchNoByL2Block 0 = 0) (hNumber : genesis.number = 0) :
    Orderly (SequencerState.initial chainId db genesis).batches
      (SequencerState.initial chainId db genesis).stream := by
  rcases Server.empty.commitEntries_ok (genesisList chainId db genesis) none none none with
    ⟨-, hWrote⟩
  have hShape := shape_genesisList chainId db hNumber
  have hPiece := piece_genesisList chainId hBatch hNumber
  have hEntries : (SequencerState.initial chainId db genesis).stream.entries =
      genesisList chainId db genesis := hWrote.entries
  rw [hBatch] at hShape
  rw [← hEntries] at hShape hPiece
  refine Orderly.of_heads hShape.txs hPiece (by simp) ?_ (congrArg (·.getD 0) hShape.lastOf_blockOf)
    (congrArg (·.getD 0) hShape.lastOf_startedOf) ⟨?_, ?_, ?_⟩ (Nat.le_refl 1) fun _ => rfl
  · rw [hShape.starts]
    exact List.pairwise_singleton _ _
  · intro n hEq
    cases hWrote.block.symm.trans hEq
  · intro n hEq
    cases hWrote.batch.symm.trans hEq
  · intro c hEq
    cases hWrote.closed.symm.trans hEq

theorem SequencerRun.orderly {chainId : Nat}
    (hRun : SequencerRun chainId (fun state step => step.Fine chainId state) state) :
    Orderly state.batches state.stream := by
  induction hRun with
  | initial db genesis hBatch hNumber => exact orderly_initial chainId hBatch hNumber
  | step step _ hValid hFine ih => exact SequencerStep.run_orderly ih hValid hFine

-- A batch that is written again

/- Blocks without transactions, with their batches. -/
def chainDb (batches : List Nat) : Db := { plainDb with blockBatches := fun n => batches[n]? }

def newChain : SequencerState := SequencerState.initial 0 plainDb (sampleBlock 0)

/- The next block, alone in its request. -/
def plainWrite (state : SequencerState) (batchNumber : Nat) : SequencerStep :=
  .write (chainDb (state.batches ++ [batchNumber])) Stops.nowhere 1 batchNumber state.batches.length

/- Blocks 1, 2 and 3 of the batches 1, 2 and 3. -/
def threeBatches : SequencerState :=
  let one := (plainWrite newChain 1).run 0 newChain
  let two := (plainWrite one 2).run 0 one
  (plainWrite two 3).run 0 two

theorem validWrite_plain {batchNumber : Nat}
    (hLater : ∀ last ∈ state.batches.getLast?, last ≤ batchNumber) (hPositive : 0 < batchNumber)
    (hSome : 0 < state.batches.length) (hBatch : batchNumber < 2 ^ 64)
    (hBlock : state.batches.length < 2 ^ 64) : (plainWrite state batchNumber).Valid state := by
  refine ⟨fun n => rfl, hLater, hPositive, hSome, Nat.le_refl _, ?_, hBatch, hBlock⟩
  intro n hFirst hLt
  omega

/- The chain goes back to block 1 and is built again. -/
def builtAgain : SequencerState :=
  let back := (SequencerStep.unwind 1).run 0 threeBatches
  let two := (plainWrite back 2).run 0 back
  (plainWrite two 3).run 0 two

theorem run_plainWrite (hRun : SequencerRun 0 (fun _ _ => True) state) (batchNumber : Nat)
    (hLater : ∀ last ∈ state.batches.getLast?, last ≤ batchNumber)
    (hBounds : (0 < batchNumber ∧ batchNumber < 2 ^ 64) ∧ 0 < state.batches.length ∧
      state.batches.length < 2 ^ 64) :
    SequencerRun 0 (fun _ _ => True) ((plainWrite state batchNumber).run 0 state) :=
  .step _ hRun (validWrite_plain hLater hBounds.1.1 hBounds.2.1 hBounds.1.2 hBounds.2.2) trivial

theorem run_builtAgain : SequencerRun 0 (fun _ _ => True) builtAgain := by
  have hNew : SequencerRun 0 (fun _ _ => True) newChain := .initial plainDb (sampleBlock 0) rfl rfl
  have hOne := run_plainWrite hNew 1 (by decide) (by decide)
  have hTwo := run_plainWrite hOne 2 (by decide) (by decide)
  have hThree : SequencerRun 0 (fun _ _ => True) threeBatches :=
    run_plainWrite hTwo 3 (by decide) (by decide)
  have hBack : SequencerRun 0 (fun _ _ => True) ((SequencerStep.unwind 1).run 0 threeBatches) :=
    .step (.unwind 1) hThree trivial trivial
  have hAgain := run_plainWrite hBack 2 (by decide) (by decide)
  exact run_plainWrite hAgain 3 (by decide) (by decide)

end XLayerErigon.DataStream
