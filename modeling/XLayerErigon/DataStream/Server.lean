import XLayerErigon.DataStream.Build

/-
  The server that writes the data stream.

  The server keeps copies of the highest block, the highest batch and the highest closed batch.
  Each writer sets them from its own variables when it commits; a stream that is cut off leaves
  them as they are.

  The entries themselves are kept by a library, with a table of the places of the bookmarks.  The
  table keeps the places of bookmarks that are cut off.

  Main results:
    * `lastOf_append`
    * `commitEntries_ok`
-/

namespace XLayerErigon.DataStream

-- The last entry of a kind

/- What the last entry says that says something. -/
def lastOf (f : Entry → Option Nat) (entries : List Entry) : Option Nat :=
  entries.reverse.findSome? f

theorem lastOf_append (f : Entry → Option Nat) (xs ys : List Entry) :
    lastOf f (xs ++ ys) = (lastOf f ys).or (lastOf f xs) := by
  rw [lastOf, List.reverse_append, List.findSome?_append]
  rfl

@[simp] theorem lastOf_nil (f : Entry → Option Nat) : lastOf f [] = none := rfl

@[simp] theorem lastOf_singleton (f : Entry → Option Nat) (e : Entry) : lastOf f [e] = f e := by
  cases h : f e <;> simp [lastOf, h]

theorem lastOf_eq_none {f : Entry → Option Nat} {entries : List Entry}
    (hNone : ∀ e ∈ entries, f e = none) : lastOf f entries = none := by
  rw [lastOf, List.findSome?_eq_none_iff]
  intro e he
  exact hNone e (List.mem_reverse.mp he)

def blockOf : Entry → Option Nat
  | .l2Block block => some block.number
  | _ => none

/- A transaction names its block as well. -/
def blockOrTxOf : Entry → Option Nat
  | .l2Block block => some block.number
  | .l2Tx tx => some tx.l2BlockNumber
  | _ => none

def startedOf : Entry → Option Nat
  | .batchStart start => some start.number
  | _ => none

def endedOf : Entry → Option Nat
  | .batchEnd last => some last.number
  | _ => none

structure Server where
  entries : List Entry
  -- the table of the library
  bookmarks : BookMark → Option Nat
  highestBlockWritten : Option Nat
  highestClosedBatchWritten : Option Nat
  highestBatchWritten : Option Nat

namespace Server

/- The stream of a new file. -/
def empty : Server := ⟨[], fun _ => none, none, none, none⟩

/- The process starts again: the copies are gone. -/
def restart (s : Server) : Server := { s with
    highestBlockWritten := none
    highestClosedBatchWritten := none
    highestBatchWritten := none }

/- The entry behind the last is asked for. -/
def errInvalidEntryNumber : Failure := .error "invalid entry number"

def getHighestBlockNumber (s : Server) : Except Failure Nat :=
  match s.highestBlockWritten with
  | some number => .ok number
  | none =>
    if s.entries = [] then .ok 0
    else
      (lastOf blockOrTxOf s.entries).elim (.error errInvalidEntryNumber) .ok

def getHighestBatchNumber (s : Server) : Nat × Server :=
  match s.highestBatchWritten with
  | some number => (number, s)
  | none =>
    match lastOf startedOf s.entries with
    | none => (0, s)
    | some number =>
      (number, { s with highestBatchWritten := some number })

def getHighestClosedBatchNoCache (s : Server) : Nat := (lastOf endedOf s.entries).getD 0

def getHighestClosedBatch (s : Server) : Nat × Server :=
  match s.highestClosedBatchWritten with
  | some number => (number, s)
  | none =>
    (s.getHighestClosedBatchNoCache,
      { s with highestClosedBatchWritten := some s.getHighestClosedBatchNoCache })

def isLastEntryBatchEnd (s : Server) : Bool :=
  match s.entries.getLast? with
  | some (.batchEnd _) => true
  | _ => false

/- The entries of an operation that is not committed yet. -/
structure Op where
  server : Server
  pending : List Entry

def Op.add (op : Op) (e : Entry) : Op where
  server :=
    match e with
    | .bookmark mark =>
      { op.server with
        bookmarks := Function.update op.server.bookmarks
          mark (some (op.server.entries.length + op.pending.length)) }
    | _ => op.server
  pending := op.pending ++ [e]

/- A missing entry is asked for its type. -/
def Op.commitEntriesToStreamProto :
    Op → List (Option Entry) → Except Failure Unit × Op
  | op, [] => (.ok (), op)
  | op, none :: _ => (.error .panic, op)
  | op, some e :: rest =>
      (op.add e).commitEntriesToStreamProto rest

/- The entries are in the stream from here on. -/
def Op.commit (op : Op) : Server := { op.server with entries := op.server.entries ++ op.pending }

/- Copies that are given are taken over. -/
def setCopies (s : Server)
    (latestBlockNum latestBatchNum latestClosedBatch : Option Nat) : Server :=
  { s with
    highestBlockWritten := latestBlockNum.or s.highestBlockWritten
    highestBatchWritten := latestBatchNum.or s.highestBatchWritten
    highestClosedBatchWritten := latestClosedBatch.or s.highestClosedBatchWritten }

/- One operation: all entries, or none of them. -/
def commitEntries (s : Server) (entries : List (Option Entry))
    (latestBlockNum latestBatchNum latestClosedBatch : Option Nat) : Except Failure Unit × Server :=
  let added := Op.commitEntriesToStreamProto ⟨s, []⟩ entries
  match added.1 with
  | .error e => (.error e, added.2.server)
  | .ok _ =>
    (.ok (), added.2.commit.setCopies latestBlockNum latestBatchNum latestClosedBatch)

def truncateFile (s : Server) (entryNum : Nat) : Except Failure Unit × Server :=
  if entryNum < s.entries.length then
    (.ok (), { s with entries := s.entries.take entryNum })
  else (.error errInvalidEntryNumber, s)

def unwindTo (s : Server) (mark : BookMark) : Except Failure Unit × Server :=
  match s.bookmarks mark with
  | none => (.error (.error "bookmark not found"), s)
  | some entryNum => s.truncateFile entryNum

def unwindToBlock (s : Server) (blockNumber : Nat) : Except Failure Unit × Server :=
  s.unwindTo ⟨.l2Block, blockNumber⟩

def unwindToBatchStart (s : Server) (batchNumber : Nat) : Except Failure Unit × Server :=
  s.unwindTo ⟨.batch, batchNumber⟩

def unwindIfNecessary (s : Server) (db : Db) (blockNum prevBlockBatchNum batchNum : Nat) :
    Except Failure Unit × Server :=
  match s.getHighestBlockNumber with
  | .error e => (.error e, s)
  | .ok highestDatastreamBlock =>
    if highestDatastreamBlock < blockNum then (.ok (), s)
    else if prevBlockBatchNum = batchNum then
      s.unwindToBlock blockNum
    else if db.getHighestBlockInBatch prevBlockBatchNum ≠ sub64 blockNum 1 then
      (.error (.error
        "datastream must unwind to prev batch, but it would corrupt the datastream: prevBlockBatchNum: %d, batchNum: %d, blockNum: %d"),
        s)
    else s.unwindToBatchStart batchNum

-- The writers

/- Another call follows if the first returns. -/
def andThen (first : Except Failure Unit × Server) (next : Server → Except Failure Unit × Server) :
    Except Failure Unit × Server :=
  match first.1 with
  | .error e => (.error e, first.2)
  | .ok _ => next first.2

/-
  A block on its own.  `stop` is a failure to read or to write what is needed behind the
  unwinding.
-/
def writeBlockWithBatchStartToStream (s : Server) (chainId : Nat) (db : Db) (stop : Option Failure)
    (forkId batchNum prevBlockBatchNum : Nat) (prevBlock block : Block) :
    Except Failure Unit × Server :=
  andThen (s.unwindIfNecessary db block.number prevBlockBatchNum batchNum) fun s =>
    match stop with
    | some e => (.error e, s)
    | none =>
      let batchStartEntries :=
        if prevBlockBatchNum = batchNum then
          .ok (DataStreamEntries.new 0)
        else
          createBatchStartEntriesProto db batchNum prevBlockBatchNum
            (sub64 batchNum prevBlockBatchNum) chainId block.root
            (db.getBatchGlobalExitRootsProto prevBlockBatchNum batchNum)
      let blockEntries :=
        createFullBlockStreamEntriesProto db block prevBlock block.transactions forkId batchNum
          (fun _ => 0)
      match batchStartEntries, blockEntries with
      | .error e, _ => (.error e, s)
      | .ok _, .error e => (.error e, s)
      | .ok start, .ok rest =>
        s.commitEntries (start.entries ++ rest.entries) (some block.number) (some batchNum) none

def writeBatchEnd (s : Server) (db : Db) (stop : Option Failure) (batchNumber : Nat)
    (stateRoot localExitRoot : Hash) : Except Failure Unit × Server :=
  let closed := s.getHighestClosedBatch
  match stop with
  | some e => (.error e, closed.2)
  | none =>
    let gers := db.getBatchGlobalExitRootsProto closed.1 batchNumber
    closed.2.commitEntries
      ((addBatchEndEntriesProto batchNumber stateRoot gers localExitRoot).map some)
      none none (some batchNumber)

/- The smallest and the largest number, where 0 is none. -/
def blockRange (blocksForBatch : List Nat) : Nat × Nat :=
  blocksForBatch.foldl (fun range blockNum =>
    (if range.1 = 0 ∨ blockNum < range.1 then blockNum
      else range.1,
     if blockNum > range.2 then blockNum else range.2))
    (0, 0)

/- The numbers of the blocks, from the first to the last. -/
def blockNumbers (fromBlock toBlock : Nat) : List Nat :=
  List.range' fromBlock (toBlock + 1 - fromBlock)

def wholeBatchEntries (chainId : Nat) (db : Db) (batchNum fromBlockNum toBlockNum : Nat) :
    Except Failure (List (Option Entry)) :=
  let numbers := blockNumbers fromBlockNum toBlockNum
  numbers.mapM (fun n => deref (db.readBlockByNumber n)) >>= fun blocks =>
    buildWholeBatchStreamEntriesProto db chainId batchNum batchNum blocks (fun n =>
      if n ∈ numbers then
        (db.readBlockByNumber n).map Block.transactions
      else none) (fun _ => 0)

def writeWholeBatchToStream (s : Server) (chainId : Nat) (db : Db) (stop : Option Failure)
    (prevBatchNum batchNum : Nat) : Except Failure Unit × Server :=
  let range := blockRange (db.getL2BlockNosByBatch batchNum)
  andThen (s.unwindIfNecessary db range.1 prevBatchNum batchNum) fun s =>
    match stop, wholeBatchEntries chainId db batchNum range.1 range.2 with
    | some e, _ => (.error e, s)
    | none, .error e => (.error e, s)
    | none, .ok entries =>
      s.commitEntries entries (some range.2) (some batchNum) (some batchNum)

-- Many blocks

/- What stops the loop over the blocks. -/
inductive Interrupt where
  | cancelled
  | failed (e : Failure)

def commitEntryCountLimit : Nat := 80000

/- What the loop knows of the blocks so far. -/
structure Vars where
  latestBatchNum : Nat
  lastBlock : Option Block
  forkId : Nat
  isLastEntryBatchEnd : Bool

/- The fork id is read again where the batch changes. -/
def Vars.forkIdAt (v : Vars) (db : Db) (blockNumber : Nat) : Nat :=
  if db.getBatchNoByL2Block blockNumber ≠ v.latestBatchNum
  then db.getForkId (db.getBatchNoByL2Block blockNumber)
  else v.forkId

def Vars.blockEntries (v : Vars) (chainId : Nat) (db : Db) (blockNumber : Nat) :
    Except Failure (List (Option Entry)) :=
  deref (db.readBlockByNumber blockNumber) >>= fun block =>
  deref v.lastBlock >>= fun lastBlock =>
  createBlockWithBatchCheckStreamEntriesProto db block
    lastBlock (db.getBatchNoByL2Block blockNumber)
    v.latestBatchNum chainId (v.forkIdAt db blockNumber) v.isLastEntryBatchEnd
    (blockNumber = db.batchesProgress)

/- The variables behind a block. -/
def Vars.next (v : Vars) (db : Db) (blockNumber : Nat) : Vars where
  latestBatchNum := db.getBatchNoByL2Block blockNumber
  lastBlock := db.readBlockByNumber blockNumber
  forkId := v.forkIdAt db blockNumber
  isLastEntryBatchEnd := false

structure Loop where
  server : Server
  entries : List (Option Entry)
  vars : Vars

/- Entries are committed when there are enough of them. -/
def Loop.append (l : Loop) (blockEntries : List (Option Entry))
    (vars : Vars) : Except Failure Unit × Loop :=
  let entries := l.entries ++ blockEntries
  if entries.length ≥ commitEntryCountLimit then
    let committed := l.server.commitEntries entries none none none
    (committed.1, ⟨committed.2, [], vars⟩)
  else (.ok (), ⟨l.server, entries, vars⟩)

/- The loop; a loop that is cancelled returns as well. -/
def writeLoop (chainId : Nat) (db : Db) (interrupt : Nat → Option Interrupt) :
    Loop → List Nat → Except Failure Unit × Loop
  | l, [] => (.ok (), l)
  | l, blockNumber :: rest =>
      match interrupt blockNumber with
      | some .cancelled => (.ok (), l)
      | some (.failed e) => (.error e, l)
      | none =>
          match l.vars.blockEntries chainId db blockNumber with
          | .error e => (.error e, l)
          | .ok entries =>
              let appended := l.append entries (l.vars.next db blockNumber)
              match appended.1 with
              | .error e => (.error e, appended.2)
              | .ok _ =>
                writeLoop chainId db interrupt appended.2 rest

/- What the loop over many blocks starts with. -/
def startVars (s : Server) (db : Db) (fromBlock : Nat) : Vars where
  latestBatchNum := db.getBatchNoByL2Block (sub64 fromBlock 1)
  lastBlock := db.readBlockByNumber (sub64 fromBlock 1)
  forkId := 0
  isLastEntryBatchEnd := s.isLastEntryBatchEnd

/-
  The end of the call.  `stop` is a failure before the loop or behind it; those of single blocks
  are among the interrupts.
-/
def Loop.finish (looped : Except Failure Unit × Loop) (stop : Option Failure)
    (toBlock batchNum : Nat) : Except Failure Unit × Server :=
  match looped.1, stop with
  | .error e, _ => (.error e, looped.2.server)
  | .ok _, some e => (.error e, looped.2.server)
  | .ok _, none =>
    looped.2.server.commitEntries looped.2.entries (some toBlock) (some batchNum)
      (some looped.2.vars.latestBatchNum)

def writeBlocksFrom (s : Server) (chainId : Nat) (db : Db) (stop : Option Failure)
    (interrupt : Nat → Option Interrupt) (fromBlock toBlock : Nat) : Except Failure Unit × Server :=
  Loop.finish
    (writeLoop chainId db interrupt
      ⟨s, [], s.startVars db fromBlock⟩ (blockNumbers fromBlock toBlock))
    stop toBlock (db.getBatchNoByL2Block fromBlock)

/- The stream before the first of many blocks. -/
def unwound (s : Server) (db : Db) (fromBlock : Nat) : Except Failure Unit × Server :=
  s.unwindIfNecessary db fromBlock (db.getBatchNoByL2Block (sub64 fromBlock 1))
    (db.getBatchNoByL2Block fromBlock)

def writeBlocksToStreamConsecutively (s : Server) (chainId : Nat) (db : Db) (stop : Option Failure)
    (interrupt : Nat → Option Interrupt) (fromBlock toBlock : Nat) : Except Failure Unit × Server :=
  andThen (s.unwound db fromBlock) fun s =>
    s.writeBlocksFrom chainId db stop interrupt fromBlock toBlock

-- What an operation changes

/- The same stream and the same copies. -/
structure Same (s t : Server) : Prop where
  entries : t.entries = s.entries
  block : t.highestBlockWritten = s.highestBlockWritten
  closed : t.highestClosedBatchWritten = s.highestClosedBatchWritten
  batch : t.highestBatchWritten = s.highestBatchWritten

variable (s : Server)

theorem Same.refl (s : Server) : Same s s := ⟨rfl, rfl, rfl, rfl⟩

theorem Same.trans {s t u : Server} (hFirst : Same s t) (hThen : Same t u) : Same s u :=
  ⟨hThen.entries.trans hFirst.entries,
    hThen.block.trans hFirst.block,
    hThen.closed.trans hFirst.closed, hThen.batch.trans hFirst.batch⟩

theorem Op.same_add (op : Op) (e : Entry) : Same op.server (op.add e).server := by
  cases e <;> exact ⟨rfl, rfl, rfl, rfl⟩

/- All entries are added, or one of them is missing and ends the call. -/
theorem Op.commitEntriesToStreamProto_cases (op : Op) (entries : List (Option Entry)) :
    (∃ es : List Entry, entries = es.map some ∧
      (op.commitEntriesToStreamProto entries).1 = .ok () ∧
      Same op.server (op.commitEntriesToStreamProto entries).2.server ∧
      (op.commitEntriesToStreamProto entries).2.pending = op.pending ++ es) ∨
    (none ∈ entries ∧ (op.commitEntriesToStreamProto entries).1 = .error .panic ∧
      Same op.server (op.commitEntriesToStreamProto entries).2.server) := by
  fun_induction Op.commitEntriesToStreamProto op entries with
  | case1 op => exact Or.inl ⟨[], rfl, rfl, Same.refl _, (List.append_nil _).symm⟩
  | case2 op rest => exact Or.inr ⟨by simp, rfl, Same.refl _⟩
  | case3 op e rest ih =>
    rcases ih with ⟨es, rfl, hOk, hSame, hPending⟩ | ⟨hNone, hPanic, hSame⟩
    · refine Or.inl ⟨e :: es, rfl, hOk, (op.same_add e).trans hSame, ?_⟩
      rw [List.append_cons]
      exact hPending
    · exact Or.inr ⟨by simp [hNone], hPanic, (op.same_add e).trans hSame⟩

/- The stream and the copies after a commit. -/
structure Wrote
    (s : Server) (entries : List Entry) (block batch closed : Option Nat) (t : Server) : Prop where
  entries : t.entries = s.entries ++ entries
  block : t.highestBlockWritten = block.or s.highestBlockWritten
  batch : t.highestBatchWritten = batch.or s.highestBatchWritten
  closed : t.highestClosedBatchWritten = closed.or s.highestClosedBatchWritten

/- A commit that returns has written all entries. -/
theorem commitEntries_cases (entries : List (Option Entry)) (block batch closed : Option Nat) :
    (∃ es : List Entry, entries = es.map some ∧
      (s.commitEntries entries block batch closed).1 = .ok () ∧
      Wrote s es block batch closed (s.commitEntries entries block batch closed).2) ∨
    (none ∈ entries ∧
      (s.commitEntries entries block batch closed).1 = .error .panic ∧
      Same s (s.commitEntries entries block batch closed).2) := by
  unfold commitEntries
  rcases Op.commitEntriesToStreamProto_cases ⟨s, []⟩ entries with
    ⟨es, hEs, hOk, hSame, hPending⟩ | ⟨hNone, hPanic, hSame⟩
  · simp only [hOk]
    refine Or.inl ⟨es, hEs, trivial, ?_, ?_, ?_, ?_⟩
    · change _ ++ _ = _
      rw [hSame.entries, hPending, List.nil_append]
    · exact congrArg block.or hSame.block
    · exact congrArg batch.or hSame.batch
    · exact congrArg closed.or hSame.closed
  · simp only [hPanic]
    exact Or.inr ⟨hNone, trivial, hSame⟩

theorem commitEntries_ok (entries : List Entry) (block batch closed : Option Nat) :
    (s.commitEntries (entries.map some) block batch closed).1 = .ok () ∧
    Wrote s entries block batch closed
      (s.commitEntries (entries.map some) block batch closed).2 := by
  rcases s.commitEntries_cases (entries.map some) block batch closed with
    ⟨es, hEs, hOk, hWrote⟩ | ⟨hNone, -⟩
  · rw [List.map_injective_iff.mpr (Option.some_injective _) hEs] at hOk hWrote ⊢
    exact ⟨hOk, hWrote⟩
  · simp at hNone

-- What an unwinding changes

/- A stream that is cut off at a bookmark, or is not. -/
theorem unwindTo_cases (mark : BookMark) :
    ((s.unwindTo mark).1 ≠ .ok () ∧ (s.unwindTo mark).2 = s) ∨
    ∃ entryNum, s.bookmarks mark = some entryNum ∧
      entryNum < s.entries.length ∧
      s.unwindTo mark = (.ok (), { s with entries := s.entries.take entryNum }) := by
  unfold unwindTo
  cases hMark : s.bookmarks mark with
  | none => exact Or.inl ⟨by simp, rfl⟩
  | some entryNum =>
    by_cases hLt : entryNum < s.entries.length
    · exact Or.inr ⟨entryNum, rfl, hLt, by simp [truncateFile, hLt]⟩
    · exact Or.inl (by simp [truncateFile, hLt])

/- The bookmark that a rewritten block is cut off at. -/
def unwindMark (blockNum prevBlockBatchNum batchNum : Nat) : BookMark :=
  if prevBlockBatchNum = batchNum then ⟨.l2Block, blockNum⟩
  else ⟨.batch, batchNum⟩

/- The stream does not reach a block yet. -/
def Ahead (s : Server) (blockNum : Nat) : Prop :=
  ∃ highest, s.getHighestBlockNumber = .ok highest ∧ highest < blockNum

theorem unwindIfNecessary_of_ahead {s : Server} {blockNum : Nat} (hAhead : s.Ahead blockNum)
    (db : Db) (prevBlockBatchNum batchNum : Nat) :
    s.unwindIfNecessary db blockNum prevBlockBatchNum batchNum = (.ok (), s) := by
  rcases hAhead with ⟨highest, hHighest, hLt⟩
  simp [unwindIfNecessary, hHighest, hLt]

/- Nothing changes, or a block is reached and cut off. -/
theorem unwindIfNecessary_cases (db : Db) (blockNum prevBlockBatchNum batchNum : Nat) :
    (s.Ahead blockNum ∧ s.unwindIfNecessary db blockNum prevBlockBatchNum batchNum = (.ok (), s)) ∨
    ((s.unwindIfNecessary db blockNum prevBlockBatchNum batchNum).1 ≠ .ok () ∧
      (s.unwindIfNecessary db blockNum prevBlockBatchNum batchNum).2 = s) ∨
    ∃ entryNum, ¬ s.Ahead blockNum ∧
      s.bookmarks (unwindMark blockNum prevBlockBatchNum batchNum) = some entryNum ∧
      entryNum < s.entries.length ∧
      s.unwindIfNecessary db blockNum prevBlockBatchNum
        batchNum = (.ok (), { s with entries := s.entries.take entryNum }) := by
  have hReached : ∀ highest, s.getHighestBlockNumber = .ok highest → ¬ highest < blockNum →
      ¬ s.Ahead blockNum := by
    rintro highest hHighest hLt ⟨h, hEq, hBelow⟩
    rw [hHighest] at hEq
    exact hLt (Except.ok.inj hEq ▸ hBelow)
  fun_cases unwindIfNecessary s db blockNum prevBlockBatchNum batchNum with
  | case1 e hHighest => exact Or.inr (Or.inl ⟨by simp, rfl⟩)
  | case2 highest hHighest hLt => exact Or.inl ⟨⟨highest, hHighest, hLt⟩, rfl⟩
  | case3 highest hHighest hLt hBatch =>
    rw [unwindMark, if_pos hBatch]
    rcases s.unwindTo_cases ⟨.l2Block, blockNum⟩ with hKept | ⟨entryNum, hCut⟩
    · exact Or.inr (Or.inl hKept)
    · exact Or.inr (Or.inr ⟨entryNum, hReached highest hHighest hLt, hCut⟩)
  | case4 => exact Or.inr (Or.inl ⟨by simp, rfl⟩)
  | case5 highest hHighest hLt hBatch =>
    rw [unwindMark, if_neg hBatch]
    rcases s.unwindTo_cases ⟨.batch, batchNum⟩ with hKept | ⟨entryNum, hCut⟩
    · exact Or.inr (Or.inl hKept)
    · exact Or.inr (Or.inr ⟨entryNum, hReached highest hHighest hLt, hCut⟩)

-- What a block on its own adds

def startsBefore (chainId : Nat) (db : Db) (batchNum prevBlockBatchNum : Nat)
    (block : Block) : List Entry :=
  if prevBlockBatchNum = batchNum then []
  else
    batchStartList db batchNum prevBlockBatchNum
      (sub64 batchNum prevBlockBatchNum) chainId block.root
      (db.getBatchGlobalExitRootsProto prevBlockBatchNum batchNum)

/- A call that returns has written the block. -/
theorem writeBlockWithBatchStartToStream_cases (chainId : Nat) (db : Db) (stop : Option Failure)
    (forkId batchNum prevBlockBatchNum : Nat) (prevBlock block : Block)
    {unwound written : Except Failure Unit × Server}
    (hCut : s.unwindIfNecessary db block.number prevBlockBatchNum batchNum = unwound)
    (hWritten : s.writeBlockWithBatchStartToStream chainId db stop forkId batchNum
      prevBlockBatchNum prevBlock block = written) :
    (written.1 = .ok () ∧ unwound.1 = .ok () ∧
      Wrote unwound.2 (startsBefore chainId db batchNum prevBlockBatchNum block ++
        blockList db block prevBlock block.transactions forkId batchNum (fun _ => 0))
        (some block.number) (some batchNum) none written.2) ∨
    (written.1 ≠ .ok () ∧ Same unwound.2 written.2) := by
  subst hCut hWritten
  unfold writeBlockWithBatchStartToStream andThen
  cases hUnwound : (s.unwindIfNecessary db block.number prevBlockBatchNum batchNum).1 with
  | error e => exact Or.inr ⟨by simp, Same.refl _⟩
  | ok _ =>
  cases stop with
  | some e => exact Or.inr ⟨by simp, Same.refl _⟩
  | none =>
  have hStarts : ∃ free, (if prevBlockBatchNum = batchNum then .ok (DataStreamEntries.new 0)
      else createBatchStartEntriesProto db batchNum prevBlockBatchNum
        (sub64 batchNum prevBlockBatchNum) chainId block.root
        (db.getBatchGlobalExitRootsProto prevBlockBatchNum batchNum)) =
      .ok (DataStreamEntries.filled
        ((startsBefore chainId db batchNum prevBlockBatchNum block).map some) free) := by
    unfold startsBefore
    split
    · exact ⟨0, rfl⟩
    · exact ⟨_, createBatchStartEntriesProto_eq ..⟩
  rcases hStarts with ⟨free, hStarts⟩
  simp only [hStarts, createFullBlockStreamEntriesProto_eq]
  rcases commitEntries_cases (s.unwindIfNecessary db block.number prevBlockBatchNum batchNum).2 _
    (some block.number) (some batchNum) none with ⟨es, hEs, hOk, hWrote⟩ | ⟨-, hPanic, hSame⟩
  · refine Or.inl ⟨hOk, trivial, ?_⟩
    convert hWrote using 1
    have hSome := congrArg List.reduceOption hEs
    simpa [DataStreamEntries.filled, List.reduceOption] using hSome
  · exact Or.inr ⟨by rw [hPanic]; simp, hSame⟩

-- What many blocks add

/- The entries of consecutive blocks, one after the other. -/
def pass (chainId : Nat) (db : Db) : Vars → List Nat → List (Option Entry)
  | _, [] => []
  | v, blockNumber :: rest =>
      match v.blockEntries chainId db blockNumber with
      | .error _ => []
      | .ok entries =>
          entries ++ pass chainId db (v.next db blockNumber) rest

/- The variables behind consecutive blocks. -/
def Vars.after (v : Vars) (db : Db) (blocks : List Nat) : Vars :=
  blocks.foldl (fun v blockNumber => v.next db blockNumber) v

/- All blocks can be read and built. -/
def Builds (chainId : Nat) (db : Db) : Vars → List Nat → Prop
  | _, [] => True
  | v, blockNumber :: rest =>
      (∃ entries, v.blockEntries chainId db blockNumber = .ok entries) ∧
      Builds chainId db (v.next db blockNumber) rest

/- The entries of a block in the loop. -/
def Vars.list (v : Vars) (chainId : Nat) (db : Db) (blockNumber : Nat)
    (block lastBlock : Block) : List Entry :=
  (closingList db lastBlock
      (db.getBatchNoByL2Block blockNumber) v.latestBatchNum v.isLastEntryBatchEnd ++
    openingList db block.root (db.getBatchNoByL2Block blockNumber) v.latestBatchNum chainId) ++
  (blockList db block lastBlock block.transactions
      (v.forkIdAt db blockNumber) (db.getBatchNoByL2Block blockNumber) (fun _ => 0) ++
    finalEndEntriesOf db block (db.getBatchNoByL2Block blockNumber) v.latestBatchNum
      (blockNumber = db.batchesProgress))

theorem Vars.blockEntries_list {v : Vars} {chainId : Nat} {db : Db} {blockNumber : Nat}
    {es : List Entry} (hEntries : v.blockEntries chainId db blockNumber = .ok (es.map some)) :
    ∃ block lastBlock, db.readBlockByNumber blockNumber = some block ∧
      v.lastBlock = some lastBlock ∧ es = v.list chainId db blockNumber block lastBlock := by
  unfold blockEntries at hEntries
  cases hBlock : db.readBlockByNumber blockNumber with
  | none =>
    rw [hBlock] at hEntries
    cases hEntries
  | some block =>
  cases hLast : v.lastBlock with
  | none =>
    rw [hBlock, hLast] at hEntries
    cases hEntries
  | some lastBlock =>
  refine ⟨block, lastBlock, rfl, rfl, ?_⟩
  rw [hBlock, hLast] at hEntries
  simp only [deref, Option.elim_some, ok_bind, createBlockWithBatchCheck_eq, Except.ok.injEq]
    at hEntries
  have hSome := congrArg List.reduceOption hEntries
  simpa [List.reduceOption, Vars.list] using hSome.symm

/-
  What the loop has done when it stops: some blocks are committed, and some more are in the list
  of entries.
-/
structure Passed (chainId : Nat) (db : Db) (l : Loop) (done : List Nat) (t : Server) : Prop where
  stream : t.entries = l.server.entries ∨
    (l.entries ++ pass chainId db l.vars done).length ≥ commitEntryCountLimit ∧
    Builds chainId db l.vars done ∧
    ∃ es : List Entry, l.entries ++ pass chainId db l.vars done = es.map some ∧
      t.entries = l.server.entries ++ es
  block : t.highestBlockWritten = l.server.highestBlockWritten
  closed : t.highestClosedBatchWritten = l.server.highestClosedBatchWritten
  batch : t.highestBatchWritten = l.server.highestBatchWritten

section

variable {chainId : Nat} {db : Db}

variable {blockNumber : Nat} {entries : List (Option Entry)}

theorem pass_cons {v : Vars} (hEntries : v.blockEntries chainId db blockNumber = .ok entries)
    (rest : List Nat) : pass chainId db v (blockNumber :: rest) =
      entries ++ pass chainId db (v.next db blockNumber) rest := by
  simp [pass, hEntries]

theorem pass_append {v : Vars} {done : List Nat} (hBuilds : Builds chainId db v done)
    (rest : List Nat) : pass chainId db v (done ++ rest) =
      pass chainId db v done ++ pass chainId db (v.after db done) rest := by
  induction done generalizing v with
  | nil => rfl
  | cons blockNumber done ih =>
    rcases hBuilds with ⟨⟨entries, hEntries⟩, hBuilds⟩
    rw [List.cons_append, pass_cons hEntries, pass_cons hEntries, ih hBuilds, List.append_assoc]
    rfl

/- One round adds to the list, commits it, or panics. -/
theorem Loop.append_cases (l : Loop) (blockEntries : List (Option Entry)) (vars : Vars) :
    (l.append blockEntries vars = (.ok (), ⟨l.server, l.entries ++ blockEntries, vars⟩)) ∨
    (∃ (es : List Entry) (t : Server),
      l.append blockEntries vars = (.ok (), ⟨t, [], vars⟩) ∧
      l.entries ++ blockEntries = es.map some ∧
      (l.entries ++ blockEntries).length ≥ commitEntryCountLimit ∧
      Wrote l.server es none none none t) ∨
    ∃ t, l.append blockEntries vars = (.error .panic, ⟨t, [], vars⟩) ∧ Same l.server t := by
  unfold append
  by_cases hLimit : (l.entries ++ blockEntries).length ≥ commitEntryCountLimit
  · simp only [hLimit, if_true]
    rcases l.server.commitEntries_cases (l.entries ++ blockEntries) none none none with
      ⟨es, hEs, hOk, hWrote⟩ | ⟨-, hPanic, hSame⟩
    · exact Or.inr (Or.inl ⟨es, _, by rw [hOk], hEs, trivial, hWrote⟩)
    · exact Or.inr (Or.inr ⟨_, by rw [hPanic], hSame⟩)
  · exact Or.inl (if_neg hLimit)

theorem Passed.of_same {l : Loop} {t : Server} (hSame : Same l.server t) :
    Passed chainId db l [] t :=
  ⟨Or.inl hSame.entries, hSame.block, hSame.closed, hSame.batch⟩

section

variable {l : Loop} (hEntries : l.vars.blockEntries chainId db blockNumber = .ok entries)

include hEntries

/- A block that is only added to the list. -/
theorem Passed.cons_added {done : List Nat} {t : Server}
    (hPassed : Passed chainId db ⟨l.server, l.entries ++ entries,
      l.vars.next db blockNumber⟩ done t) : Passed chainId db l (blockNumber :: done) t := by
  refine ⟨hPassed.stream.imp_right ?_, hPassed.block, hPassed.closed, hPassed.batch⟩
  rintro ⟨hLength, hBuilds, es, hEs, hStream⟩
  rw [List.append_assoc] at hLength hEs
  rw [pass_cons hEntries]
  exact ⟨hLength, ⟨⟨entries, hEntries⟩, hBuilds⟩, es, hEs, hStream⟩

/- A block after which the list is committed. -/
theorem Passed.cons_committed {es : List Entry}
    {committed : Server} (hEs : l.entries ++ entries = es.map some)
    (hLength : (l.entries ++ entries).length ≥ commitEntryCountLimit)
    (hWrote : Wrote l.server es none none none committed) {done : List Nat} {t : Server}
    (hPassed : Passed chainId db ⟨committed, [], l.vars.next db blockNumber⟩ done t) :
    ∃ done', done' <+: blockNumber :: done ∧ Passed chainId db l done' t := by
  have hBlock := hPassed.block.trans hWrote.block
  have hClosed := hPassed.closed.trans hWrote.closed
  have hBatch := hPassed.batch.trans hWrote.batch
  rcases hPassed.stream with hStream | ⟨-, hBuilds, later, hLater, hStream⟩
  · refine ⟨[blockNumber], by simp, Or.inr ?_, hBlock, hClosed, hBatch⟩
    rw [pass_cons hEntries, pass, List.append_nil]
    exact ⟨hLength, ⟨⟨entries, hEntries⟩, trivial⟩, es, hEs, hStream.trans hWrote.entries⟩
  · refine ⟨blockNumber :: done, List.prefix_refl _, Or.inr ?_, hBlock, hClosed, hBatch⟩
    rw [List.nil_append] at hLater
    rw [pass_cons hEntries, ← List.append_assoc]
    refine ⟨?_, ⟨⟨entries, hEntries⟩, hBuilds⟩, es ++ later, ?_, ?_⟩
    · rw [List.length_append]
      omega
    · rw [hEs, hLater, List.map_append]
    · rw [hStream, hWrote.entries, List.append_assoc]

/- However the loop ends, whole blocks are committed. -/
omit hEntries in
theorem writeLoop_passed (chainId : Nat) (db : Db) (interrupt : Nat → Option Interrupt) (l : Loop)
    (blocks : List Nat) : ∃ done, done <+: blocks ∧
      Passed chainId db l done (writeLoop chainId db interrupt l blocks).2.server := by
  fun_induction writeLoop chainId db interrupt l blocks with
  | case5 l blockNumber blocks hInterrupt entries hEntries appended e hFails =>
    rcases l.append_cases entries (l.vars.next db blockNumber) with
      hAdded | ⟨es, t, hDone, -⟩ | ⟨t, hPanic, hSame⟩
    · simp [appended, hAdded] at hFails
    · simp [appended, hDone] at hFails
    · exact ⟨[], by simp, .of_same (by simpa [appended, hPanic] using hSame)⟩
  | case6 l blockNumber blocks hInterrupt entries hEntries appended _ hOk ih =>
    rcases ih with ⟨done, hPrefix, hPassed⟩
    have hCons := List.cons_prefix_cons.mpr ⟨@rfl _ blockNumber, hPrefix⟩
    rcases l.append_cases entries (l.vars.next db blockNumber) with
      hAdded | ⟨es, t, hDone, hEs, hLength, hWrote⟩ | ⟨t, hPanic, -⟩
    · simp only [appended, hAdded] at hPassed ⊢
      exact ⟨blockNumber :: done, hCons, hPassed.cons_added hEntries⟩
    · simp only [appended, hDone] at hPassed ⊢
      rcases hPassed.cons_committed hEntries hEs hLength hWrote with ⟨done', hPrefix', hPassed'⟩
      exact ⟨done', hPrefix'.trans hCons, hPassed'⟩
    · simp [appended, hPanic] at hOk
  | _ => exact ⟨[], by simp, .of_same (Same.refl _)⟩

/- A loop that returns has come to its end or is cancelled. -/
structure Finished (chainId : Nat) (db : Db)
    (interrupt : Nat → Option Interrupt) (l : Loop) (blocks done : List Nat) (t : Loop) : Prop where
  reached : done = blocks ∨
    ∃ blockNumber later,
      blocks = done ++ blockNumber :: later ∧ interrupt blockNumber = some .cancelled
  builds : Builds chainId db l.vars done
  vars : t.vars = l.vars.after db done
  stream : t.server.entries.map some ++ t.entries =
      l.server.entries.map some ++ (l.entries ++ pass chainId db l.vars done)

theorem Finished.cons {interrupt : Nat → Option Interrupt} {m : Loop}
    (hVars : m.vars = l.vars.next db blockNumber)
    (hStream : m.server.entries.map some ++ m.entries =
      l.server.entries.map some ++ (l.entries ++ entries)) {blocks done : List Nat} {t : Loop}
    (hDone : Finished chainId db interrupt m blocks done t) :
    Finished chainId db interrupt l (blockNumber :: blocks) (blockNumber :: done) t where
  reached := by
    rcases hDone.reached with rfl | ⟨n, later, rfl, hCancel⟩
    · exact Or.inl rfl
    · exact Or.inr ⟨n, later, rfl, hCancel⟩
  builds := ⟨⟨entries, hEntries⟩, hVars ▸ hDone.builds⟩
  vars := by
    rw [hDone.vars, hVars]
    rfl
  stream := by
    rw [hDone.stream, ← List.append_assoc, hStream, hVars, pass_cons hEntries]
    simp only [List.append_assoc]

end

theorem writeLoop_finished (interrupt : Nat → Option Interrupt) (l : Loop) (blocks : List Nat)
    (hOk : (writeLoop chainId db interrupt l blocks).1 = .ok ()) :
    ∃ done, Finished chainId db interrupt l blocks done
      (writeLoop chainId db interrupt l blocks).2 := by
  revert hOk
  fun_induction writeLoop chainId db interrupt l blocks with
  | case1 l => exact fun _ => ⟨[], Or.inl rfl, trivial, rfl, by simp [pass]⟩
  | case2 l blockNumber blocks hInterrupt =>
    exact fun _ =>
      ⟨[], Or.inr ⟨blockNumber, blocks, rfl, hInterrupt⟩, trivial, rfl, by simp [pass]⟩
  | case6 l blockNumber blocks hInterrupt entries hEntries appended _ hAppended ih =>
    intro hOk
    rcases ih hOk with ⟨done, hDone⟩
    unfold appended at hDone hAppended ⊢
    rcases l.append_cases entries (l.vars.next db blockNumber) with
      hAdded | ⟨es, t, hWritten, hEs, -, hWrote⟩ | ⟨t, hPanic, -⟩
    · exact ⟨_, hDone.cons hEntries (by rw [hAdded]) (by rw [hAdded])⟩
    · refine ⟨_, hDone.cons hEntries (by rw [hWritten]) ?_⟩
      rw [hWritten, hEs, hWrote.entries, List.map_append, List.append_nil]
    · simp [hPanic] at hAppended
  | _ => rintro ⟨⟩

/- The batch of the last block that was written. -/
theorem Vars.latestBatchNum_after (v : Vars) {blocks : List Nat} {last : Nat}
    (hLast : blocks.getLast? = some last) :
    (v.after db blocks).latestBatchNum = db.getBatchNoByL2Block last := by
  rcases List.getLast?_eq_some_iff.mp hLast with ⟨init, rfl⟩
  simp [after, next]

end

section

variable {s : Server} {chainId : Nat} {db : Db} {stop : Option Failure}
  {interrupt : Nat → Option Interrupt} {fromBlock toBlock : Nat}

/- A call that returns has committed what was left; one that fails leaves what is committed. -/
theorem Loop.finish_cases (looped : Except Failure Unit × Loop) (stop : Option Failure)
    (toBlock batchNum : Nat) :
    (looped.1 = .ok () ∧ (Loop.finish looped stop toBlock batchNum).1 = .ok () ∧
      ∃ es : List Entry, looped.2.entries = es.map some ∧
        Wrote looped.2.server es (some toBlock) (some batchNum) (some looped.2.vars.latestBatchNum)
          (Loop.finish looped stop toBlock batchNum).2) ∨
    ((Loop.finish looped stop toBlock batchNum).1 ≠ .ok () ∧
      Same looped.2.server (Loop.finish looped stop toBlock batchNum).2) := by
  fun_cases Loop.finish looped stop toBlock batchNum with
  | case3 _ hLoop =>
    rcases looped.2.server.commitEntries_cases looped.2.entries (some toBlock) (some batchNum)
      (some looped.2.vars.latestBatchNum) with ⟨es, hEs, hOk, hWrote⟩ | ⟨-, hPanic, hSame⟩
    · exact Or.inl ⟨hLoop, hOk, es, hEs, hWrote⟩
    · exact Or.inr ⟨by rw [hPanic]; simp, hSame⟩
  | _ => exact Or.inr ⟨by simp, Same.refl _⟩

/- A call that returns has written whole blocks. -/
theorem writeBlocksFrom_ok
    (hOk : (s.writeBlocksFrom chainId db stop interrupt fromBlock toBlock).1 = .ok ()) :
    ∃ (done : List Nat) (es : List Entry), (done = blockNumbers fromBlock toBlock ∨
        ∃ n later,
          blockNumbers fromBlock toBlock = done ++ n :: later ∧ interrupt n = some .cancelled) ∧
      Builds chainId db (s.startVars db fromBlock) done ∧
      pass chainId db (s.startVars db fromBlock) done = es.map some ∧
      Wrote s es (some toBlock) (some (db.getBatchNoByL2Block fromBlock))
        (some ((s.startVars db fromBlock).after db done).latestBatchNum)
        (s.writeBlocksFrom chainId db stop interrupt fromBlock toBlock).2 := by
  rcases Loop.finish_cases _ stop toBlock _ with
    ⟨hLoop, -, written, hWritten, hWrote⟩ | ⟨hFails, -⟩
  case inr => exact absurd hOk hFails
  rcases writeLoop_finished interrupt _ _ hLoop with ⟨done, hDone⟩
  have hStream := hDone.stream
  rw [hWritten, ← List.map_append, List.nil_append] at hStream
  rcases List.map_eq_append_iff.mp hStream with ⟨old, es, hSplit, hOld, hEs⟩
  have hOld : old = s.entries := List.map_injective_iff.mpr (Option.some_injective _) hOld
  subst hOld
  refine ⟨done, es, hDone.reached, hDone.builds, hEs.symm, ?_, ?_, ?_, ?_⟩
  · exact hWrote.entries.trans hSplit
  · exact hWrote.block.trans rfl
  · exact hWrote.batch.trans rfl
  · rw [← hDone.vars]
    exact hWrote.closed.trans rfl

/- A call that fails may have committed whole blocks. -/
theorem writeBlocksFrom_failed
    (hFails : (s.writeBlocksFrom chainId db stop interrupt fromBlock toBlock).1 ≠ .ok ()) :
    ∃ done, done <+: blockNumbers fromBlock toBlock ∧
      Passed chainId db ⟨s, [], s.startVars db fromBlock⟩ done
        (s.writeBlocksFrom chainId db stop interrupt fromBlock toBlock).2 := by
  rcases Loop.finish_cases _ stop toBlock _ with ⟨-, hOk, -⟩ | ⟨-, hSame⟩
  · exact absurd hOk hFails
  rcases writeLoop_passed chainId db interrupt ⟨s, [], s.startVars db fromBlock⟩
    (blockNumbers fromBlock toBlock) with ⟨done, hPrefix, hPassed⟩
  refine ⟨done, hPrefix, ?_, ?_, ?_, ?_⟩
  · exact hSame.entries ▸ hPassed.stream
  · exact hSame.block.trans hPassed.block
  · exact hSame.closed.trans hPassed.closed
  · exact hSame.batch.trans hPassed.batch

end

theorem andThen_ok {first : Except Failure Unit × Server} (hFirst : first.1 = .ok ())
    (next : Server → Except Failure Unit × Server) : andThen first next = next first.2 := by
  simp [andThen, hFirst]

theorem andThen_failed {first : Except Failure Unit × Server} (hFirst : first.1 ≠ .ok ())
    (next : Server → Except Failure Unit × Server) :
    (andThen first next).1 ≠ .ok () ∧ (andThen first next).2 = first.2 := by
  rcases first with ⟨outcome, t⟩
  cases outcome with
  | error e => exact ⟨by simp [andThen], rfl⟩
  | ok _ => exact absurd rfl hFirst

end Server

end XLayerErigon.DataStream
