import XLayerErigon.DataStream.Server

/-
  The heads that the server reports.

  A head is answered from a copy if there is one, and from the last entries of the stream
  otherwise.  The answers are right as long as each call meets a condition on the copies it does
  not set and on the numbers it sets them to.

  Main results:
    * `TxsFollow.append`
    * `Right.truthful`
    * `Right.run`
    * `heads_truthful`
-/

namespace XLayerErigon.DataStream

-- Transactions behind their blocks

/- Each transaction is behind its block. -/
def TxsFollow (entries : List Entry) : Prop := ∀ before tx after,
    entries = before ++ .l2Tx tx :: after → lastOf blockOf before = some tx.l2BlockNumber

theorem txsFollow_of_none {entries : List Entry} (hNone : ∀ tx, .l2Tx tx ∉ entries) :
    TxsFollow entries := by
  intro before tx after hEq
  exact absurd (by simp [hEq]) (hNone tx)

/- An entry of two lists is in the first or behind it. -/
theorem append_eq_append_cons {xs ys before after : List Entry} {e : Entry}
    (hEq : xs ++ ys = before ++ e :: after) :
    (∃ middle, before = xs ++ middle ∧ ys = middle ++ e :: after) ∨
      ∃ middle, xs = before ++ e :: middle ∧ after = middle ++ ys := by
  rcases List.append_eq_append_iff.mp hEq with ⟨middle, rfl, hRest⟩ | ⟨middle, rfl, hRest⟩
  · exact Or.inl ⟨middle, rfl, hRest⟩
  · cases middle with
    | nil => exact Or.inl ⟨[], by simp, hRest.symm⟩
    | cons e middle =>
      simp only [List.cons_append, List.cons.injEq] at hRest
      rcases hRest with ⟨rfl, rfl⟩
      exact Or.inr ⟨middle, rfl, rfl⟩

theorem TxsFollow.append {xs ys : List Entry} (hFirst : TxsFollow xs) (hThen : TxsFollow ys) :
    TxsFollow (xs ++ ys) := by
  intro before tx after hEq
  rcases append_eq_append_cons hEq with ⟨middle, rfl, hRest⟩ | ⟨middle, rfl, -⟩
  · rw [lastOf_append, hThen middle tx after hRest]
    rfl
  · exact hFirst before tx middle rfl

theorem TxsFollow.take {entries : List Entry} (hTxs : TxsFollow entries)
    (n : Nat) : TxsFollow (entries.take n) := by
  intro before tx after hEq
  refine hTxs before tx (after ++ entries.drop n) ?_
  rw [← List.cons_append, ← List.append_assoc, ← hEq, List.take_append_drop]

/- A transaction names the block that is there last. -/
theorem lastOf_blockOrTxOf {entries : List Entry} (hTxs : TxsFollow entries) :
    lastOf blockOrTxOf entries = lastOf blockOf entries := by
  induction entries using List.reverseRecOn with
  | nil => rfl
  | append_singleton xs e ih =>
    have hInit : TxsFollow xs := by simpa using hTxs.take xs.length
    rw [lastOf_append, lastOf_append, ih hInit, lastOf_singleton, lastOf_singleton]
    cases e with
    | l2Tx tx =>
      rw [hTxs xs tx [] rfl]
      rfl
    | _ => rfl

-- The heads of what is written

theorem lastOf_eq_getLast? (f : Entry → Option Nat) (entries : List Entry) :
    lastOf f entries = (entries.filterMap f).getLast? := by
  rw [lastOf, ← List.head?_filterMap, List.filterMap_reverse, List.head?_reverse]

section

variable (db : Db)

variable (batchNumber lastBatchNumber batchGap chainId : Nat) (block lastBlock : Block)
  (txs : List Tx)

/- The transactions of the last block may follow. -/
theorem TxsFollow.append_tail {xs ys : List Entry} {number : Nat} (hFirst : TxsFollow xs)
    (hLast : lastOf blockOf xs = some number)
    (hTail : ∀ e ∈ ys, blockOf e = none ∧ ∀ tx, e = .l2Tx tx → tx.l2BlockNumber = number) :
    TxsFollow (xs ++ ys) := by
  intro before tx after hEq
  rcases append_eq_append_cons hEq with ⟨middle, rfl, hRest⟩ | ⟨middle, rfl, -⟩
  · have hTx := (hTail (.l2Tx tx) (by simp [hRest])).2 tx rfl
    have hMiddle : lastOf blockOf middle = none :=
      lastOf_eq_none fun e he => (hTail e (by simp [hRest, he])).1
    rw [lastOf_append, hMiddle, hLast, hTx]
    rfl
  · exact hFirst before tx middle rfl

/- What stands behind the entry of a block. -/
theorem mem_blockTail {number : Nat} {isEtrog : Bool} {txs : List Tx} {e : Entry}
    (he : e ∈ txs.map (createTransactionEntryProto db number isEtrog) ++ [.l2BlockEnd number]) :
    (∃ tx, e = .l2Tx tx ∧ tx.l2BlockNumber = number) ∨ e = .l2BlockEnd number := by
  rcases List.mem_append.mp he with he | he
  · rcases List.mem_map.mp he with ⟨tx, -, rfl⟩
    exact Or.inl ⟨_, rfl, rfl⟩
  · exact Or.inr (List.mem_singleton.mp he)

/- Only blocks and transactions have to do with blocks. -/
def NoBlocks (entries : List Entry) : Prop := ∀ e ∈ entries, blockOrTxOf e = none

theorem NoBlocks.txsFollow {entries : List Entry}
    (hNone : NoBlocks entries) : TxsFollow entries := by
  refine txsFollow_of_none ?_
  intro tx hMem
  exact absurd (hNone _ hMem) (by simp [blockOrTxOf])

/-
  The transactions are behind their blocks.  The blocks, and the batches that start and end, are
  in this order.
-/
structure Shape (entries : List Entry) (blocks starts ends : List Nat) : Prop where
  txs : TxsFollow entries
  blocks : entries.filterMap blockOf = blocks
  starts : entries.filterMap startedOf = starts
  ends : entries.filterMap endedOf = ends

theorem shape_nil : Shape [] [] [] [] := ⟨txsFollow_of_none (by simp), rfl, rfl, rfl⟩

namespace Shape

variable {xs ys : List Entry} {blocks starts ends blocks' starts' ends' : List Nat}

theorem append (hFirst : Shape xs blocks starts ends) (hThen : Shape ys blocks' starts' ends') :
    Shape (xs ++ ys) (blocks ++ blocks') (starts ++ starts') (ends ++ ends') where
  txs := hFirst.txs.append hThen.txs
  blocks := by rw [List.filterMap_append, hFirst.blocks, hThen.blocks]
  starts := by rw [List.filterMap_append, hFirst.starts, hThen.starts]
  ends := by rw [List.filterMap_append, hFirst.ends, hThen.ends]

variable (hShape : Shape xs blocks starts ends)

include hShape

theorem lastOf_blockOf : lastOf blockOf xs = blocks.getLast? := by
  rw [lastOf_eq_getLast?, hShape.blocks]

theorem lastOf_startedOf : lastOf startedOf xs = starts.getLast? := by
  rw [lastOf_eq_getLast?, hShape.starts]

theorem lastOf_endedOf : lastOf endedOf xs = ends.getLast? := by
  rw [lastOf_eq_getLast?, hShape.ends]

end Shape

theorem shape_blockList (forkId batchNumber : Nat) (times : MinTimestamps) :
    Shape (blockList db block lastBlock txs forkId batchNumber times) [block.number] [] [] := by
  have hHead : TxsFollow
      [newL2BlockBookmarkEntryProto block.number,
        blockEntry db block lastBlock batchNumber times] :=
    txsFollow_of_none (by simp [newL2BlockBookmarkEntryProto, blockEntry, newL2BlockProto])
  have hTail : ∀ f : Entry → Option Nat, (∀ tx, f (.l2Tx tx) = none) →
      f (.l2BlockEnd block.number) = none →
      (txs.map (createTransactionEntryProto db block.number (forkId ≤ etrogBatchNumber)) ++
        [Entry.l2BlockEnd block.number]).filterMap f = [] := by
    intro f hTx hEnd
    refine List.filterMap_eq_nil_iff.mpr fun e he => ?_
    rcases mem_blockTail db he with ⟨tx, rfl, -⟩ | rfl
    · exact hTx tx
    · exact hEnd
  refine ⟨hHead.append_tail rfl ?_, ?_, ?_, ?_⟩
  · intro e he
    rcases mem_blockTail db he with ⟨tx, rfl, hTx⟩ | rfl
    · exact ⟨rfl, fun tx' hEq => Entry.l2Tx.inj hEq ▸ hTx⟩
    · exact ⟨rfl, by simp⟩
  · exact congrArg (block.number :: ·) (hTail blockOf (fun _ => rfl) rfl)
  · exact hTail startedOf (fun _ => rfl) rfl
  · exact hTail endedOf (fun _ => rfl) rfl

theorem shape_addBatchStartEntries (batchNum chainId : Nat) :
    Shape (addBatchStartEntries db batchNum chainId) [] [batchNum] [] :=
  ⟨NoBlocks.txsFollow (by simp [NoBlocks, addBatchStartEntries, blockOrTxOf,
    newBatchBookmarkEntryProto, newBatchStartProto]), rfl, rfl, rfl⟩

theorem mem_addBatchEndEntriesProto {batchNumber : Nat} {root : Hash} {gers : List UpdateGER}
    {localExitRoot : Hash} {e : Entry}
    (he : e ∈ addBatchEndEntriesProto batchNumber root gers localExitRoot) :
    (∃ u, e = .gerUpdate u) ∨ ∃ last, e = .batchEnd last := by
  rcases List.mem_append.mp he with he | he
  · rcases List.mem_map.mp he with ⟨u, -, rfl⟩
    exact Or.inl ⟨u, rfl⟩
  · exact Or.inr ⟨_, List.mem_singleton.mp he⟩

theorem noBlocks_addBatchEndEntriesProto (batchNumber : Nat) (root : Hash) (gers : List UpdateGER)
    (localExitRoot : Hash) :
    NoBlocks (addBatchEndEntriesProto batchNumber root gers localExitRoot) := by
  intro e he
  rcases mem_addBatchEndEntriesProto he with ⟨u, rfl⟩ | ⟨last, rfl⟩
  · rfl
  · rfl

theorem shape_addBatchEndEntriesProto (batchNumber : Nat) (root : Hash) (gers : List UpdateGER)
    (localExitRoot : Hash) :
    Shape (addBatchEndEntriesProto batchNumber root gers localExitRoot) [] [] [batchNumber] := by
  refine ⟨(noBlocks_addBatchEndEntriesProto _ _ _ _).txsFollow, ?_, ?_, ?_⟩
  all_goals
    simp [addBatchEndEntriesProto, gerEntries, newBatchEndProto, List.filterMap_map,
      Function.comp_def, blockOf, startedOf, endedOf]

theorem Shape.close {xs : List Entry} {blocks starts ends : List Nat}
    (hShape : Shape xs blocks starts ends) (batchNumber : Nat) (root : Hash) (gers : List UpdateGER)
    (localExitRoot : Hash) :
    Shape (xs ++ addBatchEndEntriesProto batchNumber root gers localExitRoot) blocks starts
      (ends ++ [batchNumber]) := by
  simpa using hShape.append (shape_addBatchEndEntriesProto batchNumber root gers localExitRoot)

/- Batches without blocks are closed again. -/
theorem shape_emptyBatches (root : Hash) (gers : List UpdateGER) (batches : List Nat) :
    Shape (batches.flatMap (emptyBatchEntries db chainId root gers)) [] batches batches := by
  induction batches with
  | nil => exact shape_nil
  | cons b batches ih =>
    rw [List.flatMap_cons]
    exact ((shape_addBatchStartEntries db b chainId).close b root gers _).append ih

theorem shape_batchStartList (root : Hash) (gers : List UpdateGER) :
    Shape (batchStartList db batchNumber lastBatchNumber batchGap chainId root gers) []
      (workingBatches lastBatchNumber batchGap ++ [batchNumber])
      (workingBatches lastBatchNumber batchGap) := by
  have hAll := (shape_emptyBatches db chainId root gers
    (workingBatches lastBatchNumber batchGap)).append
    (shape_addBatchStartEntries db batchNumber chainId)
  rw [List.append_nil (workingBatches lastBatchNumber batchGap)] at hAll
  exact hAll

end

-- The heads of many blocks

namespace Server

section

variable {chainId : Nat} {db : Db}

variable {v : Vars} {blocks : List Nat} {es : List Entry}

/- Only batches that end stand before the start of the next one. -/
theorem shape_closingList (lastBlock : Block) (batchNumber lastBatchNumber : Nat) (skip : Bool) :
    ∃ ends, Shape (closingList db lastBlock batchNumber lastBatchNumber skip) [] [] ends := by
  unfold closingList endEntriesOf
  split
  · split
    · exact ⟨_, shape_nil⟩
    · exact ⟨_, shape_addBatchEndEntriesProto _ _ _ _⟩
  · exact ⟨_, shape_nil⟩

/- A start is written where the number of the batch changes. -/
theorem shape_openingList (root : Hash) (batchNumber lastBatchNumber : Nat) :
    ∃ starts ends, Shape (openingList db root batchNumber lastBatchNumber chainId) [] starts ends ∧
      starts.getLast? =
        if sub64 batchNumber lastBatchNumber > 0 then some batchNumber else none := by
  unfold openingList
  split
  · exact ⟨_, _, shape_batchStartList db _ _ _ _ _ _, List.getLast?_concat⟩
  · exact ⟨_, _, shape_nil, rfl⟩

/- A batch that ends at the progress of the batches is the last that ends. -/
theorem shape_finalEndEntriesOf (block : Block) (batchNumber lastBatchNumber : Nat)
    (checkBatchEnd : Bool) :
    Shape (finalEndEntriesOf db block batchNumber lastBatchNumber checkBatchEnd) [] []
      (if checkBatchEnd && db.getBatchEnd block.number then [batchNumber] else []) := by
  unfold finalEndEntriesOf
  split
  · exact shape_addBatchEndEntriesProto _ _ _ _
  · exact shape_nil

theorem Vars.shape_list (v : Vars) (blockNumber : Nat) (block lastBlock : Block) : ∃ starts ends,
      Shape (v.list chainId db blockNumber block lastBlock) [block.number] starts ends ∧
      starts.getLast? = (if sub64 (db.getBatchNoByL2Block blockNumber) v.latestBatchNum > 0 then
        some (db.getBatchNoByL2Block blockNumber) else none) ∧
      (blockNumber = db.batchesProgress → db.getBatchEnd block.number = true →
        ends.getLast? = some (db.getBatchNoByL2Block blockNumber)) := by
  rcases shape_closingList lastBlock (db.getBatchNoByL2Block blockNumber)
    v.latestBatchNum v.isLastEntryBatchEnd with ⟨ends, hClosing⟩
  rcases shape_openingList block.root
    (db.getBatchNoByL2Block blockNumber) v.latestBatchNum with ⟨starts, ends', hOpening, hLast⟩
  refine ⟨_, _, (hClosing.append hOpening).append ((shape_blockList db block lastBlock
    block.transactions (v.forkIdAt db blockNumber) _ _).append
    (shape_finalEndEntriesOf block _ _ _)), by simpa using hLast, ?_⟩
  intro hProgress hEnd
  simp [← hProgress, hEnd]

/- The entries of the first block, and of the others. -/
theorem pass_split {blockNumber : Nat} {rest : List Nat}
    (hBuilds : Builds chainId db v (blockNumber :: rest))
    (hPass : pass chainId db v (blockNumber :: rest) = es.map some) :
    ∃ block lastBlock later, db.readBlockByNumber blockNumber = some block ∧
      v.lastBlock = some lastBlock ∧ es = v.list chainId db blockNumber block lastBlock ++ later ∧
      pass chainId db (v.next db blockNumber) rest = later.map some := by
  rcases hBuilds with ⟨⟨entries, hEntries⟩, -⟩
  rw [pass_cons hEntries] at hPass
  rcases List.map_eq_append_iff.mp hPass.symm with ⟨here, later, rfl, rfl, hLater⟩
  rcases Vars.blockEntries_list hEntries with ⟨block, lastBlock, hBlock, hLast, rfl⟩
  exact ⟨block, lastBlock, later, hBlock, hLast, rfl, hLater.symm⟩

variable (hBuilds : Builds chainId db v blocks) (hPass : pass chainId db v blocks = es.map some)

include hBuilds hPass

/- The blocks are written in their order. -/
theorem shape_pass : ∃ starts ends, Shape es blocks starts ends := by
  induction blocks generalizing v es with
  | nil =>
    cases List.map_eq_nil_iff.mp hPass.symm
    exact ⟨_, _, shape_nil⟩
  | cons blockNumber rest ih =>
    rcases pass_split hBuilds hPass with ⟨block, lastBlock, later, hBlock, -, rfl, hLater⟩
    rcases v.shape_list blockNumber block lastBlock with ⟨_, _, hHere, -⟩
    rcases ih hBuilds.2 hLater with ⟨_, _, hRest⟩
    exact ⟨_, _, db.number_eq _ _ hBlock ▸ hHere.append hRest⟩

/- Blocks of one batch start it at most once. -/
theorem lastOf_startedOf_pass {batch : Nat}
    (hBatch : ∀ n ∈ blocks, db.getBatchNoByL2Block n = batch) (hSome : blocks ≠ []) :
    lastOf startedOf es = if sub64 batch v.latestBatchNum > 0 then some batch else none := by
  induction blocks generalizing v es with
  | nil => exact absurd rfl hSome
  | cons blockNumber rest ih =>
    rcases pass_split hBuilds hPass with ⟨block, lastBlock, later, -, -, rfl, hLater⟩
    have hHere := hBatch blockNumber List.mem_cons_self
    have hRest : lastOf startedOf later = none := by
      cases rest with
      | nil =>
        cases List.map_eq_nil_iff.mp hLater.symm
        rfl
      | cons m rest =>
        have hNext := ih hBuilds.2 hLater (fun n hn => hBatch n (by simp [hn])) (by simp)
        simpa [Vars.next, hHere, sub64_self] using hNext
    rcases v.shape_list blockNumber block lastBlock with ⟨_, _, hShape, hStart, -⟩
    rw [lastOf_append, hRest, hShape.lastOf_startedOf, hStart, hHere]
    rfl

theorem lastOf_endedOf_pass {last : Nat} (hLast : blocks.getLast? = some last)
    (hProgress : last = db.batchesProgress) (hEnd : db.getBatchEnd last = true) :
    lastOf endedOf es = some (db.getBatchNoByL2Block last) := by
  induction blocks generalizing v es with
  | nil => simp at hLast
  | cons blockNumber rest ih =>
    rcases pass_split hBuilds hPass with ⟨block, lastBlock, later, hBlock, -, rfl, hLater⟩
    cases rest with
    | nil =>
      cases List.map_eq_nil_iff.mp hLater.symm
      have hEq : blockNumber = last := by simpa using hLast
      subst hEq
      rcases v.shape_list blockNumber block lastBlock with ⟨_, _, hShape, -, hStop⟩
      rw [List.append_nil, hShape.lastOf_endedOf]
      exact hStop hProgress (db.number_eq _ _ hBlock ▸ hEnd)
    | cons m rest =>
      have hNext := ih hBuilds.2 hLater (by simpa [List.getLast?_cons_cons] using hLast)
      rw [lastOf_append, hNext]
      rfl

end

-- Right copies

/- The answers are what is in the stream. -/
structure Truthful (s : Server) : Prop where
  block : s.getHighestBlockNumber = .ok ((lastOf blockOf s.entries).getD 0)
  batch : s.getHighestBatchNumber.1 = (lastOf startedOf s.entries).getD 0
  closed : s.getHighestClosedBatch.1 = (lastOf endedOf s.entries).getD 0

/- A copy is empty or says what the stream says. -/
def HeadOk (copy : Option Nat) (f : Entry → Option Nat) (entries : List Entry) : Prop :=
  ∀ number, copy = some number → number = (lastOf f entries).getD 0

theorem headOk_none (f : Entry → Option Nat) (entries : List Entry) : HeadOk none f entries := by
  intro number hEq
  cases hEq

theorem headOk_set {f : Entry → Option Nat} {entries : List Entry} {number : Nat}
    (hNumber : (lastOf f entries).getD 0 = number) (copy : Option Nat) :
    HeadOk ((some number).or copy) f entries := by
  intro n hEq
  rw [hNumber]
  exact (Option.some.inj hEq).symm

/- A copy that is kept when nothing of its kind is added. -/
theorem HeadOk.append {f : Entry → Option Nat} {entries es : List Entry} {copy : Option Nat}
    (hOk : HeadOk copy f entries) (hNone : copy = none ∨ lastOf f es = none) :
    HeadOk copy f (entries ++ es) := by
  intro number hEq
  rcases hNone with hNone | hNone
  · rw [hNone] at hEq
    cases hEq
  · rw [lastOf_append, hNone]
    exact hOk number hEq

/- A copy that is kept when nothing of its kind is cut off. -/
theorem HeadOk.take {f : Entry → Option Nat} {entries : List Entry} {copy : Option Nat}
    (hOk : HeadOk copy f entries) {n : Nat}
    (hNone : copy = none ∨ lastOf f (entries.drop n) = none) : HeadOk copy f (entries.take n) := by
  intro number hEq
  rcases hNone with hNone | hNone
  · rw [hNone] at hEq
    cases hEq
  · have hAll := hOk number hEq
    rw [← List.take_append_drop n entries, lastOf_append, hNone] at hAll
    exact hAll

/- Without a copy there is a block to be found. -/
def BlockSeen (copy : Option Nat) (entries : List Entry) : Prop :=
  copy = none → entries = [] ∨ lastOf blockOf entries ≠ none

structure Right (s : Server) : Prop where
  block : HeadOk s.highestBlockWritten blockOf s.entries
  seen : BlockSeen s.highestBlockWritten s.entries
  batch : HeadOk s.highestBatchWritten startedOf s.entries
  closed : HeadOk s.highestClosedBatchWritten endedOf s.entries
  txs : TxsFollow s.entries

theorem Right.truthful {s : Server} (hRight : Right s) : Truthful s where
  block := by
    unfold getHighestBlockNumber
    cases hCopy : s.highestBlockWritten with
    | some number => exact congrArg Except.ok (hRight.block number hCopy)
    | none =>
      rcases hRight.seen hCopy with hNil | hSome
      · simp [hNil]
      · rcases Option.ne_none_iff_exists'.mp hSome with ⟨number, hNumber⟩
        have hEntries : s.entries ≠ [] := by
          rintro hNil
          rw [hNil] at hNumber
          cases hNumber
        simp [hEntries, lastOf_blockOrTxOf hRight.txs, hNumber]
  batch := by
    unfold getHighestBatchNumber
    cases hCopy : s.highestBatchWritten with
    | some number => exact hRight.batch number hCopy
    | none => cases hLast : lastOf startedOf s.entries <;> rfl
  closed := by
    unfold getHighestClosedBatch
    cases hCopy : s.highestClosedBatchWritten with
    | some number => exact hRight.closed number hCopy
    | none => rfl

theorem Right.of_same {s t : Server} (hRight : Right s) (hSame : Same s t) : Right t := by
  refine ⟨?_, ?_, ?_, ?_, ?_⟩
  · rw [hSame.block, hSame.entries]
    exact hRight.block
  · rw [hSame.block, hSame.entries]
    exact hRight.seen
  · rw [hSame.batch, hSame.entries]
    exact hRight.batch
  · rw [hSame.closed, hSame.entries]
    exact hRight.closed
  · rw [hSame.entries]
    exact hRight.txs

/- The getters only fill in what is right. -/
theorem Right.getHighestBatchNumber {s : Server}
    (hRight : Right s) : Right s.getHighestBatchNumber.2 := by
  unfold Server.getHighestBatchNumber
  cases hCopy : s.highestBatchWritten with
  | some number => exact hRight
  | none =>
    cases hLast : lastOf startedOf s.entries with
    | none => exact hRight
    | some number =>
      refine ⟨hRight.block, hRight.seen, ?_, hRight.closed, hRight.txs⟩
      exact headOk_set (by rw [hLast]; rfl) none

theorem Right.getHighestClosedBatch {s : Server}
    (hRight : Right s) : Right s.getHighestClosedBatch.2 := by
  unfold Server.getHighestClosedBatch
  cases hCopy : s.highestClosedBatchWritten with
  | some number => exact hRight
  | none =>
    refine ⟨hRight.block, hRight.seen, hRight.batch, ?_, hRight.txs⟩
    exact headOk_set rfl none

-- Calls

inductive Call where
  | writeWholeBatch (db : Db) (stop : Option Failure) (prevBatchNum batchNum : Nat)
  | writeBlocks (db : Db) (stop : Option Failure) (interrupt : Nat → Option Interrupt)
      (fromBlock toBlock : Nat)
  | writeBlock (db : Db) (stop : Option Failure) (forkId batchNum prevBlockBatchNum : Nat)
      (prevBlock block : Block)
  | writeBatchEnd (db : Db) (stop : Option Failure) (batchNumber : Nat)
      (stateRoot localExitRoot : Hash)
  | unwindToBlock (blockNumber : Nat)
  | unwindToBatchStart (batchNumber : Nat)
  | getHighestBatchNumber
  | getHighestClosedBatch
  | restart

namespace Call

def run (chainId : Nat) (s : Server) : Call → Except Failure Unit × Server
  | writeWholeBatch db stop prevBatchNum batchNum =>
      s.writeWholeBatchToStream chainId db stop prevBatchNum batchNum
  | writeBlocks db stop interrupt fromBlock toBlock =>
      s.writeBlocksToStreamConsecutively chainId db stop interrupt fromBlock toBlock
  | writeBlock db stop forkId batchNum prevBlockBatchNum prevBlock block =>
      s.writeBlockWithBatchStartToStream chainId db stop
        forkId batchNum prevBlockBatchNum prevBlock block
  | writeBatchEnd db stop batchNumber stateRoot localExitRoot =>
      s.writeBatchEnd db stop batchNumber stateRoot localExitRoot
  | unwindToBlock blockNumber => s.unwindToBlock blockNumber
  | unwindToBatchStart batchNumber =>
      s.unwindToBatchStart batchNumber
  | getHighestBatchNumber =>
      (.ok (), s.getHighestBatchNumber.2)
  | getHighestClosedBatch =>
      (.ok (), s.getHighestClosedBatch.2)
  | restart => (.ok (), s.restart)

/-
  Nothing of a kind that has a copy is cut off at the place of a bookmark, and a block is left if
  there is no copy.
-/
def CutFine (s : Server) (mark : BookMark) : Prop := ∀ entryNum, s.bookmarks mark = some entryNum →
    entryNum < s.entries.length →
    (s.highestBlockWritten = none ∨ lastOf blockOf (s.entries.drop entryNum) = none) ∧
    (s.highestBatchWritten = none ∨ lastOf startedOf (s.entries.drop entryNum) = none) ∧
    (s.highestClosedBatchWritten = none ∨ lastOf endedOf (s.entries.drop entryNum) = none) ∧
    BlockSeen s.highestBlockWritten (s.entries.take entryNum)

/- The batch that was started last before a block is written. -/
def startedBefore (s : Server) (db : Db) (blockNum prevBlockBatchNum batchNum : Nat) : Nat :=
  (lastOf startedOf (s.unwindIfNecessary db blockNum prevBlockBatchNum batchNum).2.entries).getD 0

/-
  Many blocks at once: all of them are written, they are of one batch, and the batch is closed
  behind them.
-/
structure BlocksFine (s : Server)
    (db : Db) (interrupt : Nat → Option Interrupt) (fromBlock toBlock : Nat) : Prop where
  some : fromBlock ≤ toBlock
  written : ∀ n, fromBlock ≤ n → n ≤ toBlock → interrupt n ≠ .some .cancelled
  batch : ∀ n, fromBlock ≤ n → n ≤ toBlock →
    db.getBatchNoByL2Block n = db.getBatchNoByL2Block fromBlock
  started :
    sub64 (db.getBatchNoByL2Block fromBlock) (db.getBatchNoByL2Block (sub64 fromBlock 1)) = 0 →
    startedBefore s db fromBlock
        (db.getBatchNoByL2Block (sub64 fromBlock 1)) (db.getBatchNoByL2Block fromBlock) =
      db.getBatchNoByL2Block fromBlock
  last : toBlock = db.batchesProgress
  ended : db.getBatchEnd toBlock = true

/- No blocks at all: the copies are set to the heads. -/
structure RangeEmpty (s : Server) (db : Db) (fromBlock toBlock : Nat) : Prop where
  empty : toBlock < fromBlock
  ahead : s.Ahead fromBlock
  block : (lastOf blockOf s.entries).getD 0 = toBlock
  batch : (lastOf startedOf s.entries).getD 0 = db.getBatchNoByL2Block fromBlock
  closed : (lastOf endedOf s.entries).getD 0 = db.getBatchNoByL2Block (sub64 fromBlock 1)

/- A call that fails has cut nothing off and committed nothing. -/
def FailsClean (chainId : Nat) (s : Server) (db : Db) (fromBlock toBlock : Nat) : Prop :=
  s.Ahead fromBlock ∧
  ((s.highestBlockWritten = none ∧
      s.highestBatchWritten = none ∧ s.highestClosedBatchWritten = none) ∨
    (pass chainId db (s.startVars db fromBlock)
      (blockNumbers fromBlock toBlock)).length < commitEntryCountLimit)

/- What a call asks of the server, by kind. -/
def Fine (chainId : Nat) (s : Server) : Call → Prop
  | writeWholeBatch db stop prevBatchNum batchNum =>
      (s.writeWholeBatchToStream chainId db stop prevBatchNum batchNum).1 = .ok () ∨
      s.Ahead (blockRange (db.getL2BlockNosByBatch batchNum)).1
  | writeBlocks db stop interrupt fromBlock toBlock =>
      ((s.writeBlocksToStreamConsecutively chainId db stop interrupt fromBlock toBlock).1 = .ok () ∧
        (BlocksFine s db interrupt fromBlock toBlock ∨ RangeEmpty s db fromBlock toBlock)) ∨
      ((s.writeBlocksToStreamConsecutively chainId db stop interrupt fromBlock toBlock).1 ≠ .ok () ∧
        FailsClean chainId s db fromBlock toBlock)
  | writeBlock db stop forkId batchNum prevBlockBatchNum prevBlock block =>
      s.Ahead block.number ∧
        (s.highestClosedBatchWritten = none ∨
          prevBlockBatchNum = batchNum ∨
          workingBatches prevBlockBatchNum (sub64 batchNum prevBlockBatchNum) = []) ∧
        (prevBlockBatchNum = batchNum →
          startedBefore s db block.number prevBlockBatchNum batchNum = batchNum) ∨
      (s.writeBlockWithBatchStartToStream chainId db stop
          forkId batchNum prevBlockBatchNum prevBlock block).1 = .ok () ∧
        s.highestClosedBatchWritten = none ∧
        (prevBlockBatchNum = batchNum →
          startedBefore s db block.number prevBlockBatchNum batchNum = batchNum)
  | writeBatchEnd _ stop _ _ _ =>
      stop = none → s.highestBlockWritten ≠ none ∨ lastOf blockOf s.entries ≠ none
  | unwindToBlock blockNumber =>
      CutFine s ⟨.l2Block, blockNumber⟩
  | unwindToBatchStart batchNumber =>
      CutFine s ⟨.batch, batchNumber⟩
  | getHighestBatchNumber => True
  | getHighestClosedBatch => True
  | restart => BlockSeen none s.entries

end Call

-- What a whole batch writes

variable {es : List Entry} {stop : Option Failure} {db : Db} {s : Server}
  {fromBlock toBlock chainId : Nat}

theorem blockRange_le (blocksForBatch : List Nat) :
    (blockRange blocksForBatch).1 ≤ (blockRange blocksForBatch).2 := by
  have hFold : ∀ (numbers : List Nat) (range : Nat × Nat),
      range.1 ≤ range.2 →
      (numbers.foldl (fun range blockNum =>
        (if range.1 = 0 ∨ blockNum < range.1 then blockNum else range.1,
         if blockNum > range.2 then blockNum else range.2)) range).1 ≤
      (numbers.foldl (fun range blockNum =>
        (if range.1 = 0 ∨ blockNum < range.1 then blockNum else range.1,
         if blockNum > range.2 then blockNum else range.2)) range).2 := by
    intro numbers
    induction numbers with
    | nil => exact fun range hRange => hRange
    | cons n numbers ih =>
      intro range hRange
      refine ih _ ?_
      dsimp only
      split <;> split <;> omega
  exact hFold blocksForBatch (0, 0) (Nat.le_refl 0)

theorem getLast?_blockNumbers (hLe : fromBlock ≤ toBlock) :
    (blockNumbers fromBlock toBlock).getLast? = some toBlock := by
  have hCount : toBlock + 1 - fromBlock = (toBlock - fromBlock) + 1 := by omega
  rw [blockNumbers, hCount, List.range'_concat, List.getLast?_concat]
  congr 1
  omega

theorem map_number_of_mapM (db : Db) {numbers : List Nat} {blocks : List Block}
    (hRead : numbers.mapM (fun n => deref (db.readBlockByNumber n)) = .ok blocks) :
    blocks.map Block.number = numbers := by
  induction numbers generalizing blocks with
  | nil =>
    cases hRead
    rfl
  | cons n numbers ih =>
    rw [List.mapM_cons] at hRead
    obtain ⟨block, hBlock, hRead⟩ := except_bind_eq_ok hRead
    obtain ⟨rest, hRest, hRead⟩ := except_bind_eq_ok hRead
    cases hRead
    cases hNumber : db.readBlockByNumber n with
    | none => simp [hNumber, deref] at hBlock
    | some found =>
      rw [hNumber] at hBlock
      cases hBlock
      rw [List.map_cons, ih hRest, db.number_eq n _ hNumber]

theorem shape_blockLists {forkId batchNumber : Nat} {blocks : List Block}
    {parts : List (List Entry)}
    (hParts : List.Forall₂ (IsBlockList db forkId batchNumber) blocks parts) :
    Shape parts.flatten (blocks.map Block.number) [] [] := by
  induction hParts with
  | nil => exact shape_nil
  | @cons block part blocks parts hPart hParts ih =>
    rcases hPart with ⟨lastBlock, txs, times, rfl⟩
    exact (shape_blockList db _ _ _ _ _ _).append ih

theorem shape_wholeBatchEntries {batchNum fromBlockNum toBlockNum : Nat}
    (hEntries : wholeBatchEntries chainId db batchNum fromBlockNum toBlockNum = .ok (es.map some)) :
    ∃ starts ends, Shape es (blockNumbers fromBlockNum toBlockNum) starts ends ∧
      starts.getLast? = some batchNum ∧ ends.getLast? = some batchNum := by
  unfold wholeBatchEntries at hEntries
  cases hRead : (blockNumbers fromBlockNum toBlockNum).mapM
      (fun n => deref (db.readBlockByNumber n)) with
  | error e => simp [hRead] at hEntries
  | ok blocks =>
  simp only [hRead, ok_bind] at hEntries
  have hNumbers := map_number_of_mapM db hRead
  cases blocks with
  | nil => cases hEntries
  | cons block blocks =>
  cases hPrev : db.readBlockByNumber (sub64 block.number 1) with
  | none =>
    simp [buildWholeBatchStreamEntriesProto, sliceIndex,
      createBatchStartEntriesProto_eq, hPrev, deref] at hEntries
  | some lastBlock =>
  rw [buildWholeBatch_eq db chainId batchNum batchNum block blocks _ _ hPrev] at hEntries
  cases hWritten : wholeBatchBlocks db _ (db.getForkId batchNum) batchNum lastBlock
      (fun _ => 0) (block :: blocks) with
  | error e =>
    rw [hWritten] at hEntries
    cases hEntries
  | ok written =>
  rcases wholeBatchBlocks_parts db hWritten with ⟨parts, hParts, hBlocks⟩
  have hShape := shape_blockLists hBlocks
  rw [hNumbers] at hShape
  simp only [hWritten, Except.map, hParts, Except.ok.injEq] at hEntries
  have hEs := congrArg List.reduceOption hEntries
  simp only [List.reduceOption, List.filterMap_append,
    List.filterMap_map, List.filterMap_replicate_of_none,
    Function.comp_def, id_eq, List.filterMap_some, List.append_nil] at hEs
  subst hEs
  exact ⟨_, _, (shape_batchStartList db _ _ _ _ _ _).append (hShape.close _ _ _ _), by simp,
    by simp⟩

/- A whole batch that is written sets all copies right. -/
theorem writeWholeBatchToStream_cases (s : Server) (chainId : Nat) (db : Db) (stop : Option Failure)
    (prevBatchNum batchNum : Nat) {unwound written : Except Failure Unit × Server}
    (hUnwind : s.unwindIfNecessary db
      (blockRange (db.getL2BlockNosByBatch batchNum)).1 prevBatchNum batchNum = unwound)
    (hWritten : s.writeWholeBatchToStream chainId db stop prevBatchNum batchNum = written) :
    (written.1 = .ok () ∧ ∃ (es : List Entry) (last : Nat),
        Wrote unwound.2 es (some last) (some batchNum) (some batchNum) written.2 ∧
        TxsFollow es ∧ lastOf blockOf es = some last ∧
        lastOf startedOf es = some batchNum ∧ lastOf endedOf es = some batchNum) ∨
    (written.1 ≠ .ok () ∧ Same unwound.2 written.2) := by
  subst hWritten
  unfold writeWholeBatchToStream
  dsimp only
  rw [hUnwind]
  by_cases hUnwound : unwound.1 = .ok ()
  swap
  · rcases andThen_failed hUnwound _ with ⟨hFails, hSame⟩
    exact Or.inr ⟨hFails, hSame ▸ Same.refl _⟩
  rw [andThen_ok hUnwound]
  cases stop with
  | some e => exact Or.inr ⟨by simp, Same.refl _⟩
  | none =>
  cases hEntries : wholeBatchEntries chainId db batchNum
      (blockRange (db.getL2BlockNosByBatch batchNum)).1
      (blockRange (db.getL2BlockNosByBatch batchNum)).2 with
  | error e => exact Or.inr ⟨by simp, Same.refl _⟩
  | ok entries =>
  rcases commitEntries_cases unwound.2 entries
    (some (blockRange (db.getL2BlockNosByBatch batchNum)).2)
    (some batchNum) (some batchNum) with ⟨es, rfl, hOk, hWrote⟩ | ⟨-, hPanic, hSame⟩
  · rcases shape_wholeBatchEntries hEntries with ⟨_, _, hShape, hStart, hEnd⟩
    exact Or.inl ⟨hOk, es, _, hWrote, hShape.txs,
      hShape.lastOf_blockOf.trans (getLast?_blockNumbers (blockRange_le _)),
      hShape.lastOf_startedOf.trans hStart, hShape.lastOf_endedOf.trans hEnd⟩
  · exact Or.inr ⟨by simp [hPanic], hSame⟩

-- One call

/- A head after a commit behind an unwinding. -/
theorem Right.wrote {base t : Server} (hTxs : TxsFollow base.entries)
    {block batch closed : Option Nat} (hWrote : Wrote base es block batch closed t)
    (hEs : TxsFollow es)
    (hBlock : HeadOk (block.or base.highestBlockWritten) blockOf (base.entries ++ es))
    (hSeen : BlockSeen (block.or base.highestBlockWritten) (base.entries ++ es))
    (hBatch : HeadOk (batch.or base.highestBatchWritten) startedOf (base.entries ++ es))
    (hClosed : HeadOk (closed.or base.highestClosedBatchWritten) endedOf (base.entries ++ es)) :
    Right t := by
  refine ⟨?_, ?_, ?_, ?_, ?_⟩
  · rw [hWrote.block, hWrote.entries]
    exact hBlock
  · rw [hWrote.block, hWrote.entries]
    exact hSeen
  · rw [hWrote.batch, hWrote.entries]
    exact hBatch
  · rw [hWrote.closed, hWrote.entries]
    exact hClosed
  · rw [hWrote.entries]
    exact hTxs.append hEs

theorem blockSeen_some (number : Nat) (copy : Option Nat) (entries : List Entry) :
    BlockSeen ((some number).or copy) entries := by
  intro hNone
  cases hNone

/- The last entry of a kind is among those that are added. -/
theorem headOk_added {f : Entry → Option Nat} {number : Nat} (hLast : lastOf f es = some number)
    (entries : List Entry) (copy : Option Nat) :
    HeadOk ((some number).or copy) f (entries ++ es) := by
  refine headOk_set ?_ copy
  rw [lastOf_append, hLast]
  rfl

theorem left_unwindIfNecessary (hTxs : TxsFollow s.entries) (db : Db)
    (blockNum prevBlockBatchNum batchNum : Nat) {t : Server}
    (hUnwound : (s.unwindIfNecessary db blockNum prevBlockBatchNum batchNum).2 = t) :
    TxsFollow t.entries ∧ t.highestClosedBatchWritten = s.highestClosedBatchWritten := by
  subst hUnwound
  rcases s.unwindIfNecessary_cases db blockNum prevBlockBatchNum batchNum with
    ⟨-, hSame⟩ | ⟨-, hSame⟩ | ⟨entryNum, -, -, -, hCut⟩
  · rw [hSame]
    exact ⟨hTxs, rfl⟩
  · rw [hSame]
    exact ⟨hTxs, rfl⟩
  · rw [hCut]
    exact ⟨hTxs.take entryNum, rfl⟩

section

variable (hRight : Right s)

include hRight

theorem Right.writeWholeBatch {prevBatchNum batchNum : Nat}
    (hFine : (Call.writeWholeBatch db stop prevBatchNum batchNum).Fine chainId s) :
    Right (s.writeWholeBatchToStream chainId db stop prevBatchNum batchNum).2 := by
  rcases s.writeWholeBatchToStream_cases chainId db stop prevBatchNum batchNum rfl rfl with
    ⟨-, es, last, hWrote, hEs, hBlock, hStarted, hEnded⟩ | ⟨hFails, hSame⟩
  · exact Right.wrote (left_unwindIfNecessary hRight.txs db _ _ _ rfl).1 hWrote hEs
      (headOk_added hBlock _ _) (blockSeen_some _ _ _)
      (headOk_added hStarted _ _) (headOk_added hEnded _ _)
  · rcases hFine with hOk | hAhead
    · exact absurd hOk hFails
    · rw [unwindIfNecessary_of_ahead hAhead] at hSame
      exact hRight.of_same hSame

/- What a block on its own adds. -/
omit hRight in
theorem shape_startsBefore (chainId : Nat) (db : Db) (batchNum prevBlockBatchNum : Nat)
    (block : Block) : Shape (startsBefore chainId db batchNum prevBlockBatchNum block) []
      (if prevBlockBatchNum = batchNum then [] else
        workingBatches prevBlockBatchNum (sub64 batchNum prevBlockBatchNum) ++ [batchNum])
      (if prevBlockBatchNum = batchNum then [] else
        workingBatches prevBlockBatchNum (sub64 batchNum prevBlockBatchNum)) := by
  unfold startsBefore
  split
  · exact shape_nil
  · exact shape_batchStartList db _ _ _ _ _ _

theorem Right.writeBlock {forkId batchNum prevBlockBatchNum : Nat} {prevBlock block : Block}
    (hFine : (Call.writeBlock db stop forkId batchNum
      prevBlockBatchNum prevBlock block).Fine chainId s) :
    Right (s.writeBlockWithBatchStartToStream chainId db stop
      forkId batchNum prevBlockBatchNum prevBlock block).2 := by
  have hShape := (shape_startsBefore chainId db batchNum prevBlockBatchNum block).append
    (shape_blockList db block prevBlock block.transactions forkId batchNum fun _ => 0)
  simp only [List.nil_append, List.append_nil] at hShape
  rcases s.writeBlockWithBatchStartToStream_cases chainId db
    stop forkId batchNum prevBlockBatchNum prevBlock block rfl rfl with
    ⟨-, -, hWrote⟩ | ⟨hFails, hSame⟩
  · have hStarted : prevBlockBatchNum = batchNum →
        Call.startedBefore s db block.number prevBlockBatchNum batchNum = batchNum := by
      rcases hFine with ⟨-, -, hStarted⟩ | ⟨-, -, hStarted⟩
      · exact hStarted
      · exact hStarted
    refine Right.wrote (left_unwindIfNecessary hRight.txs db _ _ _ rfl).1 hWrote hShape.txs
      (headOk_added hShape.lastOf_blockOf _ _) (blockSeen_some _ _ _) (headOk_set ?_ _) ?_
    · rw [lastOf_append, hShape.lastOf_startedOf]
      by_cases hBatch : prevBlockBatchNum = batchNum
      · rw [if_pos hBatch]
        exact hStarted hBatch
      · rw [if_neg hBatch, List.getLast?_concat]
        rfl
    · rw [(left_unwindIfNecessary hRight.txs db _ _ _ rfl).2]
      rcases hFine with ⟨hAhead, hEnds, -⟩ | ⟨-, hNone, -⟩
      · rw [unwindIfNecessary_of_ahead hAhead]
        refine hRight.closed.append (hEnds.imp_right fun hEnds => ?_)
        rw [hShape.lastOf_endedOf]
        rcases hEnds with hBatch | hNone
        · rw [if_pos hBatch]
          rfl
        · rw [hNone, ite_self]
          rfl
      · rw [hNone]
        exact headOk_none _ _
  · rcases hFine with ⟨hAhead, -, -⟩ | ⟨hOk, -, -⟩
    · rw [unwindIfNecessary_of_ahead hAhead] at hSame
      exact hRight.of_same hSame
    · exact absurd hOk hFails

omit hRight in
theorem mem_blockNumbers {n fromBlock toBlock : Nat} :
    n ∈ blockNumbers fromBlock toBlock ↔ fromBlock ≤ n ∧ n ≤ toBlock := by
  rw [blockNumbers, List.mem_range'_1]
  omega

/- All blocks are written and their batch is closed. -/
omit hRight in
theorem Right.writeBlocks_fine {base t : Server} (hTxs : TxsFollow base.entries)
    {interrupt : Nat → Option Interrupt} (hBase : base = (s.unwound db fromBlock).2)
    (hFine : Call.BlocksFine s db interrupt fromBlock toBlock)
    (hBuilds : Builds chainId db (base.startVars db fromBlock) (blockNumbers fromBlock toBlock))
    (hPass : pass chainId db (base.startVars db fromBlock)
      (blockNumbers fromBlock toBlock) = es.map some)
    (hWrote : Wrote base es (some toBlock) (some (db.getBatchNoByL2Block fromBlock))
      (some ((base.startVars db fromBlock).after db
      (blockNumbers fromBlock toBlock)).latestBatchNum) t) : Right t := by
  have hLast := getLast?_blockNumbers hFine.some
  have hBatch : ∀ n ∈ blockNumbers fromBlock toBlock,
      db.getBatchNoByL2Block n = db.getBatchNoByL2Block fromBlock := by
    intro n hn
    rcases mem_blockNumbers.mp hn with ⟨hFrom, hTo⟩
    exact hFine.batch n hFrom hTo
  have hSome : blockNumbers fromBlock toBlock ≠ [] := by
    intro hNil
    rw [hNil] at hLast
    cases hLast
  rcases shape_pass hBuilds hPass with ⟨_, _, hShape⟩
  refine Right.wrote hTxs hWrote hShape.txs
    (headOk_added (hShape.lastOf_blockOf.trans hLast) _ _) (blockSeen_some _ _ _)
    (headOk_set ?_ _) (headOk_added ?_ _ _)
  · rw [lastOf_append, lastOf_startedOf_pass hBuilds hPass hBatch hSome]
    by_cases hGap : sub64 (db.getBatchNoByL2Block fromBlock)
        (db.getBatchNoByL2Block (sub64 fromBlock 1)) > 0
    · simp only [startVars, hGap, if_true]
      rfl
    · simp only [startVars, hGap, if_false]
      rw [hBase]
      exact hFine.started (by omega)
  · rw [lastOf_endedOf_pass hBuilds hPass hLast hFine.last hFine.ended,
      Vars.latestBatchNum_after _ hLast]

/- A call without blocks sets the copies to what they say. -/
theorem Right.writeBlocks_empty {t : Server} (hEmpty : Call.RangeEmpty s db fromBlock toBlock)
    (hWrote : Wrote s [] (some toBlock) (some (db.getBatchNoByL2Block fromBlock))
      (some (db.getBatchNoByL2Block (sub64 fromBlock 1))) t) : Right t := by
  refine Right.wrote hRight.txs hWrote (txsFollow_of_none (by simp)) (headOk_set ?_ _)
    (blockSeen_some _ _ _) (headOk_set ?_ _) (headOk_set ?_ _)
  · rw [List.append_nil]
    exact hEmpty.block
  · rw [List.append_nil]
    exact hEmpty.batch
  · rw [List.append_nil]
    exact hEmpty.closed

/- Blocks are committed by a call that fails later. -/
theorem Right.writeBlocks_failed {t : Server}
    (hClean : Call.FailsClean chainId s db fromBlock toBlock) {done : List Nat}
    (hDone : done <+: blockNumbers fromBlock toBlock)
    (hPassed : Passed chainId db ⟨s, [], s.startVars db fromBlock⟩ done t) : Right t := by
  rcases hPassed.stream with hStream | ⟨hLength, hBuilds, es, hEs, hStream⟩
  · exact hRight.of_same ⟨hStream, hPassed.block, hPassed.closed, hPassed.batch⟩
  rw [List.nil_append] at hLength hEs
  rcases hClean.2 with ⟨hBlock, hBatch, hClosed⟩ | hShort
  · rcases shape_pass hBuilds hEs with ⟨_, _, hShape⟩
    have hSome : done.getLast? ≠ none := by
      intro hNone
      rw [List.getLast?_eq_none_iff.mp hNone] at hLength
      simp [pass, commitEntryCountLimit] at hLength
    refine ⟨?_, ?_, ?_, ?_, ?_⟩
    · rw [hPassed.block.trans hBlock]
      exact headOk_none _ _
    · intro _
      right
      rcases Option.ne_none_iff_exists'.mp hSome with ⟨last, hEq⟩
      rw [hStream, lastOf_append, hShape.lastOf_blockOf, hEq]
      simp
    · rw [hPassed.batch.trans hBatch]
      exact headOk_none _ _
    · rw [hPassed.closed.trans hClosed]
      exact headOk_none _ _
    · rw [hStream]
      exact hRight.txs.append hShape.txs
  · rcases hDone with ⟨rest, hRest⟩
    rw [← hRest, pass_append hBuilds, List.length_append] at hShort
    exact absurd hLength (by
      change ¬ commitEntryCountLimit ≤ _
      omega)

theorem Right.writeBlocks {interrupt : Nat → Option Interrupt}
    (hFine : (Call.writeBlocks db stop interrupt fromBlock toBlock).Fine chainId s) :
    Right (s.writeBlocksToStreamConsecutively chainId db stop interrupt fromBlock toBlock).2 := by
  unfold Call.Fine at hFine
  unfold writeBlocksToStreamConsecutively at hFine ⊢
  rcases hFine with ⟨hOk, hFine⟩ | ⟨hFails, hClean⟩
  · by_cases hUnwound : (s.unwound db fromBlock).1 = .ok ()
    swap
    · exact absurd hOk (andThen_failed hUnwound _).1
    rw [andThen_ok hUnwound] at hOk ⊢
    rcases writeBlocksFrom_ok hOk with ⟨done, es, hReached, hBuilds, hPass, hWrote⟩
    rcases hFine with hFine | hEmpty
    · have hAll : done = blockNumbers fromBlock toBlock := by
        rcases hReached with hAll | ⟨n, later, hEq, hCancel⟩
        · exact hAll
        · have hMem : n ∈ blockNumbers fromBlock toBlock := by
            rw [hEq]
            simp
          rcases mem_blockNumbers.mp hMem with ⟨hFrom, hTo⟩
          exact absurd hCancel (hFine.written n hFrom hTo)
      subst hAll
      exact Right.writeBlocks_fine (left_unwindIfNecessary hRight.txs db _ _ _ rfl).1
        rfl hFine hBuilds hPass hWrote
    · have hSame : (s.unwound db fromBlock).2 = s :=
        congrArg Prod.snd (unwindIfNecessary_of_ahead hEmpty.ahead db _ _)
      have hNone : blockNumbers fromBlock toBlock = [] := by
        have hLt := hEmpty.empty
        rw [blockNumbers, show toBlock + 1 - fromBlock = 0 by omega]
        rfl
      have hDone : done = [] := by
        rw [hNone] at hReached
        rcases hReached with hNil | ⟨n, later, hEq, -⟩
        · exact hNil
        · simp at hEq
      subst hDone
      cases List.map_eq_nil_iff.mp hPass.symm
      rw [hSame] at hWrote ⊢
      exact hRight.writeBlocks_empty hEmpty hWrote
  · have hAhead := unwindIfNecessary_of_ahead hClean.1 db
      (db.getBatchNoByL2Block (sub64 fromBlock 1)) (db.getBatchNoByL2Block fromBlock)
    change s.unwound db fromBlock = (.ok (), s) at hAhead
    rw [hAhead] at hFails ⊢
    rw [andThen_ok rfl] at hFails ⊢
    rcases writeBlocksFrom_failed hFails with ⟨done, hDone, hPassed⟩
    exact hRight.writeBlocks_failed hClean hDone hPassed

theorem Right.writeBatchEnd {batchNumber : Nat} {stateRoot localExitRoot : Hash}
    (hFine : (Call.writeBatchEnd db stop batchNumber stateRoot localExitRoot).Fine chainId s) :
    Right (s.writeBatchEnd db stop batchNumber stateRoot localExitRoot).2 := by
  have hClosed := hRight.getHighestClosedBatch
  have hSame : s.getHighestClosedBatch.2.highestBlockWritten =
      s.highestBlockWritten ∧ s.getHighestClosedBatch.2.entries = s.entries := by
    unfold Server.getHighestClosedBatch
    cases s.highestClosedBatchWritten <;> exact ⟨rfl, rfl⟩
  unfold Server.writeBatchEnd
  cases stop with
  | some e => exact hClosed
  | none =>
  rcases commitEntries_ok s.getHighestClosedBatch.2
    (addBatchEndEntriesProto batchNumber stateRoot
      (db.getBatchGlobalExitRootsProto s.getHighestClosedBatch.1 batchNumber)
      localExitRoot) none none (some batchNumber) with
    ⟨-, hWrote⟩
  have hShape := shape_addBatchEndEntriesProto batchNumber
    stateRoot (db.getBatchGlobalExitRootsProto s.getHighestClosedBatch.1 batchNumber) localExitRoot
  refine Right.wrote hClosed.txs hWrote hShape.txs
    (hClosed.block.append (Or.inr hShape.lastOf_blockOf)) ?_
    (hClosed.batch.append (Or.inr hShape.lastOf_startedOf))
    (headOk_added hShape.lastOf_endedOf _ _)
  intro hCopy
  right
  rw [lastOf_append, hShape.lastOf_blockOf, hSame.2]
  rcases hFine rfl with hSome | hSome
  · exact absurd (hSame.1.symm.trans hCopy) hSome
  · exact hSome

theorem Right.unwindTo {mark : BookMark} (hFine : Call.CutFine s mark) :
    Right (s.unwindTo mark).2 := by
  rcases s.unwindTo_cases mark with ⟨-, hSame⟩ | ⟨entryNum, hMark, hLength, hCut⟩
  · rw [hSame]
    exact hRight
  · rw [hCut]
    rcases hFine entryNum hMark hLength with ⟨hBlock, hBatch, hClosed, hSeen⟩
    exact ⟨hRight.block.take hBlock, hSeen,
      hRight.batch.take hBatch, hRight.closed.take hClosed, hRight.txs.take entryNum⟩

/- Each call keeps the copies right. -/
theorem Right.run {call : Call} (hFine : call.Fine chainId s) : Right (call.run chainId s).2 := by
  cases call with
  | writeWholeBatch db stop prevBatchNum batchNum => exact hRight.writeWholeBatch hFine
  | writeBlocks db stop interrupt fromBlock toBlock => exact hRight.writeBlocks hFine
  | writeBlock db stop forkId batchNum prevBlockBatchNum prevBlock block =>
    exact hRight.writeBlock hFine
  | writeBatchEnd db stop batchNumber stateRoot localExitRoot => exact hRight.writeBatchEnd hFine
  | unwindToBlock blockNumber => exact hRight.unwindTo hFine
  | unwindToBatchStart batchNumber => exact hRight.unwindTo hFine
  | getHighestBatchNumber => exact hRight.getHighestBatchNumber
  | getHighestClosedBatch => exact hRight.getHighestClosedBatch
  | restart => exact ⟨headOk_none _ _, hFine, headOk_none _ _, headOk_none _ _, hRight.txs⟩

end

/- The states of a run in which each call is fine. -/
inductive Reached (chainId : Nat) : Server → Prop where
  | empty : Reached chainId Server.empty
  | call {s : Server} (call : Call) (hReached : Reached chainId s) (hFine : call.Fine chainId s) :
      Reached chainId (call.run chainId s).2

theorem right_empty : Right Server.empty := ⟨headOk_none _ _, fun _ => Or.inl rfl, headOk_none _ _,
    headOk_none _ _, txsFollow_of_none (by simp [empty])⟩

theorem Reached.right (hReached : Reached chainId s) : Right s := by
  induction hReached with
  | empty => exact right_empty
  | call call hReached hFine ih => exact ih.run hFine

def firstBlock : Call := .writeBlock plainDb none 1 1 0 (sampleBlock 0) (sampleBlock 1)

end Server

end XLayerErigon.DataStream
