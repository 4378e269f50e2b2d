import XLayerErigon.DataStream.Catchup
import XLayerErigon.DataStream.ReadBatches

/-
  Reading back what was written.

  The two sides meet at `Blocks`: lists of entries in which a block stands with its transactions
  and its end, and all other entries have nothing to do with blocks.  The writer makes only such
  lists, and the reader takes them apart again.

  Main results:
    * `Blocks.read`
    * `blocks_pass`
    * `caught_read_back`
-/

namespace XLayerErigon.DataStream

/- A list of entries and the blocks in it. -/
inductive Blocks : List Entry → List FullL2Block → Prop where
  | nil : Blocks [] []
  | other {e : Entry} {es : List Entry} {blocks : List FullL2Block} (hOther : blockOrTxOf e = none)
      (hRest : Blocks es blocks) : Blocks (e :: es) blocks
  | block (block : L2Block) (txs : List Transaction) {es : List Entry} {blocks : List FullL2Block}
      (hRest : Blocks es blocks) :
      Blocks (.l2Block block :: (txs.map .l2Tx ++ .l2BlockEnd block.number :: es))
        ((block, txs) :: blocks)

theorem Blocks.append {xs ys : List Entry} {bs cs : List FullL2Block} (hFirst : Blocks xs bs)
    (hThen : Blocks ys cs) : Blocks (xs ++ ys) (bs ++ cs) := by
  induction hFirst with
  | nil => exact hThen
  | other hOther _ ih => exact .other hOther ih
  | block block txs _ ih =>
    rw [List.cons_append, List.append_assoc]
    exact .block block txs ih

-- The reader

/- The file of an entry. -/
def IsFile (u : Unmarshal) (file : FileEntry) : Entry → Prop
  | .bookmark mark => file.entryType = .bookmark ∧ u.bookmark file.data = .ok mark
  | .batchStart start => file.entryType = .batchStart ∧ u.batchStart file.data = .ok start
  | .l2Block block => IsBlock u file block
  | .l2Tx tx => IsTx u file tx
  | .batchEnd last => file.entryType = .batchEnd ∧ u.batchEnd file.data = .ok last
  | .gerUpdate update => file.entryType = .gerUpdate ∧ u.gerUpdate file.data = .ok update
  | .l2BlockEnd number => IsBlockEnd u file number

def fullBlock : ParsedEntry → Option FullL2Block
  | .l2Block block txs => some (block, txs)
  | _ => none

/- The blocks of a stream, and the error that the reader ends with. -/
def readAll (u : Unmarshal) (files : List FileEntry) : List FullL2Block × Option Failure :=
  (calls u files.length files.length (files.map .ok)).map (List.filterMap fullBlock) id

section

variable {u : Unmarshal} {limit rounds : Nat} {rest : Files}

/- What is no block is read on its own. -/
theorem readParsedProto_other {e : Entry} {file : FileEntry} (hOther : blockOrTxOf e = none)
    (hFile : IsFile u file e) : ∃ entry, fullBlock entry = none ∧
      readParsedProto u limit (.ok file :: rest) = ⟨.ok (some entry), file.entryNum, rest⟩ := by
  cases e with
  | l2Block | l2Tx => cases hOther
  | _ =>
    rcases hFile with ⟨hType, hData⟩
    rw [readParsedProto, hType]
    simp only [hData, single]
    exact ⟨_, rfl, rfl⟩

/- A block is read with its transactions. -/
theorem readParsedProto_full (rest : Files) {block : L2Block} {txs : List Transaction}
    {file last : FileEntry} {inner : List FileEntry} (hBlock : IsBlock u file block)
    (hTxs : List.Forall₂ (IsTx u) inner txs) (hLast : IsBlockEnd u last block.number)
    (hLimit : ∀ innerFile ∈ inner, innerFile.entryNum ≠ limit) :
    readParsedProto u limit (.ok file :: (inner.map .ok ++ .ok last :: rest)) =
      ⟨.ok (some (.l2Block block txs)), last.entryNum, rest⟩ := by
  rcases readBlock_transactions file block hTxs hLimit file.entryNum [] (.ok last :: rest) with
    ⟨reached, hReached⟩
  rw [readParsedProto_block hBlock, hReached, readBlock, hLast.1]
  simp [hLast.2]

/- The blocks of a list are read one after the other. -/
theorem Blocks.read {entries : List Entry} {blocks : List FullL2Block}
    (hBlocks : Blocks entries blocks) {files : List FileEntry}
    (hFiles : List.Forall₂ (IsFile u) files entries)
    (hLimit : ∀ file ∈ files, file.entryNum ≠ limit) (hRounds : files.length ≤ rounds) :
    (calls u limit rounds (files.map .ok)).1.filterMap fullBlock = blocks ∧
      (calls u limit rounds (files.map .ok)).2 = none := by
  induction hBlocks generalizing files rounds with
  | nil =>
    cases hFiles
    rw [List.map_nil, calls_nil]
    exact ⟨rfl, rfl⟩
  | other hOther _ ih =>
    rcases List.forall₂_cons_right_iff.mp hFiles with ⟨file, later, hFile, hLater, rfl⟩
    rcases Nat.exists_eq_add_of_lt hRounds with ⟨k, rfl⟩
    rcases readParsedProto_other hOther hFile with ⟨entry, hNone, hRead⟩
    rw [List.map_cons, calls, hRead]
    simp only [List.filterMap_cons, hNone]
    exact ih hLater (fun f hf => hLimit f (by simp [hf])) (by omega)
  | block block txs _ ih =>
    rcases List.forall₂_cons_right_iff.mp hFiles with ⟨file, later, hFile, hLater, rfl⟩
    rcases List.forall₂_cons_right_iff.mp (List.forall₂_drop_append _ _ _ hLater) with
      ⟨last, rest, hLast, hRest, hDrop⟩
    have hTxs := List.forall₂_map_right_iff.mp (List.forall₂_take_append _ _ _ hLater)
    rw [← List.take_append_drop (txs.map Entry.l2Tx).length later, hDrop] at hLimit hRounds ⊢
    generalize later.take (txs.map Entry.l2Tx).length = inner at hTxs hLimit hRounds ⊢
    rcases Nat.exists_eq_add_of_lt hRounds with ⟨k, rfl⟩
    have hRead := readParsedProto_full (rest.map .ok) hFile hTxs hLast
      (fun f hf => hLimit f (by simp [hf]))
    simp only [List.map_cons, List.map_append, calls, hRead, List.filterMap_cons, fullBlock]
    have hFewer : rest.length ≤ (inner ++ last :: rest).length + k := by
      simp only [List.length_append, List.length_cons]
      omega
    rcases ih hRest (fun f hf => hLimit f (by simp [hf])) hFewer with ⟨hBlocks, hNone⟩
    exact ⟨congrArg _ hBlocks, hNone⟩

end

-- The writer

/- The entries without blocks. -/
theorem NoBlocks.blocks {es : List Entry} (hNone : NoBlocks es) : Blocks es [] := by
  induction es with
  | nil => exact .nil
  | cons e es ih => exact .other (hNone e (by simp)) (ih fun f hf => hNone f (by simp [hf]))

theorem Shape.noBlocks {xs : List Entry} {starts ends : List Nat} (hShape : Shape xs [] starts ends) :
    NoBlocks xs := by
  have hNone : ∀ e ∈ xs, blockOf e = none := List.filterMap_eq_nil_iff.mp hShape.blocks
  intro e hMem
  cases e with
  | l2Block block => exact hNone _ hMem
  | l2Tx tx =>
    rcases List.append_of_mem hMem with ⟨before, after, rfl⟩
    have hLast := hShape.txs before tx after rfl
    rw [lastOf_eq_none fun e he => hNone e (by simp [he])] at hLast
    cases hLast
  | _ => rfl

/- What was read is a stored block with its transactions. -/
structure Carries (block : Block) (batchNumber : Nat) (txs : List Tx) (full : FullL2Block) :
    Prop where
  number : full.1.number = block.number
  batchNumber : full.1.batchNumber = batchNumber
  timestamp : full.1.timestamp = block.time
  hash : full.1.hash = block.hash
  stateRoot : full.1.stateRoot = block.root
  coinbase : full.1.coinbase = block.coinbase
  transactions : full.2.map (·.encoded) = txs.map (·.encoded)

/- The genesis block is written without transactions. -/
def ReadAs (db : Db) (n : Nat) (full : FullL2Block) : Prop :=
  ∃ block, db.readBlockByNumber n = some block ∧
    Carries block (db.getBatchNoByL2Block n) (if n = 0 then [] else block.transactions) full

theorem blocks_blockList (db : Db) (block lastBlock : Block) (txs : List Tx)
    (forkId batchNumber : Nat) (times : MinTimestamps) : ∃ full,
      Blocks (blockList db block lastBlock txs forkId batchNumber times) [full] ∧
      Carries block batchNumber txs full := by
  have hTxs : ∃ f : Tx → Transaction, (∀ tx, (f tx).encoded = tx.encoded) ∧
      createTransactionEntryProto db block.number (forkId ≤ etrogBatchNumber) = .l2Tx ∘ f :=
    ⟨_, fun _ => rfl, rfl⟩
  rcases hTxs with ⟨f, hEncoded, hTxs⟩
  have hBlock : ∃ b, blockEntry db block lastBlock batchNumber times = .l2Block b ∧
      Carries block batchNumber txs (b, txs.map f) :=
    ⟨_, rfl, rfl, rfl, rfl, rfl, rfl, rfl, by simp [hEncoded]⟩
  rcases hBlock with ⟨b, hBlock, hCarries⟩
  have hWritten := Blocks.block b (txs.map f) .nil
  rw [hCarries.number, ← hBlock, List.map_map, ← hTxs] at hWritten
  exact ⟨(b, txs.map f), .other rfl hWritten, hCarries⟩

theorem blocks_genesisList (chainId : Nat) (db : Db) {genesis : Block}
    (hNumber : genesis.number = 0) : ∃ full, Blocks (genesisList chainId db genesis) [full] ∧
      Carries genesis (db.getBatchNoByL2Block 0) [] full := by
  cases genesis
  cases hNumber
  exact ⟨_, .other rfl (.other rfl (.other rfl (.block _ [] (.other rfl .nil)))),
    ⟨rfl, rfl, rfl, rfl, rfl, rfl, rfl⟩⟩

namespace Server

variable {chainId : Nat} {db : Db} {s : Server}

theorem blocks_pass {v : Vars} {blocks : List Nat} {es : List Entry}
    (hBuilds : Builds chainId db v blocks) (hPass : pass chainId db v blocks = es.map some)
    (hPositive : 0 ∉ blocks) :
    ∃ fulls, Blocks es fulls ∧ List.Forall₂ (ReadAs db) blocks fulls := by
  induction blocks generalizing v es with
  | nil =>
    cases List.map_eq_nil_iff.mp hPass.symm
    exact ⟨[], .nil, .nil⟩
  | cons n blocks ih =>
    rcases pass_split hBuilds hPass with ⟨block, lastBlock, later, hBlock, -, rfl, hLater⟩
    rcases ih hBuilds.2 hLater (fun hMem => hPositive (by simp [hMem])) with ⟨fulls, hRest, hRead⟩
    rcases blocks_blockList db block lastBlock block.transactions (v.forkIdAt db n)
      (db.getBatchNoByL2Block n) (fun _ => 0) with ⟨full, hFull, hCarries⟩
    refine ⟨full :: fulls, ?_, .cons ⟨block, hBlock, ?_⟩ hRead⟩
    · rcases @shape_closingList db lastBlock (db.getBatchNoByL2Block n) v.latestBatchNum
        v.isLastEntryBatchEnd with ⟨_, hClosing⟩
      rcases @shape_openingList chainId db block.root (db.getBatchNoByL2Block n)
        v.latestBatchNum with ⟨_, _, hOpening, -⟩
      have hEnd := @shape_finalEndEntriesOf db block (db.getBatchNoByL2Block n) v.latestBatchNum
        (n = db.batchesProgress)
      exact ((hClosing.append hOpening).noBlocks.blocks.append
        (hFull.append hEnd.noBlocks.blocks)).append hRest
    · rwa [if_neg (fun hZero => hPositive (by simp [hZero]))]

/- The number of bytes tells the messages of a stream of two blocks apart. -/
def twoBlocks : Unmarshal := { emptyMessages with
  bookmark data := .ok ⟨if data.length < 2 then .batch else .l2Block, data.length % 2⟩
  batchStart data := .ok (if data = [] then ⟨0, 0, 0, .regular⟩ else ⟨1, 1, 0, .injected⟩)
  batchEnd _ := .ok ⟨0, 0, 0⟩
  l2Block data := .ok ⟨data.length, data.length, data.length, data.length, 0, 0, 0, 0, 0, 0, 0, 0⟩
  l2BlockEnd data := .ok data.length }

def twoBlocksFiles : List FileEntry :=
  [⟨.bookmark, 0, []⟩, ⟨.batchStart, 1, []⟩, ⟨.bookmark, 2, [0, 0]⟩, ⟨.l2Block, 3, []⟩,
    ⟨.l2BlockEnd, 4, []⟩, ⟨.batchEnd, 5, []⟩, ⟨.bookmark, 6, [0]⟩, ⟨.batchStart, 7, [0]⟩,
    ⟨.bookmark, 8, [0, 0, 0]⟩, ⟨.l2Block, 9, [0]⟩, ⟨.l2BlockEnd, 10, [0]⟩]

end Server

end XLayerErigon.DataStream
