import XLayerErigon.DataStream.Entry

/-
  Reading the next item of the stream.

  Entries come from an iterator one by one.  A block is read together with its transactions, up to
  an entry that ends it.  Only one of the entries that end a block belongs to the block: a
  bookmark or the end of a batch is taken from the iterator and given up, and at the end of the
  stream there is no entry to look at.

  Main results:
    * `readBlock_transactions`
    * `exact_iff`
-/

namespace XLayerErigon.DataStream

-- The reader

inductive EntryType where
  | batchStart
  | l2Block
  | l2Tx
  | batchEnd
  | gerUpdate
  | l2BlockEnd
  | bookmark
  | other (code : Nat)
  deriving DecidableEq

structure FileEntry where
  entryType : EntryType
  entryNum : Nat
  data : Bytes

/- The decoders of the messages. -/
structure Unmarshal where
  bookmark : Bytes → Except String BookMark
  gerUpdate : Bytes → Except String UpdateGER
  batchStart : Bytes → Except String BatchStart
  batchEnd : Bytes → Except String BatchEnd
  l2Block : Bytes → Except String L2Block
  tx : Bytes → Except String Transaction
  l2BlockEnd : Bytes → Except String Nat

inductive ParsedEntry where
  | bookmark (mark : BookMark)
  | gerUpdate (update : UpdateGER)
  | batchStart (start : BatchStart)
  | batchEnd (last : BatchEnd)
  | l2Block (block : L2Block) (l2Txs : List Transaction)
  | l2BlockEnd (number : Nat)

/-
  What an iterator delivers, call by call.  When the list is used up it delivers no entry and no
  error.
-/
abbrev Files := List (Except String FileEntry)

/- The parsed entry, and what the iterator has left. -/
structure Reading where
  parsedEntry : Except Failure (Option ParsedEntry)
  entryNum : Nat
  rest : Files

def errReachedEntryNumberLimit : Failure := .error "reached entry number limit"

/- An error of a decoder, with the name it is passed on under. -/
def failed (caller message : String) : Failure := .error (caller ++ ": " ++ message)

/- The loop over the entries behind the entry of a block. -/
def readBlock (u : Unmarshal) (limit : Nat) (file : FileEntry) (l2Block : L2Block) :
    Nat → List Transaction → Files → Reading
  -- the entry that is not there is asked for its number
  | entryNum, _, [] => ⟨.error .panic, entryNum, []⟩
  | entryNum, _, .error e :: rest =>
      ⟨.error (failed "NextFileEntry" e), entryNum, rest⟩
  | _, txs, .ok innerFile :: rest =>
      let stop (parsedEntry) : Reading := ⟨parsedEntry, innerFile.entryNum, rest⟩
      match innerFile.entryType with
      | .l2Tx =>
        match u.tx innerFile.data with
        | .error e => stop (.error (failed "UnmarshalTx" e))
        | .ok l2Tx =>
          if innerFile.entryNum = limit then
            stop (.error errReachedEntryNumberLimit)
          else
            readBlock u limit file l2Block innerFile.entryNum (txs ++ [l2Tx]) rest
      | .l2BlockEnd =>
        match u.l2BlockEnd innerFile.data with
        | .error e =>
          stop (.error (failed "UnmarshalL2BlockEnd" e))
        | .ok number =>
          if number ≠ l2Block.number then
            stop (.error (.error "block end number (%d) not equal to block number (%d)"))
          else
            stop (.ok (some (.l2Block l2Block txs)))
      | .bookmark =>
        match u.bookmark innerFile.data with
        | .error e =>
          stop (.error (failed "UnmarshalBookmark" e))
        | .ok bookmark =>
          if bookmark.type = .l2Block then
            stop (.ok (some (.l2Block l2Block txs)))
          else
            stop (.error (.error "unexpected bookmark type inside block: %v"))
      | .batchEnd =>
        -- the data of the block, not of the end
        match u.batchEnd file.data with
        | .error e =>
          stop (.error (failed "UnmarshalBatchEnd" e))
        | .ok _ => stop (.ok (some (.l2Block l2Block txs)))
      | _ =>
        stop (.error (.error "unexpected entry type inside a block: %d"))

/- An entry that stands for itself. -/
def single {α : Type} (parsed : α → ParsedEntry) (decoded : Except String α) :
    Except Failure (Option ParsedEntry) :=
  match decoded with
  | .error e => .error (.error e)
  | .ok a => .ok (some (parsed a))

def readParsedProto (u : Unmarshal) (limit : Nat) : Files → Reading
  | [] => ⟨.ok none, 0, []⟩
  | .error e :: rest =>
      ⟨.error (failed "NextFileEntry" e), 0, rest⟩
  | .ok file :: rest =>
      let stop (parsedEntry) : Reading := ⟨parsedEntry, file.entryNum, rest⟩
      match file.entryType with
      | .bookmark =>
        stop (single .bookmark (u.bookmark file.data))
      | .gerUpdate =>
        stop (single .gerUpdate (u.gerUpdate file.data))
      | .batchStart =>
        stop (single .batchStart (u.batchStart file.data))
      | .batchEnd =>
        stop (single .batchEnd (u.batchEnd file.data))
      | .l2Block =>
        match u.l2Block file.data with
        | .error e =>
          stop (.error (failed "UnmarshalL2Block" e))
        | .ok l2Block =>
          readBlock u limit file l2Block file.entryNum [] rest
      | .l2BlockEnd =>
        match u.l2BlockEnd file.data with
        | .error e =>
          stop (.error (failed "UnmarshalL2BlockEnd" e))
        | .ok number =>
          stop (.ok (some (.l2BlockEnd number)))
      | .l2Tx =>
        stop (.error (.error "unexpected L2 tx entry, found outside of block"))
      | .other _ =>
        stop (.error (.error "unexpected entry type: %d"))

/- The entry of a transaction. -/
def IsTx (u : Unmarshal) (file : FileEntry) (tx : Transaction) : Prop :=
  file.entryType = .l2Tx ∧ u.tx file.data = .ok tx

def IsBlock (u : Unmarshal) (file : FileEntry) (block : L2Block) : Prop :=
  file.entryType = .l2Block ∧ u.l2Block file.data = .ok block

def IsBlockEnd (u : Unmarshal) (file : FileEntry) (number : Nat) : Prop :=
  file.entryType = .l2BlockEnd ∧ u.l2BlockEnd file.data = .ok number

/-
  The call returns, and a block that it returns has the transactions between its entry and its
  end, which are the entries that are gone.
-/
def Exact (u : Unmarshal) (limit : Nat) (files : Files) : Prop :=
  (readParsedProto u limit files).parsedEntry ≠ .error .panic ∧
  ∀ block txs, (readParsedProto u limit files).parsedEntry = .ok (some (.l2Block block txs)) →
    ∃ first inner last,
      files = .ok first :: (inner.map .ok ++ .ok last :: (readParsedProto u limit files).rest) ∧
      IsBlock u first block ∧ List.Forall₂ (IsTx u) inner txs ∧ IsBlockEnd u last block.number

/-
  What stands at the place where the end of a block is due and is taken for it: nothing at all,
  the bookmark of a block, or the end of a batch, as long as the data of the block can be read as
  the end of a batch.
-/
def EndsEarly (u : Unmarshal) (file : FileEntry) (rest : Files) : Prop :=
  rest = [] ∨
  ∃ innerFile later, rest = .ok innerFile :: later ∧
    ((innerFile.entryType = .bookmark ∧
        ∃ value, u.bookmark innerFile.data = .ok ⟨.l2Block, value⟩) ∨
      (innerFile.entryType = .batchEnd ∧ ∃ last, u.batchEnd file.data = .ok last))

/-
  If the first entry is a block, the entry behind its transactions is not taken for the end of the
  block.
-/
def BlockEnds (u : Unmarshal) (limit : Nat) (files : Files) : Prop :=
  ∀ file block inner txs rest, files = .ok file :: (inner.map .ok ++ rest) →
    IsBlock u file block → List.Forall₂ (IsTx u) inner txs →
    (∀ innerFile ∈ inner, innerFile.entryNum ≠ limit) → ¬ EndsEarly u file rest

-- The loop

section

variable {u : Unmarshal} {limit : Nat} {file : FileEntry}

/- Transactions are collected one after the other. -/
theorem readBlock_transactions (file : FileEntry) (block : L2Block) {inner : List FileEntry}
    {txs : List Transaction} (hTxs : List.Forall₂ (IsTx u) inner txs)
    (hLimit : ∀ innerFile ∈ inner, innerFile.entryNum ≠ limit) (entryNum : Nat)
    (before : List Transaction) (rest : Files) :
    ∃ reached, readBlock u limit file block entryNum before (inner.map .ok ++ rest) =
        readBlock u limit file block reached (before ++ txs) rest := by
  induction hTxs generalizing entryNum before with
  | nil => exact ⟨entryNum, by simp⟩
  | @cons innerFile tx inner txs hTx hTxs ih =>
    have hHere := hLimit innerFile (by simp)
    rcases ih (fun f hf => hLimit f (by simp [hf])) innerFile.entryNum (before ++ [tx]) with
      ⟨reached, hReached⟩
    refine ⟨reached, ?_⟩
    rw [List.append_assoc] at hReached
    simpa [readBlock, hTx.1, hTx.2, hHere] using hReached

/- The entries up to the first that is no transaction. -/
theorem exists_transactions (u : Unmarshal) (limit : Nat) (files : Files) :
    ∃ inner txs rest, files = List.map .ok inner ++ rest ∧
      List.Forall₂ (IsTx u) inner txs ∧ (∀ innerFile ∈ inner, innerFile.entryNum ≠ limit) ∧
      ∀ innerFile tx later,
        rest = .ok innerFile :: later → IsTx u innerFile tx → innerFile.entryNum = limit := by
  induction files with
  | nil => exact ⟨[], [], [], by simp⟩
  | cons next files ih =>
    by_cases hTx : ∃ innerFile tx,
        next = .ok innerFile ∧ IsTx u innerFile tx ∧ innerFile.entryNum ≠ limit
    · rcases hTx with ⟨innerFile, tx, rfl, hTx, hHere⟩
      rcases ih with ⟨inner, txs, rest, rfl, hTxs, hLimit, hRest⟩
      refine ⟨innerFile :: inner, tx :: txs, rest, by simp, .cons hTx hTxs, ?_, hRest⟩
      intro f hf
      rcases List.mem_cons.mp hf with rfl | hf
      · exact hHere
      · exact hLimit f hf
    · refine ⟨[], [], next :: files, by simp, .nil, by simp, ?_⟩
      intro innerFile tx later hEq hIsTx
      by_contra hHere
      rcases List.cons.inj hEq with ⟨rfl, -⟩
      exact hTx ⟨innerFile, tx, rfl, hIsTx, hHere⟩

def Ends (u : Unmarshal) (file : FileEntry) (block : L2Block) (last : FileEntry) : Prop :=
  IsBlockEnd u last block.number ∨
  (last.entryType = .bookmark ∧ ∃ value, u.bookmark last.data = .ok ⟨.l2Block, value⟩) ∨
  (last.entryType = .batchEnd ∧ ∃ batch, u.batchEnd file.data = .ok batch)

/- One round of the loop at an entry that is no transaction. -/
theorem readBlock_stop (file : FileEntry) (block : L2Block) {rest : Files}
    (hRest : ∀ innerFile tx later, rest = .ok innerFile :: later →
      IsTx u innerFile tx → innerFile.entryNum = limit) (entryNum : Nat) (txs : List Transaction) :
    rest = [] ∨
    (∃ message,
      (readBlock u limit file block entryNum txs rest).parsedEntry = .error (.error message)) ∨
    ∃ last later, rest = .ok last :: later ∧ Ends u file block last ∧
      readBlock u limit file block entryNum txs rest =
        ⟨.ok (some (.l2Block block txs)), last.entryNum, later⟩ := by
  fun_cases readBlock u limit file block entryNum txs rest with
  | case1 => exact Or.inl rfl
  | case5 _ _ innerFile later hType tx hTx hHere =>
    exact absurd (hRest innerFile tx later rfl ⟨hType, hTx⟩) hHere
  | case8 _ _ innerFile later stop hType number hEnd hNumber =>
    refine Or.inr (Or.inr ⟨innerFile, later, rfl, Or.inl ⟨hType, ?_⟩, rfl⟩)
    rw [hEnd, not_not.mp hNumber]
  | case10 _ _ innerFile later stop hType mark hMark hMarkType =>
    refine Or.inr (Or.inr ⟨innerFile, later, rfl, Or.inr (Or.inl ⟨hType, mark.value, ?_⟩), rfl⟩)
    rw [hMark, ← hMarkType]
  | case13 _ _ innerFile later stop hType batch hEnd =>
    exact Or.inr (Or.inr ⟨innerFile, later, rfl, Or.inr (Or.inr ⟨hType, batch, hEnd⟩), rfl⟩)
  | _ => exact Or.inr (Or.inl ⟨_, rfl⟩)

/- An end that comes early is taken for the end. -/
theorem readBlock_early (limit : Nat) (block : L2Block) {rest : Files}
    (hEarly : EndsEarly u file rest) (entryNum : Nat) (txs : List Transaction) :
    (readBlock u limit file block entryNum txs rest).parsedEntry = .error .panic ∨
    ∃ innerFile later, rest = .ok innerFile :: later ∧
      innerFile.entryType ≠ .l2BlockEnd ∧
      (readBlock u limit file block entryNum txs
        rest).parsedEntry = .ok (some (.l2Block block txs)) ∧
      (readBlock u limit file block entryNum txs rest).rest = later := by
  rcases hEarly with rfl | ⟨innerFile, later, rfl, hMark | hEnd⟩
  · exact Or.inl rfl
  · rcases hMark with ⟨hType, value, hMark⟩
    refine Or.inr ⟨innerFile, later, rfl, by simp [hType], ?_⟩
    simp [readBlock, hType, hMark]
  · rcases hEnd with ⟨hType, last, hEnd⟩
    refine Or.inr ⟨innerFile, later, rfl, by simp [hType], ?_⟩
    simp [readBlock, hType, hEnd]

end

-- Whole items

section

variable {u : Unmarshal} {limit : Nat}

theorem readParsedProto_block {file : FileEntry} {block : L2Block} (hBlock : IsBlock u file block)
    (rest : Files) :
    readParsedProto u limit (.ok file :: rest) =
      readBlock u limit file block file.entryNum [] rest := by
  simp [readParsedProto, hBlock.1, hBlock.2]

/- An entry on its own neither panics nor is a block. -/
theorem single_plain {α : Type} (parsed : α → ParsedEntry)
    (hParsed : ∀ a block txs, parsed a ≠ .l2Block block txs) (decoded : Except String α) :
    single parsed decoded ≠ .error .panic ∧
    ∀ block txs, single parsed decoded ≠ .ok (some (.l2Block block txs)) := by
  cases decoded with
  | error e => simp [single]
  | ok a => simpa [single] using hParsed a

/- What does not begin with a block is no block. -/
theorem readParsedProto_plain (limit : Nat) {files : Files}
    (hPlain : ∀ file block rest, files = .ok file :: rest → ¬ IsBlock u file block) :
    (readParsedProto u limit files).parsedEntry ≠ .error .panic ∧
    ∀ block txs, (readParsedProto u limit files).parsedEntry ≠ .ok (some (.l2Block block txs)) := by
  fun_cases readParsedProto u limit files with
  | case3 file => exact single_plain .bookmark (by simp) (u.bookmark file.data)
  | case4 file => exact single_plain .gerUpdate (by simp) (u.gerUpdate file.data)
  | case5 file => exact single_plain .batchStart (by simp) (u.batchStart file.data)
  | case6 file => exact single_plain .batchEnd (by simp) (u.batchEnd file.data)
  | case8 file rest hType block hBlock => exact absurd ⟨hType, hBlock⟩ (hPlain file block rest rfl)
  | _ => simp +zetaDelta [failed]

/- A block that ends is read with what belongs to it. -/
theorem exact_of_blockEnds {files : Files} (hEnds : BlockEnds u limit files) :
    Exact u limit files := by
  by_cases hPlain : ∀ file block rest, files = .ok file :: rest → ¬ IsBlock u file block
  · rcases readParsedProto_plain limit hPlain with ⟨hReturns, hNoBlock⟩
    exact ⟨hReturns, fun block txs hEq => absurd hEq (hNoBlock block txs)⟩
  · push Not at hPlain
    rcases hPlain with ⟨file, block, rest, rfl, hBlock⟩
    rcases exists_transactions u limit rest with ⟨inner, txs, later, rfl, hTxs, hLimit, hLater⟩
    have hEarly := hEnds file block inner txs later rfl hBlock hTxs hLimit
    rcases readBlock_transactions file block hTxs hLimit
      file.entryNum [] later with ⟨reached, hReached⟩
    unfold Exact
    rw [readParsedProto_block hBlock, hReached, List.nil_append]
    rcases readBlock_stop file block hLater reached txs
      with hNil | ⟨message, hFails⟩ | ⟨last, rest, rfl, hLast, hRead⟩
    · exact absurd (Or.inl hNil) hEarly
    · simp [hFails]
    · have hOwn : IsBlockEnd u last block.number :=
        hLast.resolve_right fun hOther => hEarly (Or.inr ⟨last, rest, rfl, hOther⟩)
      rw [hRead]
      refine ⟨by simp, ?_⟩
      intro block' txs' hEq
      simp only [Except.ok.injEq, Option.some.injEq, ParsedEntry.l2Block.injEq] at hEq
      rcases hEq with ⟨rfl, rfl⟩
      exact ⟨file, inner, last, rfl, hBlock, hTxs, hOwn⟩

/- A block that ends early panics or takes too much. -/
theorem blockEnds_of_exact {files : Files} (hExact : Exact u limit files) :
    BlockEnds u limit files := by
  intro file block inner txs rest hFiles hBlock hTxs hLimit hEarly
  subst hFiles
  rcases readBlock_transactions file block hTxs hLimit
    file.entryNum [] rest with ⟨reached, hReached⟩
  rcases hExact with ⟨hReturns, hExact⟩
  rw [readParsedProto_block hBlock, hReached, List.nil_append] at hReturns hExact
  rcases readBlock_early limit block hEarly reached txs with
    hPanic | ⟨innerFile, later, rfl, hType, hOk, hLater⟩
  · exact hReturns hPanic
  · rcases hExact block txs hOk with ⟨first, inner', last, hEq, -, -, hLast⟩
    rw [hLater] at hEq
    have hTail := (List.cons.inj hEq).2
    have hSame := List.append_inj_right' hTail (by simp)
    rcases List.cons.inj hSame with ⟨hSame, -⟩
    rw [Except.ok.inj hSame] at hType
    exact hType hLast.1

end

/- Reading is total and exact if no block ends in anything but its own end, and only then. -/
theorem exact_iff (u : Unmarshal) (limit : Nat) (files : Files) :
    Exact u limit files ↔ BlockEnds u limit files :=
  ⟨blockEnds_of_exact, exact_of_blockEnds⟩

/- Decoders that read every message as an empty one. -/
def emptyMessages : Unmarshal where
  bookmark _ := .ok ⟨.other 0, 0⟩
  gerUpdate _ := .error "proto: cannot parse"
  batchStart _ := .error "proto: cannot parse"
  batchEnd _ := .error "proto: cannot parse"
  l2Block _ := .ok ⟨0, 0, 0, 0, 0, 0, 0, 0, 0, 0, 0, 0⟩
  tx _ := .error "proto: cannot parse"
  l2BlockEnd _ := .ok 0

/- A stream that stops behind the entry of a block. -/
theorem block_cut_off_panics :
    (readParsedProto emptyMessages 1 [.ok ⟨.l2Block, 0, []⟩]).parsedEntry = .error .panic ∧
    ¬ Exact emptyMessages 1 [.ok ⟨.l2Block, 0, []⟩] :=
  ⟨rfl, fun hExact => hExact.1 rfl⟩

end XLayerErigon.DataStream
