import XLayerErigon.HermezDb.Basic

/-
  The tables that say which batch a block is in and which blocks a batch has.

  Main results:
    * `BatchTables.Consistent.write`
    * `BatchTables.Consistent.delete`
    * `BatchTables.runs_consistent`
-/

namespace XLayerErigon.HermezDb

open Kv

/- The tables `BLOCKBATCHES` and `BATCH_BLOCKS`. -/
structure BatchTables where
  blockBatches : Table Uint64 Bytes
  batchBlocks : Table Uint64 Bytes

namespace BatchTables

-- Reading

def empty : BatchTables := ⟨.empty, .empty⟩

/- The cursor is set on the first block not below. -/
def getBatchNoByL2Block (db : BatchTables) (l2BlockNo : Uint64) : Except Failure Uint64 :=
  match (db.blockBatches.walk l2BlockNo).head? with
  | none => .error (.error "not stored")
  | some e =>
    if e.1 ≠ l2BlockNo then .ok 0
    else .ok (bytesToUint64 e.2)

def getL2BlockNosByBatch (db : BatchTables) (batchNo : Uint64) : List Uint64 :=
  parseConcatenatedBlockNumbers ((db.batchBlocks.get batchNo).getD [])

def batchOf (db : BatchTables) (l2BlockNo : Uint64) : Option Uint64 :=
  (db.blockBatches.get l2BlockNo).map bytesToUint64

variable {l2BlockNo batchNo : Uint64} {db : BatchTables}

theorem getBatchNoByL2Block_of_batchOf (hBatch : db.batchOf l2BlockNo = some batchNo) :
    db.getBatchNoByL2Block l2BlockNo = .ok batchNo := by
  rcases Option.map_eq_some_iff.1 hBatch with ⟨v, hGet, rfl⟩
  rw [getBatchNoByL2Block, Table.head?_walk _ hGet]
  simp

def writeBlockBatch (db : BatchTables) (l2BlockNo batchNo : Uint64) : BatchTables :=
  let stored := { db with blockBatches := db.blockBatches.put l2BlockNo (uint64ToBytes batchNo) }
  let v := (db.batchBlocks.get batchNo).getD []
  if (parseConcatenatedBlockNumbers v).any (fun b => b == l2BlockNo) then stored
  else
    { stored with batchBlocks := db.batchBlocks.put batchNo (v ++ uint64ToBytes l2BlockNo) }

/- Remember the batch of a block; none counts as batch 0. -/
def gatherBatch (db : BatchTables) (batches : List Uint64) (i : Uint64) : List Uint64 :=
  batches.insert (match db.getBatchNoByL2Block i with
    | .ok batch => batch
    | .error _ => 0)

/- Take the blocks of the range out of one batch. -/
def rewriteBatch (fromBlockNum toBlockNum : Uint64) (db : BatchTables)
    (batchNumber : Uint64) : BatchTables :=
  let newBlockNos := (db.getL2BlockNosByBatch batchNumber).filter (fun blockNo =>
      blockNo < fromBlockNum || toBlockNum < blockNo)
  let newData := concatenateBlockNumbers newBlockNos
  if newData.length = 0 then
    { db with batchBlocks := db.batchBlocks.delete batchNumber }
  else
    { db with batchBlocks := db.batchBlocks.put batchNumber newData }

def deleteBlock (db : BatchTables) (i : Uint64) : BatchTables :=
  { db with blockBatches := db.blockBatches.delete i }

/- What `DeleteBlockBatches` makes of the tables.  Go ranges over the batches in any order. -/
def DeletesTo (db : BatchTables) (fromBlockNum toBlockNum : Uint64) (db' : BatchTables) : Prop :=
  ∃ fuel, ∃ batches order : List Uint64,
    forRange db.gatherBatch toBlockNum fuel fromBlockNum [] = some batches ∧ order.Perm batches ∧
    forRange deleteBlock toBlockNum fuel fromBlockNum
      (order.foldl (rewriteBatch fromBlockNum toBlockNum) db) = some db'

/- The call returns, but for a range up to the last number. -/
theorem exists_deletesTo (db : BatchTables) (fromBlockNum toBlockNum : Uint64)
    (hLast : toBlockNum.toNat + 1 < 2 ^ 64) : ∃ db', db.DeletesTo fromBlockNum toBlockNum db' :=
  ⟨_, toBlockNum.toNat + 2, _, _,
    forRange_eq hLast [] (by omega) (by omega),
    List.Perm.refl _, forRange_eq hLast _ (by omega) (by omega)⟩

-- Consistency

/- The tables are inverse to each other, and a batch has an entry only if it has blocks. -/
structure Consistent (db : BatchTables) : Prop where
  inverse : ∀ l2BlockNo batchNo,
    db.batchOf l2BlockNo = some batchNo ↔ l2BlockNo ∈ db.getL2BlockNosByBatch batchNo
  lists : ∀ batchNo v, db.batchBlocks.get batchNo = some v →
    ∃ blocks, blocks ≠ [] ∧ v = concatenateBlockNumbers blocks

theorem Consistent.stored (hDb : db.Consistent) (batchNo : Uint64) :
    (db.batchBlocks.get batchNo).getD [] =
      concatenateBlockNumbers (db.getL2BlockNosByBatch batchNo) := by
  rw [getL2BlockNosByBatch]
  cases hGet : db.batchBlocks.get batchNo with
  | none => rfl
  | some v =>
    rcases hDb.lists batchNo v hGet with ⟨blocks, _, rfl⟩
    simp [parse_concatenateBlockNumbers]

theorem consistent_empty : empty.Consistent where
  inverse := by
    intro l2BlockNo batchNo
    simp [empty, batchOf, getL2BlockNosByBatch, parseConcatenatedBlockNumbers]
  lists := by
    intro batchNo v hGet
    cases hGet

theorem batchOf_put (db : BatchTables) (batchBlocks : Table Uint64 Bytes)
    (l2BlockNo batchNo b : Uint64) :
    batchOf ⟨db.blockBatches.put l2BlockNo (uint64ToBytes batchNo), batchBlocks⟩ b =
      if b = l2BlockNo then some batchNo else db.batchOf b := by
  by_cases hSame : b = l2BlockNo <;> simp [batchOf, Table.get_put, hSame]

/- The blocks of a batch after a write to its list. -/
theorem getL2BlockNosByBatch_put (db : BatchTables) (blockBatches : Table Uint64 Bytes)
    (batchNo n : Uint64) (blocks : List Uint64) :
    getL2BlockNosByBatch ⟨blockBatches,
        db.batchBlocks.put batchNo (concatenateBlockNumbers blocks)⟩ n =
      if n = batchNo then blocks else db.getL2BlockNosByBatch n := by
  by_cases hSame : n = batchNo <;>
    simp [getL2BlockNosByBatch, Table.get_put, hSame, parse_concatenateBlockNumbers]

theorem writeBlockBatch_of_mem (hMem : l2BlockNo ∈ db.getL2BlockNosByBatch batchNo) :
    db.writeBlockBatch l2BlockNo batchNo =
      { db with blockBatches := db.blockBatches.put l2BlockNo (uint64ToBytes batchNo) } := by
  rw [writeBlockBatch]
  refine if_pos ?_
  rw [List.any_eq_true]
  exact ⟨l2BlockNo, hMem, by simp⟩

theorem writeBlockBatch_of_not_mem (hDb : db.Consistent)
    (hNew : l2BlockNo ∉ db.getL2BlockNosByBatch batchNo) :
    db.writeBlockBatch l2BlockNo batchNo =
      { blockBatches := db.blockBatches.put l2BlockNo (uint64ToBytes batchNo)
        batchBlocks := db.batchBlocks.put batchNo
          (concatenateBlockNumbers (db.getL2BlockNosByBatch batchNo ++ [l2BlockNo])) } := by
  rw [writeBlockBatch]
  refine (if_neg ?_).trans ?_
  · rw [List.any_eq_true]
    rintro ⟨b, hMem, hSame⟩
    exact hNew (eq_of_beq hSame ▸ hMem)
  · rw [hDb.stored, concatenateBlockNumbers_append]

/- A batch has an entry only if it has blocks. -/
def Listed (db : BatchTables) : Prop := ∀ batchNo v, db.batchBlocks.get batchNo = some v →
  ∃ blocks, blocks ≠ [] ∧ v = concatenateBlockNumbers blocks

theorem Listed.put (hListed : db.Listed) (blockBatches : Table Uint64 Bytes) (batchNo : Uint64)
    {blocks : List Uint64} (hSome : blocks ≠ []) :
    Listed ⟨blockBatches, db.batchBlocks.put batchNo (concatenateBlockNumbers blocks)⟩ := by
  intro n v hGet
  rw [Table.get_put] at hGet
  split_ifs at hGet
  · exact ⟨blocks, hSome, (Option.some.inj hGet).symm⟩
  · exact hListed n v hGet

/- A block may be written again, but not to another batch. -/
theorem Consistent.write {db : BatchTables} (hDb : db.Consistent) {l2BlockNo batchNo : Uint64}
    (hFree : ∀ n, db.batchOf l2BlockNo = some n → n = batchNo) :
    (db.writeBlockBatch l2BlockNo batchNo).Consistent := by
  by_cases hMem : l2BlockNo ∈ db.getL2BlockNosByBatch batchNo
  · rw [writeBlockBatch_of_mem hMem]
    refine ⟨?_, hDb.lists⟩
    intro b n
    rw [batchOf_put]
    refine Iff.trans ?_ (hDb.inverse b n)
    split_ifs with hSame
    · rw [hSame, (hDb.inverse l2BlockNo batchNo).2 hMem]
    · rfl
  · rw [writeBlockBatch_of_not_mem hDb hMem]
    refine ⟨?_, Listed.put hDb.lists _ _ (by simp)⟩
    intro b n
    have hNone : db.batchOf l2BlockNo = none := by
      cases hBatch : db.batchOf l2BlockNo with
      | none => rfl
      | some n' =>
        rw [hFree n' hBatch, hDb.inverse] at hBatch
        exact absurd hBatch hMem
    rw [batchOf_put, getL2BlockNosByBatch_put]
    by_cases hBlock : b = l2BlockNo
    · subst hBlock
      by_cases hBatch : n = batchNo
      · simp [hBatch]
      · have hElse := hDb.inverse b n
        rw [hNone] at hElse
        simp [hBatch, ← hElse, Ne.symm hBatch]
    · rw [if_neg hBlock, hDb.inverse]
      by_cases hBatch : n = batchNo <;> simp [hBatch, hBlock]

-- Deleting a range

def outside (fromBlockNum toBlockNum blockNo : Uint64) : Bool :=
  blockNo < fromBlockNum || toBlockNum < blockNo

theorem outside_iff {fromBlockNum toBlockNum blockNo : Uint64} :
    outside fromBlockNum toBlockNum blockNo = true ↔ blockNo ∉ rangeOf fromBlockNum toBlockNum := by
  rw [mem_rangeOf, outside, Bool.or_eq_true, decide_eq_true_iff, decide_eq_true_iff]
  simp only [BitVec.le_def, BitVec.lt_def]
  omega

theorem foldl_gatherBatch (db : BatchTables) (blocks batches : List Uint64) {i batchNo : Uint64}
    (hBatch : db.batchOf i = some batchNo) (hMem : i ∈ blocks) :
    batchNo ∈ blocks.foldl db.gatherBatch batches := by
  have hKeeps : ∀ (blocks batches : List Uint64) (n : Uint64),
        n ∈ batches → n ∈ blocks.foldl db.gatherBatch batches := by
    intro blocks
    induction blocks with
    | nil => exact fun _ _ hIn => hIn
    | cons b blocks ih =>
      intro batches n hIn
      exact ih _ n (List.mem_insert_of_mem hIn)
  induction blocks generalizing batches with
  | nil => cases hMem
  | cons b blocks ih =>
    rcases List.mem_cons.1 hMem with rfl | hRest
    · refine hKeeps blocks _ batchNo ?_
      rw [gatherBatch, getBatchNoByL2Block_of_batchOf hBatch]
      exact List.mem_insert_self
    · exact ih _ hRest

/- Some batches lose the blocks of a range; the other table stays as it is. -/
structure Rewritten (fromBlockNum toBlockNum : Uint64) (order : List Uint64)
    (db db' : BatchTables) : Prop where
  same : db'.blockBatches = db.blockBatches
  blocks : ∀ n, db'.getL2BlockNosByBatch n =
    if n ∈ order then (db.getL2BlockNosByBatch n).filter (outside fromBlockNum toBlockNum)
    else db.getL2BlockNosByBatch n
  listed : db'.Listed

theorem rewriteBatch_spec (hLists : db.Listed) (fromBlockNum toBlockNum batchNumber : Uint64) :
    Rewritten fromBlockNum toBlockNum [batchNumber] db
      (rewriteBatch fromBlockNum toBlockNum db batchNumber) := by
  have hUnfold : rewriteBatch fromBlockNum toBlockNum db batchNumber =
        if concatenateBlockNumbers
            ((db.getL2BlockNosByBatch batchNumber).filter
              (outside fromBlockNum toBlockNum)) = [] then
          { db with batchBlocks := db.batchBlocks.delete batchNumber }
        else
          { db with
            batchBlocks := db.batchBlocks.put batchNumber
              (concatenateBlockNumbers
                ((db.getL2BlockNosByBatch batchNumber).filter
                  (outside fromBlockNum toBlockNum))) } := by
    simp only [rewriteBatch, List.length_eq_zero_iff]
    rfl
  rw [hUnfold]
  by_cases hNil :
      (db.getL2BlockNosByBatch batchNumber).filter (outside fromBlockNum toBlockNum) = []
  · rw [if_pos (concatenateBlockNumbers_eq_nil.2 hNil)]
    refine ⟨rfl, ?_, ?_⟩
    · intro n
      simp only [List.mem_singleton]
      split_ifs with hSame
      · rw [hSame, hNil]
        simp [getL2BlockNosByBatch, Table.get_delete, parseConcatenatedBlockNumbers]
      · simp [getL2BlockNosByBatch, Table.get_delete, hSame]
    · intro n v hGet
      rw [Table.get_delete] at hGet
      split_ifs at hGet
      exact hLists n v hGet
  · rw [if_neg (mt concatenateBlockNumbers_eq_nil.1 hNil)]
    refine ⟨rfl, ?_, hLists.put _ _ hNil⟩
    intro n
    simp only [getL2BlockNosByBatch_put, List.mem_singleton]
    split_ifs with hSame
    · rw [hSame]
    · rfl

theorem foldl_rewriteBatch_spec (hLists : db.Listed) (fromBlockNum toBlockNum : Uint64)
    (order : List Uint64) :
    Rewritten fromBlockNum toBlockNum order db
      (order.foldl (rewriteBatch fromBlockNum toBlockNum) db) := by
  induction order generalizing db with
  | nil => exact ⟨rfl, fun n => by simp, hLists⟩
  | cons batch order ih =>
    rcases rewriteBatch_spec hLists fromBlockNum toBlockNum batch with ⟨hBlocks, hNos, hNext⟩
    rcases ih hNext with ⟨hBlocks', hNos', hLast⟩
    refine ⟨hBlocks'.trans hBlocks, ?_, hLast⟩
    intro n
    rw [List.foldl_cons, hNos', hNos]
    by_cases hHere : n = batch
    · simp [hHere, List.filter_filter]
    · by_cases hLater : n ∈ order <;> simp [hHere, hLater]

theorem foldl_deleteBlock (db : BatchTables) (blocks : List Uint64) :
    (blocks.foldl deleteBlock db).batchBlocks =
        db.batchBlocks ∧
      ∀ b, (blocks.foldl deleteBlock db).batchOf b = if b ∈ blocks then none else db.batchOf b := by
  induction blocks generalizing db with
  | nil => exact ⟨rfl, fun b => by simp⟩
  | cons i blocks ih =>
    rcases ih (db.deleteBlock i) with ⟨hSame, hBatch⟩
    refine ⟨hSame, ?_⟩
    intro b
    rw [List.foldl_cons, hBatch]
    by_cases hLater : b ∈ blocks
    · simp [hLater]
    · by_cases hHere : b = i <;> simp [hLater, hHere, deleteBlock, batchOf, Table.get_delete]

/- What a deletion leaves of the list of a batch. -/
theorem Consistent.deleted {db db' : BatchTables} (hDb : db.Consistent)
    {fromBlockNum toBlockNum : Uint64} (hDelete : db.DeletesTo fromBlockNum toBlockNum db') :
    (∀ b, db'.batchOf b = if b ∈ rangeOf fromBlockNum toBlockNum then none else db.batchOf b) ∧
    (∀ n, db'.getL2BlockNosByBatch n =
      (db.getL2BlockNosByBatch n).filter (outside fromBlockNum toBlockNum)) ∧ db'.Listed := by
  rcases hDelete with ⟨fuel, batches, order, hGather, hOrder, hBlocks⟩
  have hBatches := forRange_some hGather
  have hLast := forRange_some hBlocks
  rcases foldl_rewriteBatch_spec hDb.lists fromBlockNum toBlockNum order with ⟨hKept, hNos, hLists⟩
  rcases foldl_deleteBlock (order.foldl (rewriteBatch fromBlockNum toBlockNum) db)
      (rangeOf fromBlockNum toBlockNum) with
    ⟨hSame, hBatch⟩
  rw [← hLast] at hSame hBatch
  refine ⟨?_, ?_, ?_⟩
  · intro b
    rw [hBatch, batchOf, hKept]
    rfl
  · intro n
    have hList : db'.getL2BlockNosByBatch n =
        (order.foldl (rewriteBatch fromBlockNum toBlockNum) db).getL2BlockNosByBatch n := by
      rw [getL2BlockNosByBatch, hSame]
      rfl
    rw [hList, hNos]
    by_cases hIn : n ∈ order
    · rw [if_pos hIn]
    · -- no block of the batch is in the range
      rw [if_neg hIn]
      refine (List.filter_eq_self.2 ?_).symm
      intro b hMem
      rw [outside_iff]
      intro hRange
      refine hIn ?_
      rw [hOrder.mem_iff, hBatches]
      exact foldl_gatherBatch db _ [] ((hDb.inverse b n).2 hMem) hRange
  · intro n v hGet
    rw [hSame] at hGet
    exact hLists n v hGet

theorem Consistent.delete {db db' : BatchTables} (hDb : db.Consistent)
    {fromBlockNum toBlockNum : Uint64} (hDelete : db.DeletesTo fromBlockNum toBlockNum db') :
    db'.Consistent := by
  rcases hDb.deleted hDelete with ⟨hBatch, hNos, hLists⟩
  refine ⟨?_, hLists⟩
  intro b n
  rw [hBatch, hNos, List.mem_filter, outside_iff, ← hDb.inverse]
  by_cases hRange : b ∈ rangeOf fromBlockNum toBlockNum <;> simp [hRange]

-- Runs

/- A block is above those its batch has, or one of them. -/
def InOrder (db : BatchTables) (l2BlockNo batchNo : Uint64) : Prop :=
  l2BlockNo ∈ db.getL2BlockNosByBatch batchNo ∨ ∀ b ∈ db.getL2BlockNosByBatch batchNo, b < l2BlockNo

/-
  The tables after some writes and deletions.  A block is not written to a second batch unless it
  was deleted; with `ordered` every write is in order.
-/
inductive Runs (ordered : Bool) : BatchTables → Prop
  | start : Runs ordered empty
  | write {db : BatchTables} (hRun : Runs ordered db) (l2BlockNo batchNo : Uint64)
      (hFree : ∀ n, db.batchOf l2BlockNo = some n → n = batchNo)
      (hOrder : ordered = true → db.InOrder l2BlockNo batchNo) :
      Runs ordered (db.writeBlockBatch l2BlockNo batchNo)
  | delete {db db' : BatchTables} (hRun : Runs ordered db) (fromBlockNum toBlockNum : Uint64)
      (hDelete : db.DeletesTo fromBlockNum toBlockNum db') :
      Runs ordered db'

theorem Runs.consistent {ordered : Bool} (hRun : Runs ordered db) :
    db.Consistent := by
  induction hRun with
  | start => exact consistent_empty
  | write _ l2BlockNo batchNo hFree _ ih => exact ih.write hFree
  | delete _ fromBlockNum toBlockNum hDelete ih => exact ih.delete hDelete

theorem Runs.increasing (hRun : Runs true db) (n : Uint64) :
    (db.getL2BlockNosByBatch n).Pairwise (· < ·) := by
  induction hRun generalizing n with
  | start => simp [empty, getL2BlockNosByBatch, parseConcatenatedBlockNumbers]
  | @write db hRun l2BlockNo batchNo _ hOrder ih =>
    by_cases hMem : l2BlockNo ∈ db.getL2BlockNosByBatch batchNo
    · rw [writeBlockBatch_of_mem hMem]
      exact ih n
    · rw [writeBlockBatch_of_not_mem hRun.consistent hMem, getL2BlockNosByBatch_put]
      by_cases hBatch : n = batchNo
      · rw [if_pos hBatch]
        refine List.pairwise_append.2 ⟨ih batchNo, List.pairwise_singleton _ _, ?_⟩
        intro b hOld b' hNew
        rw [List.mem_singleton.1 hNew]
        rcases hOrder rfl with hIn | hAbove
        · exact absurd hIn hMem
        · exact hAbove b hOld
      · rw [if_neg hBatch]
        exact ih n
  | delete hRun _ _ hDelete ih =>
    rw [(hRun.consistent.deleted hDelete).2.1]
    exact (ih n).filter _

/-
  Over every run the tables are inverse to each other, and a batch without blocks has no entry.
  If the blocks are written in order, every list is strictly increasing.
-/
theorem runs_consistent (ordered : Bool) (db : BatchTables) (hRun : Runs ordered db) :
    (∀ l2BlockNo batchNo,
      db.batchOf l2BlockNo = some batchNo ↔ l2BlockNo ∈ db.getL2BlockNosByBatch batchNo) ∧
    (ordered = true → ∀ batchNo, (db.getL2BlockNosByBatch batchNo).Pairwise (· < ·)) ∧
    ∀ batchNo, db.getL2BlockNosByBatch batchNo = [] → db.batchBlocks.get batchNo = none := by
  refine ⟨hRun.consistent.inverse, ?_, ?_⟩
  · intro hOrdered n
    subst hOrdered
    exact hRun.increasing n
  · intro n hNil
    cases hGet : db.batchBlocks.get n with
    | none => rfl
    | some v =>
      rcases hRun.consistent.lists n v hGet with ⟨blocks, hSome, rfl⟩
      rw [getL2BlockNosByBatch, hGet, Option.getD_some, parse_concatenateBlockNumbers] at hNil
      exact absurd hNil hSome

/- Two blocks of one batch, of which one is deleted. -/
theorem runs_consistent_sample :
    ∃ db, Runs true db ∧ db.getL2BlockNosByBatch 7 = [1] ∧ db.batchOf 1 = some 7 := by
  have hEmpty : empty.getL2BlockNosByBatch 7 = [] := rfl
  have hOne : Runs true (empty.writeBlockBatch 1 7) := by
    refine .write .start 1 7 ?_ (fun _ => Or.inr ?_)
    · intro n hBatch
      cases hBatch
    · rw [hEmpty]
      simp
  have hListOne : (empty.writeBlockBatch 1 7).getL2BlockNosByBatch 7 = [1] := by
    rw [writeBlockBatch_of_not_mem consistent_empty
      (by rw [hEmpty]; simp), getL2BlockNosByBatch_put, if_pos rfl, hEmpty]
    rfl
  have hTwo : Runs true ((empty.writeBlockBatch 1 7).writeBlockBatch 2 7) := by
    refine .write hOne 2 7 ?_ (fun _ => Or.inr ?_)
    · intro n hBatch
      rw [writeBlockBatch_of_not_mem consistent_empty (by rw [hEmpty]; simp), batchOf_put,
        if_neg (by decide)] at hBatch
      cases hBatch
    · rw [hListOne]
      intro b hMem
      rw [List.mem_singleton.1 hMem]
      decide
  have hListTwo : ((empty.writeBlockBatch 1
      7).writeBlockBatch 2 7).getL2BlockNosByBatch 7 = [1, 2] := by
    rw [writeBlockBatch_of_not_mem hOne.consistent
      (by rw [hListOne]; decide), getL2BlockNosByBatch_put, if_pos rfl, hListOne]
    rfl
  rcases exists_deletesTo ((empty.writeBlockBatch 1 7).writeBlockBatch 2 7) 2 2
      (by decide) with ⟨db, hDelete⟩
  have hRun : Runs true db := .delete hTwo 2 2 hDelete
  have hList : db.getL2BlockNosByBatch 7 = [1] := by
    rw [(hTwo.consistent.deleted hDelete).2.1, hListTwo]
    decide
  refine ⟨db, hRun, hList, ?_⟩
  rw [(runs_consistent true db hRun).1, hList]
  simp

end BatchTables

end XLayerErigon.HermezDb
