import XLayerErigon.Batches.ShortCircuit

/-
  The block that a wrong block, or a state tree that is ahead, is unwound to.

  Both functions step back by one batch number.  A batch without blocks has no highest block, and
  the number they go on with is then 0.

  Main results:
    * `unwindsRight_iff`
-/

namespace XLayerErigon.Batches

open HermezDb

-- The Code

/- The latest block of the previous batch with its hash, and the batch of the block. -/
def getUnwindPoint {Hash : Type} (readCanonicalHash : Nat → Hash) (db : BatchTables)
    (blockNum : Uint64) : Except Failure (Nat × Hash × Uint64) :=
  match db.getBatchNoByL2Block blockNum with
  | .error _ => .error (.error "GetBatchNoByL2Block: block %d (%s): %w")
  | .ok batchNum =>
    if batchNum = 0 then .error (.error "failed to find batch number for the block %d (%s)")
    else
      -- without a block there is only a warning
      let unwindBlockNum := (getHighestBlockInBatch db (batchNum - 1).toNat).1
      .ok (unwindBlockNum, readCanonicalHash unwindBlockNum, batchNum)

def getTargetBlockForSMTAlignment (db : BatchTables) (smtMaxBlockNumber : Uint64) :
    Except Failure Nat :=
  match db.getBatchNoByL2Block smtMaxBlockNumber with
  | .error e => .error e
  | .ok smtBatchNo =>
    if smtBatchNo = 0 then .ok 0
    else .ok (getHighestBlockInBatch db (smtBatchNo - 1).toNat).1

-- What They Should Do

/- The highest block whose batch is lower than a batch. -/
structure Highest (db : BatchTables) (batchNo n : Uint64) : Prop where
  lower : ∃ k < batchNo, db.batchOf n = some k
  above : ∀ m, ∀ k < batchNo, db.batchOf m = some k → m ≤ n

/- Both functions return that block. -/
def UnwindsRight {Hash : Type} (readCanonicalHash : Nat → Hash) (db : BatchTables)
    (b batchNo : Uint64) : Prop :=
  ∃ n, Highest db batchNo n ∧
    getUnwindPoint readCanonicalHash db b = .ok (n.toNat, readCanonicalHash n.toNat, batchNo) ∧
    getTargetBlockForSMTAlignment db b = .ok n.toNat

-- The Highest Block of a Batch

variable {db : BatchTables}

/- The loop keeps a bound of the blocks it has seen that is one of them, or where it began. -/
theorem foldl_max_spec {blocks : List Uint64} {start n : Nat}
    (hMax : blocks.foldl (fun max block => if block.toNat > max then block.toNat else max) start =
      n) :
    start ≤ n ∧ (∀ m ∈ blocks, m.toNat ≤ n) ∧ (n = start ∨ ∃ m ∈ blocks, m.toNat = n) := by
  induction blocks generalizing start with
  | nil => simp_all
  | cons block blocks ih =>
    have hRest := ih hMax
    grind

theorem getHighestBlockInBatch_spec {batch : Uint64} {n : Nat} (hBatch : batch ≠ 0)
    (hHighest : (getHighestBlockInBatch db batch.toNat).1 = n) :
    (∀ m ∈ db.getL2BlockNosByBatch batch, m.toNat ≤ n) ∧
      (n = 0 ∨ ∃ m ∈ db.getL2BlockNosByBatch batch, m.toNat = n) := by
  have hNonzero : batch.toNat ≠ 0 := fun hZero => hBatch (BitVec.eq_of_toNat_eq hZero)
  rw [getHighestBlockInBatch, if_neg hNonzero, BitVec.ofNat_toNat, BitVec.setWidth_eq] at hHighest
  cases hBlocks : db.getL2BlockNosByBatch batch with
  | nil => simp_all
  | cons block blocks =>
    rw [hBlocks] at hHighest
    exact (foldl_max_spec hHighest).2

/- The highest lower block is 0 or in the batch directly before, which is not batch 0. -/
def FollowsHighest (db : BatchTables) (batchNo : Uint64) : Prop :=
  ∃ n, Highest db batchNo n ∧ (n = 0 ∨ batchNo ≠ 1 ∧ db.batchOf n = some (batchNo - 1))

/-
  For a block of a batch above the first one that has blocks, both functions return the highest
  lower block exactly if it is block 0 or in the batch directly before.
-/
theorem unwindsRight_iff {Hash : Type} (readCanonicalHash : Nat → Hash) (db : BatchTables)
    (b batchNo : Uint64) (hDb : db.Consistent) (hStored : db.batchOf b = some batchNo)
    (hAbove : ∃ m, ∃ k < batchNo, db.batchOf m = some k) :
    UnwindsRight readCanonicalHash db b batchNo ↔ FollowsHighest db batchNo := by
  have hPositive : batchNo ≠ 0 := by
    rcases hAbove with ⟨m, k, hLess, _⟩
    bv_omega
  have hReturns : UnwindsRight readCanonicalHash db b batchNo ↔
      ∃ n, Highest db batchNo n ∧ (getHighestBlockInBatch db (batchNo - 1).toNat).1 = n.toNat := by
    apply exists_congr
    intro n
    rw [getUnwindPoint, getTargetBlockForSMTAlignment,
      BatchTables.getBatchNoByL2Block_of_batchOf hStored]
    simp only [hPositive, if_false, Except.ok.injEq, Prod.mk.injEq]
    grind
  rw [hReturns]
  apply exists_congr
  intro n
  apply and_congr_right
  intro hHighest
  by_cases hFirst : batchNo = 1
  · -- batch 0 is taken to have block 0
    subst hFirst
    simp [getHighestBlockInBatch, BitVec.toNat_eq, eq_comm]
  · have hBefore : batchNo - 1 ≠ 0 := by bv_omega
    have hBlocks (m : Uint64) := hDb.inverse m (batchNo - 1)
    generalize hReturn : (getHighestBlockInBatch db (batchNo - 1).toNat).1 = highest
    rcases getHighestBlockInBatch_spec hBefore hReturn with ⟨hBound, hFound⟩
    have hLe : highest ≤ n.toNat := by
      rcases hFound with hZero | ⟨m, hMem, hEq⟩
      · omega
      · rw [← hEq]
        exact hHighest.above m _ (by bv_omega) ((hBlocks m).mpr hMem)
    constructor
    · intro hSame
      rcases hFound with hZero | ⟨m, hMem, hEq⟩
      · exact Or.inl (BitVec.eq_of_toNat_eq (hSame.symm.trans hZero))
      · rw [← BitVec.eq_of_toNat_eq (hEq.trans hSame)]
        exact Or.inr ⟨hFirst, (hBlocks m).mpr hMem⟩
    · rintro (rfl | ⟨_, hLast⟩)
      · exact Nat.le_zero.mp hLe
      · exact Nat.le_antisymm hLe (hBound n ((hBlocks n).mp hLast))

/- Block 1 in batch 1 and block 2 in batch 3. -/
def gapTables : BatchTables := (BatchTables.empty.writeBlockBatch 1 1).writeBlockBatch 2 3

theorem batchOf_writeBlockBatch (db : BatchTables) (l2BlockNo batchNo b : Uint64) :
    (db.writeBlockBatch l2BlockNo batchNo).batchOf b =
      if b = l2BlockNo then some batchNo else db.batchOf b := by
  rw [BatchTables.writeBlockBatch]
  split <;> exact BatchTables.batchOf_put ..

theorem batchOf_gapTables {b batchNo : Uint64} (hBatch : gapTables.batchOf b = some batchNo) :
    b = 1 ∧ batchNo = 1 ∨ b = 2 ∧ batchNo = 3 := by
  rw [gapTables, batchOf_writeBlockBatch, batchOf_writeBlockBatch] at hBatch
  have hEmpty : BatchTables.empty.batchOf b = none := rfl
  grind

theorem gapTables_consistent : gapTables.Consistent := by
  refine (BatchTables.consistent_empty.write ?_).write ?_
  · intro n hBatch
    cases hBatch
  · intro n hBatch
    rw [batchOf_writeBlockBatch] at hBatch
    cases hBatch

theorem unwindsRight_iff_gap : gapTables.batchOf 2 = some 3 ∧
    (UnwindsRight (fun n => n) gapTables 2 3 ↔ FollowsHighest gapTables 3) :=
  ⟨by decide +kernel, unwindsRight_iff _ _ 2 3 gapTables_consistent (by decide +kernel)
    ⟨1, 1, by decide, by decide +kernel⟩⟩

/- With batch 2 empty, block 2 is unwound to block 0 and not to block 1. -/
theorem gap_unwinds_to_zero : gapTables.Consistent ∧ gapTables.batchOf 2 = some 3 ∧
    Highest gapTables 3 1 ∧ getUnwindPoint (fun n => n) gapTables 2 = .ok (0, 0, 3) ∧
    getTargetBlockForSMTAlignment gapTables 2 = .ok 0 := by
  refine ⟨gapTables_consistent, by decide +kernel, ⟨⟨1, by decide, by decide +kernel⟩, ?_⟩,
    by decide +kernel, by decide +kernel⟩
  intro m k hLess hBatch
  rcases batchOf_gapTables hBatch with ⟨rfl, _⟩ | ⟨_, rfl⟩
  · exact le_refl _
  · exact absurd hLess (by decide)

end XLayerErigon.Batches
