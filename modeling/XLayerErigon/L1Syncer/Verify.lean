import XLayerErigon.L1InfoTree.Tree

/-
  The check of local state roots against the verifications of the L1.

  Each call picks one block, compares its state root with the verification of its batch, and
  records how far the check has come.  What is recorded is the last block of the latest verified
  batch, which need not be the block that was compared, and the comparison may find no
  verification.

  Main results:
    * `verify_checked`
    * `verification_never_skips`
-/

namespace XLayerErigon.L1Syncer

-- The Tables

structure Verification where
  l1BlockNo : Nat
  batchNo : Nat
  stateRoot : Bytes32
  deriving DecidableEq

structure LocalBlock where
  batchNo : Nat
  stateRoot : Bytes32
  deriving DecidableEq

/-
  The verifications in the order of their keys, the blocks from the genesis block on, and the
  progress of the stage that hashes the state.
-/
structure Db where
  hashedBlockNo : Nat
  verifications : List Verification
  blocks : List LocalBlock

namespace Db

def getBatchNoByL2Block (db : Db) (l2BlockNo : Nat) : Except Failure Nat :=
  match db.blocks[l2BlockNo]? with
  | none => .error (.error "not stored")
  | some block => .ok block.batchNo

def getL2BlockNosByBatch (db : Db) (batchNo : Nat) : List Nat :=
  (List.range db.blocks.length).filter (fun blockNo =>
    (db.blocks[blockNo]?.map (·.batchNo)) = some batchNo)

/- The loop that both users of the block numbers run. -/
def highestOf (blockNumbers : List Nat) : Nat :=
  blockNumbers.foldl (fun highest num => if num > highest then num else highest) 0

/- The genesis block stands for batch 0. -/
def getHighestBlockInBatch (db : Db) (batchNo : Nat) : Nat :=
  if batchNo = 0 then 0
  else highestOf (db.getL2BlockNosByBatch batchNo)

def getLatestVerification (db : Db) : Option Verification :=
  db.verifications.foldl (fun latest row =>
    if row.batchNo > (latest.map (·.batchNo)).getD 0 then
      some row
    else latest) none

def getHighestVerifiedBlockNo (db : Db) : Nat :=
  match db.getLatestVerification with
  | none => 0
  | some v => db.getHighestBlockInBatch v.batchNo

def getVerificationByBatchNo (db : Db) (batchNo : Nat) : Option Verification :=
  db.verifications.find? (fun row => row.batchNo = batchNo)

def getVerificationByL2BlockNo (db : Db) (blockNo : Nat) : Except Failure (Option Verification) :=
  (db.getBatchNoByL2Block blockNo).map db.getVerificationByBatchNo

end Db

def errStateRootMismatch : Failure := .error "state root mismatch"

def blockComparison (db : Db) (blockNo : Nat) : Except Failure Unit := do
  let v ←
    (db.getVerificationByL2BlockNo blockNo).mapError (Failure.wrap "GetVerificationByL2BlockNo")
  match v, db.blocks[blockNo]? with
  | some v, some block =>
    if v.stateRoot ≠ block.stateRoot then
      .error errStateRootMismatch
    else .ok ()
  | _, _ => .ok ()

/-
  The block to check.  If the L1 is ahead of the node, it is the last known block of the batch of
  the hashed block; a batch that is not stored counts as batch 0.
-/
def blockToCheck (db : Db) : Option Nat :=
  let verifiedBlockNo := db.getHighestVerifiedBlockNo
  if verifiedBlockNo ≤ db.hashedBlockNo then
    some verifiedBlockNo
  else
    match db.getBatchNoByL2Block db.hashedBlockNo with
    | .error _ => none
    | .ok hashedBatch =>
      if hashedBatch = 0 then none
      else if (db.getL2BlockNosByBatch hashedBatch).length = 0 then none
      else
        some (Db.highestOf (db.getL2BlockNosByBatch hashedBatch))

/- The block that a call hands to the comparison. -/
def checkedBlock (isSequencer : Bool) (db : Db) (highestChecked : Nat) : Option Nat :=
  if db.hashedBlockNo = 0 then none
  else if db.getHighestVerifiedBlockNo = 0 then none
  else
    match blockToCheck db with
    | none => none
    | some blockToCheck =>
      if highestChecked ≥ blockToCheck then none
      else if isSequencer then none
      else some blockToCheck

/- The result of a call, and the progress behind it. -/
def verifyAgainstLocalBlocks (isSequencer : Bool) (db : Db)
    (highestChecked : Nat) : Except Failure Unit × Nat :=
  match checkedBlock isSequencer db highestChecked with
  | none => (.ok (), highestChecked)
  | some blockToCheck =>
    match blockComparison db blockToCheck with
    | .ok _ => (.ok (), db.getHighestVerifiedBlockNo)
    | .error failure => (.error failure, highestChecked)

-- Runs

/- The root of the block is the one that was verified. -/
def RootsEqual (db : Db) (blockNo : Nat) : Prop :=
  ∃ v block, db.getVerificationByL2BlockNo blockNo = .ok (some v) ∧
      db.blocks[blockNo]? = some block ∧ v.stateRoot = block.stateRoot

/-
  A run of calls, each on any database, with the progress it has recorded and the blocks that were
  compared and found equal.
-/
inductive VerifyRun (isSequencer : Bool) (condition : Db → Nat → Prop) :
    Nat → Set Nat → Prop
  | start : VerifyRun isSequencer condition 0 ∅
  | call {highestChecked : Nat} {compared : Set Nat} (db : Db)
      (hRun : VerifyRun isSequencer condition highestChecked compared)
      (hCondition : condition db highestChecked) :
      VerifyRun isSequencer condition (verifyAgainstLocalBlocks isSequencer db highestChecked).2
        (compared ∪
          { blockNo |
            checkedBlock isSequencer db highestChecked =
                some blockNo ∧
              RootsEqual db blockNo })

/-
  The node has caught up with the L1, or the hashed block is in the latest verified batch, or no
  block of its batch is left to check.
-/
def Caught (db : Db) (highestChecked : Nat) : Prop :=
  db.getHighestVerifiedBlockNo ≤ db.hashedBlockNo ∨
    ∀ batchNo, db.getBatchNoByL2Block db.hashedBlockNo =
          .ok batchNo →
        batchNo = 0 ∨
          some batchNo = db.getLatestVerification.map (·.batchNo) ∨
          Db.highestOf (db.getL2BlockNosByBatch batchNo) ≤ highestChecked

variable {isSequencer : Bool} {db : Db} {highestChecked blockNo batchNo : Nat} {compared : Set Nat}

theorem highestOf_mem (blockNumbers : List Nat) :
    Db.highestOf blockNumbers = 0 ∨ Db.highestOf blockNumbers ∈ blockNumbers := by
  have hFold : ∀ highest, blockNumbers.foldl (fun highest num =>
    if num > highest then num else highest) highest = highest ∨
      blockNumbers.foldl (fun highest num =>
        if num > highest then num else highest) highest ∈ blockNumbers := by
    induction blockNumbers with
    | nil => exact fun highest => Or.inl rfl
    | cons num blockNumbers ih =>
      intro highest
      rw [List.foldl_cons]
      rcases ih (if num > highest then num else highest) with hSame | hMem
      · rw [hSame]
        split
        · exact Or.inr List.mem_cons_self
        · exact Or.inl rfl
      · exact Or.inr (List.mem_cons_of_mem num hMem)
  exact hFold 0

theorem mem_getL2BlockNosByBatch :
    blockNo ∈ db.getL2BlockNosByBatch batchNo ↔
      ∃ block, db.blocks[blockNo]? = some block ∧ block.batchNo = batchNo := by
  simp only [Db.getL2BlockNosByBatch, List.mem_filter, List.mem_range, decide_eq_true_eq,
    Option.map_eq_some_iff]
  refine and_iff_right_of_imp ?_
  rintro ⟨block, hBlock, -⟩
  exact (List.getElem?_eq_some_iff.mp hBlock).1

theorem getLatestVerification_mem {v : Verification} (hLatest : db.getLatestVerification = some v) :
    v ∈ db.verifications := by
  have hFold : ∀ (rows : List Verification) latest, rows.foldl (fun latest row =>
    if row.batchNo > (latest.map (·.batchNo)).getD 0 then some row
    else latest) latest = some v → latest = some v ∨ v ∈ rows := by
    intro rows
    induction rows with
    | nil => exact fun latest hSame => Or.inl hSame
    | cons row rows ih =>
      intro latest hRows
      rw [List.foldl_cons] at hRows
      rcases ih _ hRows with hSame | hMem
      · split at hSame
        · cases hSame
          exact Or.inr List.mem_cons_self
        · exact Or.inl hSame
      · exact Or.inr (List.mem_cons_of_mem row hMem)
  rcases hFold db.verifications none hLatest with hNone | hMem
  · cases hNone
  · exact hMem

theorem getHighestVerifiedBlockNo_eq {v : Verification}
    (hLatest : db.getLatestVerification = some v) :
    db.getHighestVerifiedBlockNo = db.getHighestBlockInBatch v.batchNo := by
  rw [Db.getHighestVerifiedBlockNo, hLatest]

theorem verifiedBlock_known (hVerified : db.getHighestVerifiedBlockNo ≠ 0) :
    ∃ v block, db.getVerificationByL2BlockNo db.getHighestVerifiedBlockNo = .ok (some v) ∧
        db.blocks[db.getHighestVerifiedBlockNo]? = some block := by
  cases hLatest : db.getLatestVerification with
  | none => simp [Db.getHighestVerifiedBlockNo, hLatest] at hVerified
  | some latest =>
    have hHighest := getHighestVerifiedBlockNo_eq hLatest
    rw [hHighest, Db.getHighestBlockInBatch] at hVerified
    rw [hHighest, Db.getHighestBlockInBatch]
    by_cases hGenesis : latest.batchNo = 0
    · rw [if_pos hGenesis] at hVerified
      exact absurd rfl hVerified
    · rw [if_neg hGenesis] at hVerified ⊢
      have hMem := (highestOf_mem _).resolve_left hVerified
      rcases mem_getL2BlockNosByBatch.mp hMem with ⟨block, hBlock, hBatch⟩
      have hRow : (db.getVerificationByBatchNo latest.batchNo).isSome := by
        rw [Db.getVerificationByBatchNo, List.find?_isSome]
        exact ⟨latest, getLatestVerification_mem hLatest, by simp⟩
      rcases Option.isSome_iff_exists.mp hRow with ⟨v, hV⟩
      refine ⟨v, block, ?_, hBlock⟩
      rw [Db.getVerificationByL2BlockNo, Db.getBatchNoByL2Block, hBlock]
      simp only [Except.map, hBatch, hV]

theorem blockToCheck_eq (hCaught : Caught db highestChecked)
    (hPick : blockToCheck db = some blockNo) (hFresh : highestChecked < blockNo) :
    blockNo = db.getHighestVerifiedBlockNo := by
  revert hPick
  fun_cases blockToCheck db with
  | case1 verifiedBlockNo hBehind => exact fun hPick => (Option.some.inj hPick).symm
  | case5 verifiedBlockNo hBehind hashedBatch hBatch hNotGenesis =>
    rintro ⟨⟩
    rcases hCaught.resolve_left hBehind _ hBatch with hZero | hLatest | hDone
    · exact absurd hZero hNotGenesis
    · rcases Option.map_eq_some_iff.mp hLatest.symm with ⟨v, hV, rfl⟩
      rw [getHighestVerifiedBlockNo_eq hV, Db.getHighestBlockInBatch, if_neg hNotGenesis]
    · omega
  | _ => rintro ⟨⟩

/- What has to hold for a call to compare a block. -/
theorem checkedBlock_eq_some_iff :
    checkedBlock isSequencer db highestChecked =
        some blockNo ↔
      db.hashedBlockNo ≠ 0 ∧
        db.getHighestVerifiedBlockNo ≠ 0 ∧
        blockToCheck db = some blockNo ∧ highestChecked < blockNo ∧ isSequencer = false := by
  fun_cases checkedBlock isSequencer db highestChecked <;> grind

/- A comparison of a known block says whether it is equal. -/
theorem blockComparison_eq {v : Verification} {block : LocalBlock}
    (hV : db.getVerificationByL2BlockNo blockNo = .ok (some v))
    (hBlock : db.blocks[blockNo]? = some block) :
    blockComparison db blockNo =
      if v.stateRoot = block.stateRoot then .ok () else .error errStateRootMismatch := by
  rw [blockComparison, hV, hBlock]
  by_cases hEqual : v.stateRoot = block.stateRoot <;> simp [Except.mapError, hEqual]

/-
  Where the condition holds, a call that compares records the block that it found equal, or
  reports the mismatch and records nothing.
-/
theorem verify_checked (hCaught : Caught db highestChecked)
    (hChecked : checkedBlock isSequencer db highestChecked = some blockNo) :
    (RootsEqual db blockNo ∧
        verifyAgainstLocalBlocks isSequencer db highestChecked = (.ok (), blockNo)) ∨
      (¬ RootsEqual db blockNo ∧
        verifyAgainstLocalBlocks isSequencer db highestChecked =
          (.error errStateRootMismatch, highestChecked)) := by
  rcases checkedBlock_eq_some_iff.mp hChecked with ⟨-, hVerified, hPick, hFresh, -⟩
  have hEq := blockToCheck_eq hCaught hPick hFresh
  rcases verifiedBlock_known hVerified with ⟨v, block, hV, hBlock⟩
  rw [← hEq] at hV hBlock
  have hCompare := blockComparison_eq hV hBlock
  by_cases hRoots : v.stateRoot = block.stateRoot
  · rw [if_pos hRoots] at hCompare
    refine Or.inl ⟨⟨v, block, hV, hBlock, hRoots⟩, ?_⟩
    simp only [verifyAgainstLocalBlocks, hChecked, hCompare, ← hEq]
  · rw [if_neg hRoots] at hCompare
    refine Or.inr ⟨?_, ?_⟩
    · rintro ⟨v', block', hV', hBlock', hRoots'⟩
      cases hV.symm.trans hV'
      cases hBlock.symm.trans hBlock'
      exact hRoots hRoots'
    · simp only [verifyAgainstLocalBlocks, hChecked, hCompare]

/-
  The recorded progress is not above the highest block that was compared and found equal.  A
  verified block of a node that has hashed it, with another root, is reported by the next call,
  unless a block not below it was found equal.
-/
theorem verification_never_skips (isSequencer : Bool) (highestChecked : Nat) (compared : Set Nat)
    (hRun : VerifyRun isSequencer Caught highestChecked compared) :
    (highestChecked = 0 ∨
        ∃ blockNo ∈ compared, highestChecked ≤ blockNo) ∧
      ∀ db : Db, isSequencer = false →
        db.getHighestVerifiedBlockNo ≠ 0 → db.getHighestVerifiedBlockNo ≤ db.hashedBlockNo →
        ¬ RootsEqual db db.getHighestVerifiedBlockNo →
        (verifyAgainstLocalBlocks isSequencer db highestChecked).1 = .error errStateRootMismatch ∨
          ∃ blockNo ∈ compared, db.getHighestVerifiedBlockNo ≤ blockNo := by
  have hProgress : highestChecked = 0 ∨ ∃ blockNo ∈ compared, highestChecked ≤ blockNo := by
    induction hRun with
    | start => exact Or.inl rfl
    | @call highestChecked compared db hRun hCaught ih =>
      have hBefore (more : Set Nat) := ih.imp_right
        (Exists.imp fun _ => And.imp_left (Set.mem_union_left more))
      cases hChecked : checkedBlock isSequencer db highestChecked with
      | none =>
        simp only [verifyAgainstLocalBlocks, hChecked]
        exact hBefore _
      | some blockNo =>
        rcases verify_checked hCaught hChecked with ⟨hEqual, hResult⟩ | ⟨-, hResult⟩ <;>
          rw [hResult]
        · exact Or.inr ⟨blockNo, Or.inr ⟨rfl, hEqual⟩, le_refl _⟩
        · exact hBefore _
  refine ⟨hProgress, ?_⟩
  intro db hNode hVerified hHashed hDiffer
  by_cases hFresh : highestChecked < db.getHighestVerifiedBlockNo
  · left
    have hPick : blockToCheck db = some db.getHighestVerifiedBlockNo := by
      simp only [blockToCheck, hHashed, if_true]
    have hChecked :
        checkedBlock isSequencer db highestChecked = some db.getHighestVerifiedBlockNo :=
      checkedBlock_eq_some_iff.mpr ⟨by omega, hVerified, hPick, hFresh, hNode⟩
    rcases verify_checked (Or.inl hHashed) hChecked with ⟨hEqual, -⟩ | ⟨-, hResult⟩
    · exact absurd hEqual hDiffer
    · rw [hResult]
  · right
    rcases hProgress with hZero | ⟨blockNo, hMem, hLe⟩
    · omega
    · exact ⟨blockNo, hMem, by omega⟩

/- Three batches of one block each behind the genesis. -/
def threeBatches (hashedBlockNo : Nat) (verifications : List Verification) : Db where
  hashedBlockNo := hashedBlockNo
  verifications := verifications
  blocks := [⟨0, 1⟩, ⟨1, 2⟩, ⟨2, 3⟩, ⟨3, 4⟩]

/- Block 1 is hashed and verified, then block 3. -/
theorem verification_never_skips_caught_up :
    ∃ compared, VerifyRun false Caught 3 compared ∧ ∃ blockNo ∈ compared, 3 ≤ blockNo := by
  have hFirst : Caught (threeBatches 1 [⟨10, 1, 2⟩]) 0 := Or.inl (by decide)
  have hSecond : Caught (threeBatches 3 [⟨10, 1, 2⟩, ⟨20, 3, 4⟩]) 1 := Or.inl (by decide)
  have hRun := VerifyRun.call (threeBatches 3 [⟨10, 1, 2⟩, ⟨20, 3, 4⟩])
      (VerifyRun.call (threeBatches 1 [⟨10, 1, 2⟩]) (@VerifyRun.start false Caught) hFirst) hSecond
  have hSafe := verification_never_skips false 3 _ hRun
  exact ⟨_, hRun, hSafe.1.resolve_left (by decide)⟩

/-
  Batch 3 is verified with another root while only block 1 is hashed.  The call compares nothing
  and records block 3, and the mismatch is not reported when block 3 is hashed.
-/
theorem unverified_progress_recorded :
    checkedBlock false (threeBatches 1 [⟨20, 3, 9⟩]) 0 =
        some 1 ∧
      (threeBatches 1 [⟨20, 3, 9⟩]).getVerificationByL2BlockNo 1 = .ok none ∧
      verifyAgainstLocalBlocks false (threeBatches 1 [⟨20, 3, 9⟩]) 0 = (.ok (), 3) ∧
      verifyAgainstLocalBlocks false (threeBatches 3 [⟨20, 3, 9⟩]) 3 = (.ok (), 3) := by
  decide

end XLayerErigon.L1Syncer
