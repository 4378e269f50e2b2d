import XLayerErigon.HermezDb.BlockBatches

/-
  The block up to which an execution may short circuit.

  The loop looks at one batch a round.  Below the verified batch it is the same batch in every
  round, so the loop goes on for ever if that batch has no block.

  Main results:
    * `shortCircuitLoop_next`
    * `shortCircuit_iff`
-/

namespace XLayerErigon.Batches

open HermezDb

-- The Code

/- The value of the last row, 0 if there is none. -/
def getLatestDownloadedBatchNo (db : BatchTables) : Nat :=
  (bytesToUint64 ((db.blockBatches.entries.getLast?.map Prod.snd).getD [])).toNat

/- The highest block and whether there is one; batch 0 has block 0. -/
def getHighestBlockInBatch (db : BatchTables) (batchNo : Nat) : Nat × Bool :=
  if batchNo = 0 then (0, true)
  else
    match db.getL2BlockNosByBatch (BitVec.ofNat 64 batchNo) with
    | [] => (0, false)
    | blocks =>
      (blocks.foldl (fun max block => if block.toNat > max then block.toNat else max) 0, true)

/- What the function reads before its loop. -/
structure Progress where
  toVerified : Bool
  executed : Nat
  verified : Nat
  downloaded : Nat

/- The batch to look at while the executed batch is below the verified one. -/
def Progress.verifiedTarget (p : Progress) : Nat :=
  if p.downloaded < p.verified then p.downloaded else p.verified

/- The loop; `none` if the rounds do not suffice. -/
def shortCircuitLoop (db : BatchTables) (p : Progress) : Nat → Nat → Nat → Option (Bool × Nat)
  | 0, _, _ => none
  | fuel + 1, cycle, block =>
    if block = 0 ∨ (p.toVerified = false ∧ (p.executed + cycle) % 2 ^ 64 < p.downloaded) then
      let cycle := (cycle + 1) % 2 ^ 64
      if p.executed < p.verified ∧ p.toVerified = true then
        shortCircuitLoop db p fuel cycle (getHighestBlockInBatch db p.verifiedTarget).1
      else if (p.executed + cycle) % 2 ^ 64 ≤ p.downloaded then
        shortCircuitLoop db p fuel cycle
          (getHighestBlockInBatch db ((p.executed + cycle) % 2 ^ 64)).1
      else some (false, 0)
    else some (true, block)

/- The executed block may not be stored. -/
def readProgress (db : BatchTables) (toVerified : Bool) (highestVerifiedBatchNo : Nat)
    (executedBlock : Uint64) : Progress where
  toVerified := toVerified
  executed :=
    match db.getBatchNoByL2Block executedBlock with
    | .error _ => 0
    | .ok batchNo => batchNo.toNat
  verified := highestVerifiedBatchNo
  downloaded := getLatestDownloadedBatchNo db

def shouldShortCircuitExecution (fuel : Nat) (db : BatchTables) (toVerified : Bool)
    (highestVerifiedBatchNo : Nat) (executedBlock : Uint64) : Option (Bool × Nat) :=
  shortCircuitLoop db (readProgress db toVerified highestVerifiedBatchNo executedBlock) fuel 0 0

-- What It Should Do

/- A block to stop at is the highest of a downloaded batch above the executed one. -/
def GoodTarget (db : BatchTables) (p : Progress) (result : Bool × Nat) : Prop :=
  ∀ block, result = (true, block) → ∃ batch, p.executed < batch ∧ batch ≤ p.downloaded ∧
    getHighestBlockInBatch db batch = (block, true)

def ShortCircuits (db : BatchTables) (toVerified : Bool) (verified : Nat)
    (executedBlock : Uint64) : Prop :=
  ∃ fuel result, shouldShortCircuitExecution fuel db toVerified verified executedBlock =
      some result ∧
    GoodTarget db (readProgress db toVerified verified executedBlock) result

/- Below the verified batch something new is downloaded and the batch to stop at has a block. -/
def HasTarget (db : BatchTables) (p : Progress) : Prop :=
  p.executed < p.verified → p.toVerified = true →
    p.executed < p.downloaded ∧ (getHighestBlockInBatch db p.verifiedTarget).1 ≠ 0

/- The batch numbers can be counted on. -/
def Progress.Small (p : Progress) : Prop := p.executed + 1 < 2 ^ 64 ∧ p.downloaded + 1 < 2 ^ 64

-- The Loop

variable {db : BatchTables} {p : Progress}

theorem getHighestBlockInBatch_found {batch : Nat}
    (hBlock : (getHighestBlockInBatch db batch).1 ≠ 0) :
    getHighestBlockInBatch db batch = ((getHighestBlockInBatch db batch).1, true) := by
  unfold getHighestBlockInBatch at *
  grind

/-
  Away from the verified batch every round looks at the next batch, and there is one left to look
  at for at most as many rounds as batches are downloaded.
-/
theorem shortCircuitLoop_next (hNext : ¬ (p.executed < p.verified ∧ p.toVerified = true))
    (hSmall : p.Small) (cycle block : Nat)
    (hBlock : block ≠ 0 → 0 < cycle ∧ p.executed + cycle ≤ p.downloaded ∧
      (getHighestBlockInBatch db (p.executed + cycle)).1 = block)
    (hCycle : p.executed + cycle ≤ max p.executed p.downloaded) :
    ∃ fuel result, shortCircuitLoop db p fuel cycle block = some result ∧
      GoodTarget db p result := by
  rcases hSmall with ⟨hExecuted, hDownloaded⟩
  generalize hLeft : p.downloaded - (p.executed + cycle) = left
  induction left using Nat.strong_induction_on generalizing cycle block with
  | _ left ih =>
    have hMod : (p.executed + cycle) % 2 ^ 64 = p.executed + cycle := Nat.mod_eq_of_lt (by omega)
    have hModNext : (p.executed + (cycle + 1) % 2 ^ 64) % 2 ^ 64 = p.executed + (cycle + 1) := by
      rw [Nat.mod_eq_of_lt (by omega : cycle + 1 < 2 ^ 64), Nat.mod_eq_of_lt (by omega)]
    by_cases hGo : block = 0 ∨ (p.toVerified = false ∧ p.executed + cycle < p.downloaded)
    · by_cases hLe : p.executed + (cycle + 1) ≤ p.downloaded
      · rcases ih (p.downloaded - (p.executed + (cycle + 1))) (by omega) (cycle + 1)
          (getHighestBlockInBatch db (p.executed + (cycle + 1))).1
          (fun _ => ⟨Nat.succ_pos cycle, hLe, rfl⟩) (le_max_of_le_right hLe) rfl with
          ⟨fuel, result, hRun, hGood⟩
        refine ⟨fuel + 1, result, ?_, hGood⟩
        simp only [shortCircuitLoop, hMod, hGo, if_true, hNext, if_false, hModNext, hLe]
        rwa [Nat.mod_eq_of_lt (by omega : cycle + 1 < 2 ^ 64)]
      · refine ⟨1, (false, 0), ?_, by simp [GoodTarget]⟩
        simp only [shortCircuitLoop, hMod, hGo, if_true, hNext, if_false, hModNext, hLe]
    · rcases hBlock (fun h => hGo (Or.inl h)) with ⟨hPos, hLe, hHighest⟩
      refine ⟨1, (true, block), by simp only [shortCircuitLoop, hMod, hGo, if_false], ?_⟩
      rintro _ ⟨⟩
      refine ⟨p.executed + cycle, by omega, hLe, ?_⟩
      have hFound := @getHighestBlockInBatch_found db (p.executed + cycle)
        (by rw [hHighest]; exact fun h => hGo (Or.inl h))
      rwa [hHighest] at hFound

/- A batch without a block is looked at for ever. -/
theorem shortCircuitLoop_stuck (hBelow : p.executed < p.verified) (hOption : p.toVerified = true)
    (hEmpty : (getHighestBlockInBatch db p.verifiedTarget).1 = 0) (fuel cycle : Nat) :
    shortCircuitLoop db p fuel cycle 0 = none := by
  induction fuel generalizing cycle with
  | zero => rfl
  | succ fuel ih =>
    simp only [shortCircuitLoop, hBelow, hOption, hEmpty, true_or, and_self, if_true]
    exact ih _

theorem shortCircuitLoop_verified (hBelow : p.executed < p.verified) (hOption : p.toVerified = true)
    (hBlock : (getHighestBlockInBatch db p.verifiedTarget).1 ≠ 0) (fuel : Nat) :
    shortCircuitLoop db p (fuel + 2) 0 0 =
      some (true, (getHighestBlockInBatch db p.verifiedTarget).1) := by
  simp [shortCircuitLoop, hBelow, hOption, hBlock]

theorem shortCircuitLoop_mono {fuel cycle block : Nat} {result : Bool × Nat}
    (hRun : shortCircuitLoop db p fuel cycle block = some result) :
    shortCircuitLoop db p (fuel + 1) cycle block = some result := by
  induction fuel generalizing cycle block with
  | zero => cases hRun
  | succ fuel ih =>
    rw [shortCircuitLoop] at hRun ⊢
    grind

/-
  With a batch to stop at the function returns, and returns a good block.  As long as the batch
  numbers can be counted on, it does so only then.
-/
theorem shortCircuit_iff (db : BatchTables) (toVerified : Bool) (verified : Nat)
    (executedBlock : Uint64) :
    ((readProgress db toVerified verified executedBlock).Small ∧
        HasTarget db (readProgress db toVerified verified executedBlock) →
      ShortCircuits db toVerified verified executedBlock) ∧
    (ShortCircuits db toVerified verified executedBlock →
      HasTarget db (readProgress db toVerified verified executedBlock)) := by
  unfold ShortCircuits shouldShortCircuitExecution
  generalize readProgress db toVerified verified executedBlock = p
  constructor
  · rintro ⟨hSmall, hTarget⟩
    by_cases hBelow : p.executed < p.verified ∧ p.toVerified = true
    · rcases hTarget hBelow.1 hBelow.2 with ⟨hNew, hBlock⟩
      refine ⟨2, _, shortCircuitLoop_verified hBelow.1 hBelow.2 hBlock 0, ?_⟩
      rintro _ ⟨⟩
      refine ⟨p.verifiedTarget, ?_, ?_, getHighestBlockInBatch_found hBlock⟩ <;>
        (unfold Progress.verifiedTarget; split <;> omega)
    · exact shortCircuitLoop_next hBelow hSmall 0 0 (by simp) (by simp)
  · rintro ⟨fuel, result, hRun, hGood⟩ hBelow hOption
    have hBlock : (getHighestBlockInBatch db p.verifiedTarget).1 ≠ 0 := by
      intro hEmpty
      rw [shortCircuitLoop_stuck hBelow hOption hEmpty] at hRun
      cases hRun
    refine ⟨?_, hBlock⟩
    have hMore := shortCircuitLoop_mono (shortCircuitLoop_mono hRun)
    rw [shortCircuitLoop_verified hBelow hOption hBlock] at hMore
    rcases hGood _ (Option.some.inj hMore).symm with ⟨batch, hAbove, hLe, -⟩
    omega

/- Nothing is downloaded and batch 5 is verified: batch 0 is looked at for ever. -/
theorem empty_batch_searched_for_ever :
    getLatestDownloadedBatchNo BatchTables.empty = 0 ∧
      ¬ ShortCircuits BatchTables.empty true 5 0 := by
  refine ⟨by decide, ?_⟩
  rintro ⟨fuel, result, hRun, -⟩
  rw [shouldShortCircuitExecution, shortCircuitLoop_stuck (by decide) rfl (by decide)] at hRun
  cases hRun

end XLayerErigon.Batches
