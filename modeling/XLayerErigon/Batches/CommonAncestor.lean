import XLayerErigon.L1InfoTree.Tree

/-
  The search for the last block that the node and the data stream have in common.

  The search halves the interval between the genesis block and the latest block of the stream.  It
  gives up as soon as the upper end of the interval is the genesis block, and it adds the two ends
  in 64 bits.

  Main results:
    * `reaches_target`
    * `reaches_genesis_iff`
    * `findCommonAncestor_iff`
-/

namespace XLayerErigon.Batches

-- The Search

structure ChainBlock where
  hash : Bytes32
  batch : Nat
  deriving DecidableEq

/-
  The blocks of a chain from the genesis block on.  The zero hash stands for a block that is not
  there.
-/
structure Chain where
  blocks : List ChainBlock
  hash_ne : ∀ block ∈ blocks, block.hash ≠ 0

def readCanonicalHash (chain : Chain) (blockNo : Nat) : Bytes32 :=
  (chain.blocks[blockNo]?.map (·.hash)).getD 0

/- There is no row behind the last block. -/
def getBatchNoByL2Block (chain : Chain) (blockNo : Nat) : Except Failure Nat :=
  match chain.blocks[blockNo]? with
  | none => .error (.error "not stored")
  | some block => .ok block.batch

/- The remote node answers from tables of the same kind. -/
def getZKBlockByNumberHash (remote : Chain) (blockNum : Nat) : Bytes32 :=
  readCanonicalHash remote blockNum

def getBatchNumberByBlockNumber (remote : Chain) (blockNum : Nat) : Except Failure Nat :=
  getBatchNoByL2Block remote blockNum

def errFailedToFindCommonAncestor : Failure :=
  .error "failed to find common ancestor block in the db"

/- The hash of a block that matches on both sides. -/
def blocksMatch (db remote : Chain) (midBlockNum : Nat) : Except Failure (Option Bytes32) := do
  let headerHash := getZKBlockByNumberHash remote midBlockNum
  let blockBatch ←
    (getBatchNumberByBlockNumber remote midBlockNum).mapError
      (Failure.wrap
        ("GetBatchNumberByBlockNumber: " ++
          "failed to get batch number for block " ++ toString midBlockNum))
  let midBlockDbHash := readCanonicalHash db midBlockNum
  let dbBatchNum ←
    (getBatchNoByL2Block db midBlockNum).mapError
      (Failure.wrap ("GetBatchNoByL2Block block " ++ toString midBlockNum))
  .ok (if headerHash ≠ 0 ∧ headerHash = midBlockDbHash ∧ blockBatch = dbBatchNum then
    some midBlockDbHash
    else none)

/-
  The loop, for at most `fuel` rounds.  The numbers are of 64 bits, and the block found last is
  kept with its hash.
-/
def searchLoop (probe : Nat → Except Failure (Option Bytes32)) :
    Nat → Nat → Nat → Option (Nat × Bytes32) → Option (Except Failure (Nat × Bytes32))
  | 0, _, _, _ => none
  | fuel + 1, startBlockNum, endBlockNum, found =>
      if startBlockNum ≤ endBlockNum then
        if endBlockNum = 0 then
          some (.error errFailedToFindCommonAncestor)
        else
          let midBlockNum := (startBlockNum + endBlockNum) % 2 ^ 64 / 2
          match probe midBlockNum with
          | .error failure => some (.error failure)
          | .ok (some hash) =>
            searchLoop probe fuel ((midBlockNum + 1) % 2 ^ 64) endBlockNum
              (some (midBlockNum, hash))
          | .ok none =>
            searchLoop probe fuel startBlockNum ((midBlockNum + (2 ^ 64 - 1)) % 2 ^ 64) found
      else
        match found with
        | none => some (.error errFailedToFindCommonAncestor)
        | some block => some (.ok block)

def findCommonAncestor (fuel : Nat) (db remote : Chain) (latestBlockNum : Nat) :
    Option (Except Failure (Nat × Bytes32)) :=
  if latestBlockNum = 0 then
    some (.error errFailedToFindCommonAncestor)
  else
    searchLoop (blocksMatch db remote) fuel 0 latestBlockNum none

/- Both chains have the block, with its hash and batch. -/
def Agree (db remote : Chain) (blockNum : Nat) : Prop :=
  ∃ block, db.blocks[blockNum]? = some block ∧ remote.blocks[blockNum]? = some block

-- One Round

variable {probe : Nat → Except Failure (Option Bytes32)} {hash : Nat → Bytes32}
  {startBlockNum endBlockNum target top : Nat} {result : Except Failure (Nat × Bytes32)}

/- The block found last lies right below the interval. -/
def foundBelow (hash : Nat → Bytes32) :
    Nat → Option (Nat × Bytes32)
  | 0 => none
  | blockNum + 1 => some (blockNum, hash blockNum)

/- The search of an interval ends with a result. -/
def Reaches (probe : Nat → Except Failure (Option Bytes32)) (hash : Nat → Bytes32)
    (startBlockNum endBlockNum : Nat) (result : Except Failure (Nat × Bytes32)) : Prop :=
  ∃ fuel,
    searchLoop probe fuel startBlockNum endBlockNum (foundBelow hash startBlockNum) = some result

theorem reaches_of_round {startBlockNum' endBlockNum' : Nat}
    (hRound : ∀ fuel, searchLoop probe (fuel + 1) startBlockNum endBlockNum
      (foundBelow hash startBlockNum) = searchLoop probe fuel startBlockNum' endBlockNum'
      (foundBelow hash startBlockNum')) :
    Reaches probe hash startBlockNum endBlockNum result ↔
      Reaches probe hash startBlockNum' endBlockNum' result := by
  constructor
  · rintro ⟨fuel, hRun⟩
    cases fuel with
    | zero => cases hRun
    | succ fuel => exact ⟨fuel, (hRound fuel).symm.trans hRun⟩
  · rintro ⟨fuel, hRun⟩
    exact ⟨fuel + 1, (hRound fuel).trans hRun⟩

section

variable (hLe : startBlockNum ≤ endBlockNum)

include hLe

/- The next round after a block that matches. -/
theorem reaches_match {mid : Nat} (hEnd : endBlockNum ≠ 0)
    (hMid : (startBlockNum + endBlockNum) % 2 ^ 64 / 2 = mid)
    (hProbe : probe mid = .ok (some (hash mid))) :
    Reaches probe hash startBlockNum endBlockNum result ↔
      Reaches probe hash (mid + 1) endBlockNum result := by
  apply reaches_of_round
  intro fuel
  have hSmall : (mid + 1) % 2 ^ 64 = mid + 1 := by omega
  simp only [searchLoop, hLe, hEnd, if_true, if_false, hMid, hProbe, hSmall, foundBelow]

/- The next round after a block that does not match. -/
theorem reaches_differ {mid : Nat} (hEnd : endBlockNum ≠ 0)
    (hMid : (startBlockNum + endBlockNum) % 2 ^ 64 / 2 = mid) (hPos : 0 < mid)
    (hProbe : probe mid = .ok none) : Reaches probe hash startBlockNum endBlockNum result ↔
      Reaches probe hash startBlockNum (mid - 1) result := by
  apply reaches_of_round
  intro fuel
  have hBelow : (mid + (2 ^ 64 - 1)) % 2 ^ 64 = mid - 1 := by omega
  simp only [searchLoop, hLe, hEnd, if_true, if_false, hMid, hProbe, hBelow]

theorem reaches_failure {mid : Nat} {failure : Failure}
    (hEnd : endBlockNum ≠ 0) (hMid : (startBlockNum + endBlockNum) % 2 ^ 64 / 2 = mid)
    (hProbe : probe mid = .error failure)
    (hReaches : Reaches probe hash startBlockNum endBlockNum result) : result = .error failure := by
  rcases hReaches with ⟨fuel, hRun⟩
  cases fuel with
  | zero => cases hRun
  | succ fuel =>
    simp only [searchLoop, hLe, hEnd, if_true, if_false, hMid, hProbe] at hRun
    exact (Option.some.inj hRun).symm

end

/- The interval of the genesis block alone is given up. -/
theorem not_reaches_zero {block : Nat × Bytes32} : ¬ Reaches probe hash 0 0 (.ok block) := by
  rintro ⟨fuel, hRun⟩
  cases fuel with
  | zero => cases hRun
  | succ fuel => simp [searchLoop] at hRun

-- Intervals Without Overflow

/- The blocks up to the target match, the others do not. -/
structure Probes (probe : Nat → Except Failure (Option Bytes32))
    (hash : Nat → Bytes32) (target top : Nat) : Prop where
  matches_below : ∀ m, m ≤ target → probe m = .ok (some (hash m))
  differs_above : ∀ m, target < m → m < top → probe m = .ok none
  fails_beyond : ∀ m, target < m → top ≤ m → ∃ failure, probe m = .error failure

/-
  Unless the search stands at the genesis block alone, it ends at the target.  The induction is on
  the length of the interval, which always holds the target or the block above it.
-/
theorem reaches_target (hMatches : ∀ m, m ≤ target → probe m = .ok (some (hash m)))
    (hDiffers : ∀ m, target < m → m ≤ endBlockNum → probe m = .ok none)
    (hStart : startBlockNum ≤ target + 1) (hTarget : target ≤ endBlockNum)
    (hSmall : endBlockNum < 2 ^ 63) (hPos : 0 < target ∨ 0 < startBlockNum) :
    Reaches probe hash startBlockNum endBlockNum (.ok (target, hash target)) := by
  generalize hLength : endBlockNum + 1 - startBlockNum = length
  induction length using Nat.strong_induction_on generalizing startBlockNum endBlockNum with
  | _ length ih =>
    by_cases hLe : startBlockNum ≤ endBlockNum
    · have hEnd : endBlockNum ≠ 0 := by omega
      have hMid :
          (startBlockNum + endBlockNum) % 2 ^ 64 / 2 = (startBlockNum + endBlockNum) / 2 := by
        omega
      by_cases hMatch : (startBlockNum + endBlockNum) / 2 ≤ target
      · rw [reaches_match hLe hEnd hMid (hMatches _ hMatch)]
        exact ih _ (by omega) hDiffers (by omega) hTarget hSmall (by omega) rfl
      · rw [reaches_differ hLe hEnd hMid (by omega) (hDiffers _ (by omega) (by omega))]
        refine ih _ (by omega) ?_ hStart (by omega) (by omega) hPos rfl
        intro m hAbove hBelow
        exact hDiffers m hAbove (by omega)
    · have hDone : startBlockNum = target + 1 := by omega
      subst hDone
      refine ⟨1, ?_⟩
      simp [searchLoop, hLe, foundBelow]

/-
  From which latest blocks the search gets to the genesis block: the interval shrinks to the
  blocks 0 and 1.
-/
def shrinksToOne (endBlockNum : Nat) : Prop :=
  ∃ j, 3 * 2 ^ j ≤ endBlockNum + 2 ∧ endBlockNum + 3 ≤ 2 ^ (j + 2)

theorem shrinksToOne_one : shrinksToOne 1 := ⟨0, by decide, by decide⟩

theorem not_shrinksToOne_zero : ¬ shrinksToOne 0 := by
  rintro ⟨j, hLow, -⟩
  have hPow := Nat.one_le_two_pow (n := j)
  omega

theorem shrinksToOne_half (hTwo : 2 ≤ endBlockNum) :
    shrinksToOne endBlockNum ↔ shrinksToOne (endBlockNum / 2 - 1) := by
  constructor
  · rintro ⟨j, hLow, hHigh⟩
    cases j with
    | zero =>
      norm_num at hHigh
      omega
    | succ j =>
      rw [Nat.pow_succ] at hLow hHigh
      exact ⟨j, by omega, by omega⟩
  · rintro ⟨j, hLow, hHigh⟩
    refine ⟨j + 1, ?_, ?_⟩ <;> rw [Nat.pow_succ] <;> omega

/- Only the genesis block matches. -/
theorem reaches_genesis_iff (hProbes : Probes probe hash 0 top) (hTop : endBlockNum < top)
    (hSmall : endBlockNum < 2 ^ 63) :
    Reaches probe hash 0 endBlockNum (.ok (0, hash 0)) ↔ shrinksToOne endBlockNum := by
  induction endBlockNum using Nat.strong_induction_on with
  | _ endBlockNum ih =>
    rcases Nat.lt_or_ge endBlockNum 2 with hLow | hTwo
    · have hCases : endBlockNum = 0 ∨ endBlockNum = 1 := by omega
      rcases hCases with rfl | rfl
      · exact iff_of_false not_reaches_zero not_shrinksToOne_zero
      · refine iff_of_true ?_ shrinksToOne_one
        rw [reaches_match (by omega) (by omega) (show (0 + 1) % 2 ^ 64 / 2 = 0 by omega)
          (hProbes.matches_below 0 (by omega))]
        refine reaches_target hProbes.matches_below ?_
          (by omega) (by omega) hSmall (Or.inr (by omega))
        intro m hAbove hBelow
        exact hProbes.differs_above m hAbove (by omega)
    · have hMid : (0 + endBlockNum) % 2 ^ 64 / 2 = endBlockNum / 2 := by omega
      rw [reaches_differ (by omega) (by omega) hMid (by omega)
          (hProbes.differs_above _ (by omega) (by omega)), shrinksToOne_half hTwo]
      exact ih _ (by omega) (by omega) (by omega)

-- The Whole Search

/-
  The midpoints of the search as long as all of them match:
  the upper end stays the latest block.
-/
def midpoint (latestBlockNum : Nat) : Nat → Nat
  | 0 => latestBlockNum / 2
  | i + 1 =>
      (midpoint latestBlockNum i + 1 + latestBlockNum) % 2 ^ 64 / 2

def startAt (latestBlockNum : Nat) : Nat → Nat
  | 0 => 0
  | i + 1 => midpoint latestBlockNum i + 1

variable {latestBlockNum i : Nat}

theorem midpoint_eq (hLatest : latestBlockNum < 2 ^ 64) :
    (startAt latestBlockNum i + latestBlockNum) % 2 ^ 64 / 2 = midpoint latestBlockNum i := by
  cases i with
  | zero =>
    simp only [startAt, midpoint]
    omega
  | succ i => rfl

theorem midpoint_lt (hLatest : latestBlockNum < 2 ^ 64) : midpoint latestBlockNum i < 2 ^ 63 := by
  rw [← midpoint_eq hLatest]
  omega

theorem startAt_le {bound : Nat} (hBelow : ∀ j, j < i → midpoint latestBlockNum j < bound) :
    startAt latestBlockNum i ≤ bound := by
  cases i with
  | zero => exact Nat.zero_le _
  | succ i => exact hBelow i (Nat.lt_succ_self i)

section

variable (hProbes : Probes probe hash target top) (hPos : latestBlockNum ≠ 0)
  (hLatest : latestBlockNum < 2 ^ 64)

include hProbes hPos hLatest

/- The rounds before the first block that does not match. -/
theorem reaches_startAt (hMatch : ∀ j, j < i → midpoint latestBlockNum j ≤ target)
    (hBelow : ∀ j, j < i → midpoint latestBlockNum j < latestBlockNum) :
    Reaches probe hash 0 latestBlockNum result ↔
      Reaches probe hash (startAt latestBlockNum i) latestBlockNum result := by
  induction i with
  | zero => rfl
  | succ i ih =>
    rw [ih (fun j hj => hMatch j (by omega)) (fun j hj => hBelow j (by omega))]
    have hStart : startAt latestBlockNum i ≤ latestBlockNum :=
      startAt_le (fun j hj => hBelow j (by omega))
    exact reaches_match hStart hPos (midpoint_eq hLatest)
      (hProbes.matches_below _ (hMatch i (Nat.lt_succ_self i)))

/- If every midpoint matches, the search does not end. -/
theorem not_reaches_of_midpoints (hMatch : ∀ j, midpoint latestBlockNum j ≤ target)
    (hBelow : ∀ j, midpoint latestBlockNum j < latestBlockNum) :
    ¬ Reaches probe hash 0 latestBlockNum result := by
  rintro ⟨fuel, hRun⟩
  have hNone : ∀ i, searchLoop probe fuel (startAt latestBlockNum i) latestBlockNum
            (foundBelow hash (startAt latestBlockNum i)) =
          none := by
    clear hRun
    induction fuel with
    | zero => exact fun i => rfl
    | succ fuel ih =>
      intro i
      have hStart : startAt latestBlockNum i ≤ latestBlockNum := startAt_le (fun j _ => hBelow j)
      have hSmall := @midpoint_lt latestBlockNum i hLatest
      have hNext : (midpoint latestBlockNum i + 1) % 2 ^ 64 = startAt latestBlockNum (i + 1) := by
        simp only [startAt]
        omega
      have hRest := ih (i + 1)
      simp only [searchLoop, hStart, hPos, if_true, if_false, midpoint_eq hLatest,
        hProbes.matches_below _ (hMatch i), hNext]
      exact hRest
  cases hRun.symm.trans (hNone 0)

/- The first midpoint above the target is a block that both chains have. -/
def FirstAboveKnown (latestBlockNum target top : Nat) : Prop :=
  ∃ i, target < midpoint latestBlockNum i ∧
      midpoint latestBlockNum i < top ∧ ∀ j, j < i → midpoint latestBlockNum j ≤ target

/- The search once a block did not match. -/
theorem reaches_after_first (hTarget : target < latestBlockNum)
    (hAbove : target < midpoint latestBlockNum i) (hTop : midpoint latestBlockNum i < top)
    (hMatch : ∀ j, j < i → midpoint latestBlockNum j ≤ target) :
    Reaches probe hash 0 latestBlockNum (.ok (target, hash target)) ↔
      0 < target ∨ shrinksToOne latestBlockNum := by
  have hSmall := @midpoint_lt latestBlockNum i hLatest
  have hStart : startAt latestBlockNum i ≤ target + 1 :=
    startAt_le (fun j hj => Nat.lt_succ_of_le (hMatch j hj))
  have hDiffers : ∀ m, target < m → m ≤ midpoint latestBlockNum i - 1 → probe m = .ok none := by
    intro m hLow hHigh
    exact hProbes.differs_above m hLow (by omega)
  rw [reaches_startAt hProbes hPos hLatest hMatch (fun j hj => (hMatch j hj).trans_lt hTarget),
    reaches_differ (by omega) hPos (midpoint_eq hLatest)
      (by omega) (hProbes.differs_above _ hAbove hTop)]
  rcases Nat.eq_zero_or_pos target with rfl | hTargetPos
  · simp only [Nat.lt_irrefl, false_or]
    cases i with
    | zero =>
      simp only [midpoint] at hAbove hTop hSmall ⊢
      rw [shrinksToOne_half (by omega)]
      exact reaches_genesis_iff hProbes (by omega) (by omega)
    | succ i =>
      have hFirst := hMatch 0 (by omega)
      simp only [midpoint] at hFirst
      have hOne : latestBlockNum = 1 := by omega
      subst hOne
      refine iff_of_true ?_ shrinksToOne_one
      exact reaches_target hProbes.matches_below hDiffers hStart (by omega) (by omega)
        (Or.inr (Nat.succ_pos _))
  · refine iff_of_true ?_ (Or.inl hTargetPos)
    exact reaches_target hProbes.matches_below hDiffers
      hStart (by omega) (by omega) (Or.inl hTargetPos)

theorem reaches_iff : Reaches probe hash 0 latestBlockNum
        (.ok (min target latestBlockNum, hash (min target latestBlockNum))) ↔
      (0 < target ∨ shrinksToOne latestBlockNum) ∧ if latestBlockNum ≤ target then
          latestBlockNum < 2 ^ 63
        else FirstAboveKnown latestBlockNum target top := by
  by_cases hAll : latestBlockNum ≤ target
  · rw [if_pos hAll, min_eq_right hAll]
    have hTargetPos : 0 < target := by omega
    simp only [hTargetPos, true_or, true_and]
    by_cases hSmall : latestBlockNum < 2 ^ 63
    · refine iff_of_true ?_ hSmall
      refine reaches_target (fun m hLe => hProbes.matches_below m (by omega)) ?_ (by omega)
        (le_refl _) hSmall (Or.inl (by omega))
      exact fun m hAbove hBelow => absurd hBelow hAbove.not_ge
    · refine iff_of_false ?_ hSmall
      have hMid : ∀ j, midpoint latestBlockNum j < latestBlockNum :=
        fun j => (midpoint_lt hLatest).trans_le (Nat.le_of_not_lt hSmall)
      exact not_reaches_of_midpoints hProbes hPos hLatest (fun j => (hMid j).le.trans hAll) hMid
  · have hTarget := Nat.lt_of_not_le hAll
    rw [if_neg hAll, min_eq_left hTarget.le]
    by_cases hAbove : ∃ i, target < midpoint latestBlockNum i
    · classical
      have hFirst := Nat.find_spec hAbove
      have hMatch : ∀ j, j < Nat.find hAbove → midpoint latestBlockNum j ≤ target :=
        fun j hj => Nat.le_of_not_lt (Nat.find_min hAbove hj)
      have hBelow := fun j hj => (hMatch j hj).trans_lt hTarget
      by_cases hTop : midpoint latestBlockNum (Nat.find hAbove) < top
      · rw [reaches_after_first hProbes hPos hLatest hTarget hFirst hTop hMatch]
        have hKnown : FirstAboveKnown latestBlockNum target top := ⟨_, hFirst, hTop, hMatch⟩
        exact (and_iff_left hKnown).symm
      · refine iff_of_false ?_ ?_
        · intro hReaches
          rw [reaches_startAt hProbes hPos hLatest hMatch hBelow] at hReaches
          rcases hProbes.fails_beyond _ hFirst (by omega) with ⟨failure, hFails⟩
          cases reaches_failure (startAt_le hBelow) hPos (midpoint_eq hLatest) hFails hReaches
        · rintro ⟨-, i, hOther, hOtherTop, hOtherMatch⟩
          have hSame : i = Nat.find hAbove := by
            refine le_antisymm (Nat.le_of_not_lt fun hLess => ?_) (Nat.find_min' hAbove hOther)
            exact (hOtherMatch _ hLess).not_gt hFirst
          exact hTop (hSame ▸ hOtherTop)
    · refine iff_of_false ?_ ?_
      · have hMid : ∀ j, midpoint latestBlockNum j ≤ target := by simpa using hAbove
        exact not_reaches_of_midpoints hProbes hPos hLatest hMid fun j => (hMid j).trans_lt hTarget
      · rintro ⟨-, i, hOther, -⟩
        exact hAbove ⟨i, hOther⟩

end

/-
  For block numbers below 2^63 that both chains have, only the case of the genesis block is left.
-/
theorem firstAboveKnown_of_small (hSmall : latestBlockNum < 2 ^ 63)
    (hTarget : target < latestBlockNum) (hTop : latestBlockNum < top) :
    FirstAboveKnown latestBlockNum target top := by
  have hLe : ∀ i, midpoint latestBlockNum i ≤ latestBlockNum := by
    intro i
    induction i <;> simp only [midpoint] <;> omega
  have hExists : ∃ i, target < midpoint latestBlockNum i := by
    by_contra hNone
    have hBelow : ∀ i, midpoint latestBlockNum i ≤ target := by simpa using hNone
    have hGrows : ∀ i, i ≤ midpoint latestBlockNum i := by
      intro i
      induction i with
      | zero => exact Nat.zero_le _
      | succ i ih =>
        have hThis := hBelow i
        simp only [midpoint]
        omega
    have hHigh := hGrows (target + 1)
    have hLow := hBelow (target + 1)
    omega
  classical
  refine ⟨Nat.find hExists, Nat.find_spec hExists, (hLe _).trans_lt hTop, ?_⟩
  intro j hj
  exact Nat.le_of_not_lt (Nat.find_min hExists hj)

theorem blocksMatch_probes {db remote : Chain} (hAgree : ∀ m, Agree db remote m ↔ m ≤ target) :
    Probes (blocksMatch db remote) (readCanonicalHash db) target
      (min db.blocks.length remote.blocks.length) where
  matches_below := by
    intro m hLe
    rcases (hAgree m).mpr hLe with ⟨block, hDb, hRemote⟩
    have hHash := db.hash_ne block (List.mem_of_getElem? hDb)
    simp only [blocksMatch, getBatchNumberByBlockNumber,
      getBatchNoByL2Block, getZKBlockByNumberHash, readCanonicalHash, hDb, hRemote]
    simpa [Except.mapError] using hHash
  differs_above := by
    intro m hLess hTop
    have hNot : ¬ Agree db remote m := by
      rw [hAgree m]
      omega
    have hDb : db.blocks[m]? = some db.blocks[m] := List.getElem?_eq_getElem (by omega)
    have hRemote : remote.blocks[m]? = some remote.blocks[m] := List.getElem?_eq_getElem (by omega)
    have hDiffer : ¬ (remote.blocks[m].hash = db.blocks[m].hash ∧
          remote.blocks[m].batch = db.blocks[m].batch) := by
      rintro ⟨hHash, hBatch⟩
      refine hNot ⟨db.blocks[m], hDb, ?_⟩
      rw [hRemote]
      generalize remote.blocks[m] = r at hHash hBatch
      generalize db.blocks[m] = d at hHash hBatch
      cases r
      cases d
      simp_all
    simp only [blocksMatch, getBatchNumberByBlockNumber,
      getBatchNoByL2Block, getZKBlockByNumberHash, readCanonicalHash, hDb, hRemote]
    simp [Except.mapError, hDiffer]
  fails_beyond := by
    intro m hLess hTop
    simp only [blocksMatch, getBatchNumberByBlockNumber, getBatchNoByL2Block]
    cases hRemote : remote.blocks[m]? with
    | none => exact ⟨_, rfl⟩
    | some block =>
      have hLength := (List.getElem?_eq_some_iff.mp hRemote).1
      have hDb : db.blocks[m]? = none := List.getElem?_eq_none (by omega)
      rw [hDb]
      exact ⟨_, rfl⟩

/-
  Both chains agree exactly on the blocks up to `k`.  The search returns the greatest block not
  above the latest one on which they agree, if it does not stop at the genesis block, and if it
  meets no block above `k` that one of the chains lacks before the interval has shrunk.
-/
theorem findCommonAncestor_iff (db remote : Chain) (k latestBlockNum : Nat)
    (hAgree : ∀ m, Agree db remote m ↔ m ≤ k) (hPos : 1 ≤ latestBlockNum)
    (hLatest : latestBlockNum < 2 ^ 64) : (∃ fuel,
        findCommonAncestor fuel db remote latestBlockNum =
          some (.ok (min k latestBlockNum, readCanonicalHash db (min k latestBlockNum)))) ↔
      (0 < k ∨ shrinksToOne latestBlockNum) ∧
        if latestBlockNum ≤ k then latestBlockNum < 2 ^ 63
        else FirstAboveKnown latestBlockNum k (min db.blocks.length remote.blocks.length) := by
  have hNe : latestBlockNum ≠ 0 := by omega
  rw [← reaches_iff (blocksMatch_probes hAgree) hNe hLatest]
  simp only [findCommonAncestor, hNe, if_false]
  rfl

/- The genesis block and two blocks of one batch each. -/
def forkedChain (first second : Bytes32) (hFirst : first ≠ 0) (hSecond : second ≠ 0) : Chain where
  blocks := [⟨1, 0⟩, ⟨first, 1⟩, ⟨second, 2⟩]
  hash_ne := by
    intro block hMem
    simp only [List.mem_cons, List.not_mem_nil, or_false] at hMem
    rcases hMem with rfl | rfl | rfl
    · decide
    · exact hFirst
    · exact hSecond

def forkedDb : Chain := forkedChain 2 3 (by decide) (by decide)

def forkedRemote : Chain := forkedChain 4 5 (by decide) (by decide)

theorem agree_forked (m : Nat) : Agree forkedDb forkedRemote m ↔ m ≤ 0 := by
  rcases m with _ | _ | _ | m
  · exact iff_of_true ⟨⟨1, 0⟩, rfl, rfl⟩ (le_refl 0)
  all_goals
    refine iff_of_false ?_ (by omega)
    rintro ⟨block, ⟨⟩, ⟨⟩⟩

/- The latest block 1 leads to the genesis block. -/
theorem findCommonAncestor_iff_one :
    ∃ fuel, findCommonAncestor fuel forkedDb forkedRemote 1 = some (.ok (0, 1)) :=
  (findCommonAncestor_iff forkedDb forkedRemote 0 1 agree_forked (by decide) (by decide)).mpr
    ⟨Or.inr shrinksToOne_one, 1, by decide, by decide, by decide⟩

/- The latest block 2 does not. -/
theorem genesis_ancestor_not_found : Agree forkedDb forkedRemote 0 ∧
      ¬ Agree forkedDb forkedRemote 1 ∧ ¬ Agree forkedDb forkedRemote 2 ∧
      findCommonAncestor 2 forkedDb forkedRemote 2 =
        some (.error (.error "failed to find common ancestor block in the db")) := by
  simp only [agree_forked]
  exact ⟨by decide, by decide, by decide, rfl⟩

end XLayerErigon.Batches
