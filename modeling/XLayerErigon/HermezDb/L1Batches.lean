import XLayerErigon.HermezDb.BlockBatches

/-
  The tables of sequenced and verified batches.

  Their keys are an L1 block and a batch number, in this order, and every query is by the batch
  number.  The search for the next batch starts at the L1 block that has the number of the batch,
  and the truncation removes one row for each batch number.

  Main results:
    * `next_batch_found_iff`
    * `truncated_iff`
-/

namespace XLayerErigon.HermezDb

-- The Tables

structure L1Row where
  l1BlockNo : Nat
  batchNo : Nat
  value : Bytes
  deriving DecidableEq

namespace L1Row

def Before (a b : L1Row) : Prop :=
  a.l1BlockNo < b.l1BlockNo ∨ (a.l1BlockNo = b.l1BlockNo ∧ a.batchNo < b.batchNo)

theorem not_before_self (a : L1Row) : ¬ a.Before a := by
  simp [Before]

theorem not_before_of_before {a b : L1Row} (hBefore : a.Before b) : ¬ b.Before a := by
  simp only [Before] at *
  omega

end L1Row

/- A table in key order; a value holds two or three hashes. -/
structure L1Table where
  rows : List L1Row
  sorted : rows.Pairwise L1Row.Before
  hashes : ∀ row ∈ rows, row.value.length = 64 ∨ row.value.length = 96

structure L1BatchInfo where
  batchNo : Nat
  l1BlockNo : Nat
  l1TxHash : Bytes
  stateRoot : Bytes
  l1InfoRoot : Bytes
  deriving DecidableEq

def L1Row.info (row : L1Row) : L1BatchInfo where
  batchNo := row.batchNo
  l1BlockNo := row.l1BlockNo
  l1TxHash := row.value.take 32
  stateRoot := (row.value.drop 32).take 32
  -- a missing hash is the zero hash
  l1InfoRoot := if row.value.length = 64 then List.replicate 32 0 else row.value.drop 64

def parseL1BatchInfo (row : L1Row) : Except Failure L1BatchInfo :=
  if row.value.length ≠ 96 ∧ row.value.length ≠ 64 then .error (.error "invalid hash length")
  else .ok row.info

/- What a query returns for the row at which its loop stops, if any. -/
def entryOf : Option L1Row → Except Failure (Option L1BatchInfo)
  | none => .ok none
  | some row => (parseL1BatchInfo row).map some

namespace L1Table

def getByBatchNo (t : L1Table) (batchNo : Nat) : Except Failure (Option L1BatchInfo) :=
  entryOf (t.rows.find? fun row => row.batchNo = batchNo)

/- The cursor starts at the first key whose L1 block is not below the batch number. -/
def getByBatchNoOrHighest (t : L1Table) (batchNo : Nat) : Except Failure (Option L1BatchInfo) :=
  match t.getByBatchNo batchNo with
  | .error e => .error e
  | .ok (some info) => .ok (some info)
  | .ok none =>
    entryOf ((t.rows.filter fun row => batchNo ≤ row.l1BlockNo).find? fun row =>
      batchNo < row.batchNo)

/- The loop keeps the first row with the highest batch number, if that is not 0. -/
def latestRow (t : L1Table) : Option L1Row := t.rows.foldl (fun latest row =>
    if (latest.map (·.batchNo)).getD 0 < row.batchNo then some row else latest) none

def getLatest (t : L1Table) : Except Failure (Option L1BatchInfo) := entryOf t.latestRow

def delete (t : L1Table) (l1BlockNo batchNo : Nat) : L1Table where
  rows := t.rows.filter fun row => ¬ (row.l1BlockNo = l1BlockNo ∧ row.batchNo = batchNo)
  sorted := t.sorted.filter _
  hashes := fun row hRow => t.hashes row (List.mem_filter.mp hRow).1

def truncateStep (t : L1Table) (i : Nat) : Except Failure L1Table :=
  match t.getByBatchNo i with
  | .error e => .error e
  | .ok none => .ok t
  | .ok (some info) => .ok (t.delete info.l1BlockNo info.batchNo)

def truncate (t : L1Table) (batchNo : Nat) : Except Failure L1Table :=
  if batchNo = 0 then .ok t
  else
    match t.getLatest with
    | .error e => .error e
    | .ok none => .ok t
    | .ok (some latest) =>
      if latest.batchNo ≤ batchNo then .ok t
      else (List.range' (batchNo + 1) (latest.batchNo - batchNo)).reverse.foldlM truncateStep t

end L1Table

structure L1Tables where
  batches : BatchTables
  sequences : L1Table
  verifications : L1Table

namespace L1Tables

def getSequenceByBatchNoOrHighest (db : L1Tables) (batchNo : Nat) :
    Except Failure (Option L1BatchInfo) :=
  db.sequences.getByBatchNoOrHighest batchNo

def getVerificationByBatchNoOrHighest (db : L1Tables) (batchNo : Nat) :
    Except Failure (Option L1BatchInfo) :=
  db.verifications.getByBatchNoOrHighest batchNo

/- A block that is not stored counts as one of batch 0. -/
def batchNoOf (db : L1Tables) (l2BlockNo : Uint64) : Nat :=
  match db.batches.getBatchNoByL2Block l2BlockNo with
  | .error _ => 0
  | .ok batchNo => batchNo.toNat

def truncateSequences (db : L1Tables) (l2BlockNo : Uint64) : Except Failure L1Tables :=
  (db.sequences.truncate (db.batchNoOf l2BlockNo)).map fun t => { db with sequences := t }

def truncateVerifications (db : L1Tables) (l2BlockNo : Uint64) : Except Failure L1Tables :=
  (db.verifications.truncate (db.batchNoOf l2BlockNo)).map fun t => { db with verifications := t }

end L1Tables

-- Rows in Key Order

namespace L1Table

variable {t : L1Table} {n : Nat}

/- What is found first comes before all else that could be found. -/
theorem first_of_find? {p : L1Row → Bool} {row : L1Row} (hFind : t.rows.find? p = some row) :
    row ∈ t.rows ∧ p row = true ∧
      ∀ other ∈ t.rows, p other = true → other = row ∨ row.Before other := by
  rcases List.find?_eq_some_iff_append.mp hFind with ⟨hMatch, before, after, hRows, hBefore⟩
  refine ⟨List.mem_of_find?_eq_some hFind, hMatch, fun other hOther hOtherMatch => ?_⟩
  have hSorted := t.sorted
  rw [hRows, List.pairwise_append, List.pairwise_cons] at hSorted
  rw [hRows, List.mem_append, List.mem_cons] at hOther
  rcases hOther with hOther | rfl | hOther
  · have hNot := hBefore other hOther
    simp [hOtherMatch] at hNot
  · exact Or.inl rfl
  · exact Or.inr (hSorted.2.1.1 other hOther)

/- The values of the table can be parsed. -/
theorem entryOf_eq {found : Option L1Row} (hFound : ∀ row ∈ found, row ∈ t.rows) :
    entryOf found = .ok (found.map L1Row.info) := by
  cases found with
  | none => rfl
  | some row =>
    have hLength := t.hashes row (hFound row rfl)
    rw [entryOf, parseL1BatchInfo, if_neg (by omega)]
    rfl

theorem getByBatchNo_eq (t : L1Table) (n : Nat) :
    t.getByBatchNo n = .ok ((t.rows.find? fun row => row.batchNo = n).map L1Row.info) :=
  entryOf_eq fun _ => List.mem_of_find?_eq_some

theorem getByBatchNoOrHighest_eq (t : L1Table) (n : Nat) :
    t.getByBatchNoOrHighest n =
      .ok (((t.rows.find? fun row => row.batchNo = n).or
        (t.rows.find? fun row => n ≤ row.l1BlockNo ∧ n < row.batchNo)).map L1Row.info) := by
  rw [getByBatchNoOrHighest, getByBatchNo_eq, List.find?_filter]
  cases hFind : t.rows.find? fun row => row.batchNo = n with
  | some row => rfl
  | none => simpa using entryOf_eq fun _ => List.mem_of_find?_eq_some

end L1Table

-- The Next Batch

/- The row of the smallest batch number from `n` on, or else of the highest one. -/
def Nearest (rows : List L1Row) (n : Nat) (row : L1Row) : Prop :=
  (n ≤ row.batchNo ∧ ∀ other ∈ rows, n ≤ other.batchNo → row.batchNo ≤ other.batchNo) ∨
    ∀ other ∈ rows, other.batchNo < n ∧ other.batchNo ≤ row.batchNo

/- The entry of the nearest row is returned, and none from an empty table. -/
def FindsNearest (t : L1Table) (n : Nat) (result : Except Failure (Option L1BatchInfo)) : Prop :=
  (t.rows = [] ∧ result = .ok none) ∨
    ∃ row ∈ t.rows, result = .ok (some row.info) ∧ Nearest t.rows n row

/-
  The batch is in the table, or the first row behind the start of the cursor that has a higher
  batch number has the lowest of all.
-/
def Seekable (t : L1Table) (n : Nat) : Prop := t.rows = [] ∨ (∃ row ∈ t.rows, row.batchNo = n) ∨
    ∃ row ∈ t.rows, n ≤ row.l1BlockNo ∧ n < row.batchNo ∧
      ∀ other ∈ t.rows, n < other.batchNo →
        row.batchNo ≤ other.batchNo ∧ (n ≤ other.l1BlockNo → ¬ other.Before row)

theorem findsNearest_iff (t : L1Table) (n : Nat) :
    FindsNearest t n (t.getByBatchNoOrHighest n) ↔ Seekable t n := by
  rw [L1Table.getByBatchNoOrHighest_eq]
  cases hExact : t.rows.find? fun row => row.batchNo = n with
  | some row =>
    rcases L1Table.first_of_find? hExact with ⟨hMem, hBatch, -⟩
    have hBatch : row.batchNo = n := of_decide_eq_true hBatch
    refine iff_of_true (Or.inr ⟨row, hMem, rfl, Or.inl ⟨hBatch.ge, ?_⟩⟩)
      (Or.inr (Or.inl ⟨row, hMem, hBatch⟩))
    exact fun other _ hLe => hBatch.le.trans hLe
  | none =>
    have hNe : ∀ row ∈ t.rows, row.batchNo ≠ n := by simpa using hExact
    rw [Option.none_or]
    cases hLater : t.rows.find? fun row => n ≤ row.l1BlockNo ∧ n < row.batchNo with
    | none =>
      have hNone : ∀ row ∈ t.rows, n ≤ row.l1BlockNo → row.batchNo ≤ n := by simpa using hLater
      constructor
      · rintro (⟨hEmpty, -⟩ | ⟨row, -, hResult, -⟩)
        · exact Or.inl hEmpty
        · cases hResult
      · rintro (hEmpty | ⟨row, hMem, hBatch⟩ | ⟨row, hMem, hBlock, hBatch, -⟩)
        · exact Or.inl ⟨hEmpty, rfl⟩
        · exact absurd hBatch (hNe row hMem)
        · exact absurd hBatch (Nat.not_lt.mpr (hNone row hMem hBlock))
    | some row =>
      rcases L1Table.first_of_find? hLater with ⟨hMem, hBehind, hFirst⟩
      have hBehind : n ≤ row.l1BlockNo ∧ n < row.batchNo := of_decide_eq_true hBehind
      constructor
      · rintro (⟨hEmpty, -⟩ | ⟨found, -, hResult, hNearest⟩)
        · exact Or.inl hEmpty
        · have hSame : row.batchNo = found.batchNo :=
            congrArg L1BatchInfo.batchNo (Option.some.inj (Except.ok.inj hResult))
          refine Or.inr (Or.inr ⟨row, hMem, hBehind.1, hBehind.2, fun other hOther hAbove => ?_⟩)
          rcases hNearest with ⟨-, hLowest⟩ | hHighest
          · refine ⟨hSame.le.trans (hLowest other hOther hAbove.le), fun hBlock hBefore => ?_⟩
            rcases hFirst other hOther (decide_eq_true ⟨hBlock, hAbove⟩) with rfl | hAfter
            · exact L1Row.not_before_self other hBefore
            · exact L1Row.not_before_of_before hAfter hBefore
          · exact absurd (hHighest other hOther).1 (Nat.not_lt.mpr hAbove.le)
      · rintro (hEmpty | ⟨other, hOther, hBatch⟩ | ⟨other, hOther, hBlock, hBatch, hLowest⟩)
        · rw [hEmpty] at hMem
          cases hMem
        · exact absurd hBatch (hNe other hOther)
        -- the lowest row behind the cursor's start is the one that was found
        · have hFound : other = row := by
            rcases hFirst other hOther (decide_eq_true ⟨hBlock, hBatch⟩) with hSame | hAfter
            · exact hSame
            · exact absurd hAfter ((hLowest row hMem hBehind.2).2 hBehind.1)
          subst hFound
          refine Or.inr ⟨other, hMem, rfl, Or.inl ⟨hBatch.le, fun next hNext hLe => ?_⟩⟩
          exact (hLowest next hNext (lt_of_le_of_ne hLe (hNe next hNext).symm)).1

/- Both lookups return the nearest entry exactly if the cursor comes to it first. -/
theorem next_batch_found_iff (db : L1Tables) (n : Nat) :
    (FindsNearest db.sequences n (db.getSequenceByBatchNoOrHighest n) ↔ Seekable db.sequences n) ∧
    (FindsNearest db.verifications n (db.getVerificationByBatchNoOrHighest n) ↔
      Seekable db.verifications n) :=
  ⟨findsNearest_iff db.sequences n, findsNearest_iff db.verifications n⟩

def emptyL1Table : L1Table := ⟨[], .nil, by simp⟩

/- Batch 30 is sequenced before batch 20 is, both at L1 blocks above 10. -/
def sampleL1Table : L1Table where
  rows := [⟨40, 30, List.replicate 96 0⟩, ⟨50, 20, List.replicate 96 0⟩]
  sorted := by simp [L1Row.Before]
  hashes := by simp

/- Asked for batch 10 the lookup returns 30, and asked for batch 31 nothing. -/
theorem higher_batch_found_first :
    ¬ FindsNearest sampleL1Table 10
        (L1Tables.getSequenceByBatchNoOrHighest ⟨.empty, sampleL1Table, emptyL1Table⟩ 10) ∧
      L1Tables.getSequenceByBatchNoOrHighest ⟨.empty, sampleL1Table, emptyL1Table⟩ 31 =
        .ok none := by
  refine ⟨fun hFinds => ?_, rfl⟩
  have hSeekable := (findsNearest_iff sampleL1Table 10).mp hFinds
  simp [Seekable, sampleL1Table, L1Row.Before] at hSeekable

-- Truncation

namespace L1Table

variable {t : L1Table}

/- The row that a search by the row's batch number finds. -/
def IsFirst (t : L1Table) (row : L1Row) : Prop :=
  (t.rows.find? fun other => other.batchNo = row.batchNo) = some row

instance decidableIsFirst (t : L1Table) (row : L1Row) : Decidable (t.IsFirst row) :=
  inferInstanceAs (Decidable (_ = _))

/- A round removes the first row of its batch number. -/
theorem truncateStep_rows (t : L1Table) (i : Nat) :
    ∃ next, t.truncateStep i = .ok next ∧
      next.rows = t.rows.filter fun row => ¬ (row.batchNo = i ∧ t.IsFirst row) := by
  rw [truncateStep, getByBatchNo_eq]
  cases hFind : t.rows.find? fun row => row.batchNo = i with
  | none =>
    have hNone : ∀ row ∈ t.rows, row.batchNo ≠ i := by simpa using hFind
    refine ⟨t, rfl, (List.filter_eq_self.mpr fun row hRow => ?_).symm⟩
    simp [hNone row hRow]
  | some first =>
    rcases first_of_find? hFind with ⟨hMem, hBatch, hFirst⟩
    have hBatch : first.batchNo = i := of_decide_eq_true hBatch
    refine ⟨_, rfl, List.filter_congr fun row hRow => decide_eq_decide.mpr (not_congr ?_)⟩
    constructor
    · rintro ⟨hBlock, hSame⟩
      have hIs : row = first := by
        rcases hFirst row hRow (decide_eq_true (hSame.trans hBatch)) with hIs | hBefore
        · exact hIs
        · simp only [L1Row.info] at hBlock hSame
          simp [L1Row.Before, hBlock, hSame] at hBefore
      subst hIs
      exact ⟨hBatch, by rw [IsFirst, hBatch, hFind]⟩
    · rintro ⟨hSame, hIs⟩
      rw [IsFirst, hSame, hFind] at hIs
      cases hIs
      exact ⟨rfl, rfl⟩

/- What is first of another batch number stays the first. -/
theorem isFirst_of_removed {next : L1Table} {i : Nat}
    (hRows : next.rows = t.rows.filter fun row => ¬ (row.batchNo = i ∧ t.IsFirst row))
    {row : L1Row} (hOther : row.batchNo ≠ i) : next.IsFirst row ↔ t.IsFirst row := by
  rw [IsFirst, IsFirst, hRows, List.find?_filter]
  refine Eq.congr (congrArg (List.find? · t.rows) (funext fun other => ?_)) rfl
  by_cases hSame : other.batchNo = row.batchNo
  · simp [hSame, hOther]
  · simp [hSame]

theorem truncateSteps_rows (t : L1Table) {numbers : List Nat} (hNodup : numbers.Nodup) :
    ∃ next, numbers.foldlM truncateStep t = .ok next ∧
      next.rows = t.rows.filter fun row => ¬ (row.batchNo ∈ numbers ∧ t.IsFirst row) := by
  induction numbers generalizing t with
  | nil => exact ⟨t, rfl, by simp⟩
  | cons i numbers ih =>
    rcases List.nodup_cons.mp hNodup with ⟨hNew, hNodup⟩
    rcases truncateStep_rows t i with ⟨step, hStep, hRows⟩
    rcases ih step hNodup with ⟨next, hNext, hRest⟩
    refine ⟨next, by rw [List.foldlM_cons, hStep]; exact hNext, ?_⟩
    rw [hRest, hRows, List.filter_filter]
    refine List.filter_congr fun row _ => ?_
    by_cases hSame : row.batchNo = i
    · simp [hSame, hNew]
    · simp [hSame, isFirst_of_removed hRows hSame]

theorem latestRow_spec (t : L1Table) :
    (∀ row ∈ t.latestRow, row ∈ t.rows) ∧
      ∀ row ∈ t.rows, row.batchNo ≤ (t.latestRow.map (·.batchNo)).getD 0 := by
  suffices hLoop : ∀ (rows : List L1Row) (latest : Option L1Row),
      let result := rows.foldl (fun latest row =>
        if (latest.map (·.batchNo)).getD 0 < row.batchNo then some row else latest) latest
      (∀ row ∈ result, row ∈ latest ∨ row ∈ rows) ∧
        (latest.map (·.batchNo)).getD 0 ≤ (result.map (·.batchNo)).getD 0 ∧
        ∀ row ∈ rows, row.batchNo ≤ (result.map (·.batchNo)).getD 0 by
    have hRows := hLoop t.rows none
    exact ⟨fun row hRow => (hRows.1 row hRow).resolve_left (by simp), hRows.2.2⟩
  intro rows
  induction rows with
  | nil => simp
  | cons row rows ih =>
    intro latest
    simp only [List.foldl_cons]
    by_cases hHigher : (latest.map (·.batchNo)).getD 0 < row.batchNo
    · simp only [if_pos hHigher]
      have hRest := ih (some row)
      simp only [Option.map_some, Option.getD_some] at hRest
      exact ⟨by grind, by omega, by grind⟩
    · simp only [if_neg hHigher]
      have hRest := ih latest
      exact ⟨by grind, hRest.2.1, by grind⟩

theorem truncate_rows (t : L1Table) {n : Nat} (hPos : n ≠ 0) :
    ∃ next, t.truncate n = .ok next ∧
      next.rows = t.rows.filter fun row => ¬ (n < row.batchNo ∧ t.IsFirst row) := by
  rcases t.latestRow_spec with ⟨hMem, hHighest⟩
  rw [truncate, if_neg hPos, getLatest, entryOf_eq hMem]
  have hKeep : (t.latestRow.map (·.batchNo)).getD 0 ≤ n →
      t.rows = t.rows.filter fun row => ¬ (n < row.batchNo ∧ t.IsFirst row) := by
    intro hLow
    refine (List.filter_eq_self.mpr fun row hRow => ?_).symm
    have hLe := (hHighest row hRow).trans hLow
    simp [Nat.not_lt.mpr hLe]
  cases hLatest : t.latestRow with
  | none => exact ⟨t, rfl, hKeep (by simp [hLatest])⟩
  | some latest =>
    by_cases hLow : latest.batchNo ≤ n
    · exact ⟨t, by simp [L1Row.info, hLow], hKeep (by simpa [hLatest] using hLow)⟩
    · rcases truncateSteps_rows t (List.nodup_reverse.mpr
        (List.nodup_range' (s := n + 1) (n := latest.batchNo - n))) with ⟨next, hNext, hRows⟩
      refine ⟨next, by simpa [L1Row.info, hLow] using hNext, hRows.trans ?_⟩
      refine List.filter_congr fun row hRow => ?_
      have hLe := hHighest row hRow
      simp only [hLatest, Option.map_some, Option.getD_some] at hLe
      have hRange : row.batchNo ∈ (List.range' (n + 1) (latest.batchNo - n)).reverse ↔
          n < row.batchNo := by
        rw [List.mem_reverse, List.mem_range'_1]
        omega
      simp [hRange]

end L1Table

/- Exactly the rows up to the batch are left. -/
def Truncated (n : Nat) (before after : L1Table) : Prop :=
  after.rows = before.rows.filter fun row => row.batchNo ≤ n

/- No batch number above occurs twice; batch 0 is only left alone if nothing is above it. -/
def Single (t : L1Table) (n : Nat) : Prop := (n = 0 → ∀ row ∈ t.rows, row.batchNo = 0) ∧
    ∀ a ∈ t.rows, ∀ b ∈ t.rows, n < a.batchNo → a.batchNo = b.batchNo → a = b

theorem truncate_iff (t : L1Table) (n : Nat) :
    (∃ after, t.truncate n = .ok after ∧ Truncated n t after) ↔ Single t n := by
  by_cases hZero : n = 0
  · subst hZero
    rw [L1Table.truncate, if_pos rfl]
    constructor
    · rintro ⟨_, ⟨⟩, hRows⟩
      have hAll : ∀ row ∈ t.rows, row.batchNo = 0 := by
        simpa using List.filter_eq_self.mp hRows.symm
      refine ⟨fun _ => hAll, fun a hA _ _ hAbove => ?_⟩
      exact absurd (hAll a hA) hAbove.ne'
    · intro hSingle
      refine ⟨t, rfl, (List.filter_eq_self.mpr fun row hRow => ?_).symm⟩
      simp [hSingle.1 rfl row hRow]
  · rcases t.truncate_rows hZero with ⟨next, hNext, hRows⟩
    constructor
    · rintro ⟨after, hAfter, hTruncated⟩
      rw [hNext] at hAfter
      cases hAfter
      have hFirst : ∀ row ∈ t.rows, n < row.batchNo → t.IsFirst row := by
        intro row hRow hAbove
        by_contra hNot
        have hLeft : row ∈ next.rows := hRows ▸ List.mem_filter.mpr ⟨hRow, by simp [hNot]⟩
        rw [hTruncated] at hLeft
        have hLe := of_decide_eq_true (List.mem_filter.mp hLeft).2
        omega
      refine ⟨fun h => absurd h hZero, fun a hA b hB hAbove hSame => ?_⟩
      have hOne := hFirst a hA hAbove
      have hTwo := hFirst b hB (hSame ▸ hAbove)
      rw [L1Table.IsFirst, hSame] at hOne
      exact Option.some.inj (hOne.symm.trans hTwo)
    · intro hSingle
      refine ⟨next, hNext, hRows.trans (List.filter_congr fun row hRow => ?_)⟩
      by_cases hAbove : n < row.batchNo
      · have hFirst : t.IsFirst row := by
          cases hFind : t.rows.find? fun other => other.batchNo = row.batchNo with
          | none => simpa using List.find?_eq_none.mp hFind row hRow
          | some first =>
            rcases L1Table.first_of_find? hFind with ⟨hMem, hSame, -⟩
            have hSame : first.batchNo = row.batchNo := of_decide_eq_true hSame
            rw [L1Table.IsFirst, hFind, hSingle.2 row hRow first hMem hAbove hSame.symm]
        simp [hAbove, hFirst]
      · simp [hAbove, Nat.not_lt.mp hAbove]

/- Both truncations are complete exactly if no batch number above occurs twice. -/
theorem truncated_iff (db : L1Tables) (l2BlockNo : Uint64) :
    ((∃ after, db.truncateSequences l2BlockNo = .ok after ∧
        Truncated (db.batchNoOf l2BlockNo) db.sequences after.sequences) ↔
      Single db.sequences (db.batchNoOf l2BlockNo)) ∧
    ((∃ after, db.truncateVerifications l2BlockNo = .ok after ∧
        Truncated (db.batchNoOf l2BlockNo) db.verifications after.verifications) ↔
      Single db.verifications (db.batchNoOf l2BlockNo)) := by
  constructor
  · rw [← truncate_iff, L1Tables.truncateSequences]
    cases db.sequences.truncate (db.batchNoOf l2BlockNo) <;> simp [Except.map]
  · rw [← truncate_iff, L1Tables.truncateVerifications]
    cases db.verifications.truncate (db.batchNoOf l2BlockNo) <;> simp [Except.map]

/- Block 1 is in batch 1, and batch 2 is sequenced at two L1 blocks. -/
def sampleL1Tables : L1Tables where
  batches := BatchTables.empty.writeBlockBatch 1 1
  sequences :=
    { rows := [⟨7, 2, List.replicate 96 0⟩, ⟨8, 2, List.replicate 96 0⟩]
      sorted := by simp [L1Row.Before]
      hashes := by simp }
  verifications := emptyL1Table

theorem second_sequence_left :
    ∃ after, sampleL1Tables.truncateSequences 1 = .ok after ∧
      sampleL1Tables.batchNoOf 1 = 1 ∧ after.sequences.rows = [⟨8, 2, List.replicate 96 0⟩] :=
  ⟨_, rfl, by decide, by decide⟩

end XLayerErigon.HermezDb
