import XLayerErigon.L1InfoTree.Tree

/-
  The choice of the L1 info tree index for a new block.

  The sequencer looks for the newest update of the L1 info tree whose time has come.  It starts at
  the newest row of the table and goes back one index at a time, until it meets the index that it
  used last.

  Main results:
    * `searchBack_spec`
    * `calculateNextL1TreeUpdateToUse_iff`
    * `progress_le_run`
-/

namespace XLayerErigon.Sequencer

-- The Search

/- The fields of an update that the choice reads. -/
structure L1InfoTreeUpdate where
  index : Nat
  ger : Bytes32
  parentHash : Bytes32
  timestamp : Nat
  deriving DecidableEq

/- The rows of the table of updates, in the order of keys. -/
abbrev UpdateTable := List (Nat × L1InfoTreeUpdate)

def getL1InfoTreeUpdate (rows : UpdateTable) (idx : Nat) : Option L1InfoTreeUpdate :=
  (rows.find? (fun row => row.1 = idx)).map Prod.snd

def getLatestL1InfoTreeUpdate (rows : UpdateTable) : Option L1InfoTreeUpdate :=
  rows.getLast?.map Prod.snd

/-
  The loop of the search, for at most `fuel` rounds.  The result is the index to use, and its
  update.
-/
def searchBack (rows : UpdateTable) (recentlyUsed proposedTimestamp : Nat) :
    Nat → L1InfoTreeUpdate → Option (Nat × Option L1InfoTreeUpdate)
  | 0, _ => none
  | fuel + 1, latestIndex =>
      if latestIndex.timestamp ≤ proposedTimestamp then
        some (latestIndex.index, some latestIndex)
      else if latestIndex.index = 0 ∨ latestIndex.index ≤ recentlyUsed then
        some (0, none)
      else
        match getL1InfoTreeUpdate rows (latestIndex.index - 1) with
        | none => some (0, none)
        | some latestIndex =>
            searchBack rows recentlyUsed proposedTimestamp fuel latestIndex

def calculateNextL1TreeUpdateToUse (fuel recentlyUsed : Nat) (rows : UpdateTable)
    (proposedTimestamp : Nat) : Option (Nat × Option L1InfoTreeUpdate) :=
  match getLatestL1InfoTreeUpdate rows with
  | none => some (0, none)
  | some latestIndex =>
    if latestIndex.index ≤ recentlyUsed then
      some (0, none)
    else
      searchBack rows recentlyUsed proposedTimestamp fuel latestIndex

/- What a new block takes over from the choice. -/
structure InfoTreeChoice where
  infoTreeIndexProgress : Nat
  l1TreeUpdate : Option L1InfoTreeUpdate
  l1TreeUpdateIndex : Nat
  l1BlockHash : Bytes32
  ger : Bytes32

/-
  The path of `prepareL1AndInfoTreeRelatedStuff` for a block that is neither recovered from the L1
  nor resequenced.
-/
def prepareInfoTree (fuel infoTreeIndexProgress : Nat) (rows : UpdateTable)
    (proposedTimestamp : Nat) : Option InfoTreeChoice :=
  (calculateNextL1TreeUpdateToUse fuel infoTreeIndexProgress rows proposedTimestamp).map
    (fun (l1TreeUpdateIndex, l1TreeUpdate) =>
      { infoTreeIndexProgress :=
        if l1TreeUpdateIndex > 0 then l1TreeUpdateIndex
        else infoTreeIndexProgress
        l1TreeUpdate := l1TreeUpdate
        l1TreeUpdateIndex := l1TreeUpdateIndex
        l1BlockHash :=
          if l1TreeUpdateIndex > 0 then
            (l1TreeUpdate.map (·.parentHash)).getD 0
          else 0
        ger :=
          if l1TreeUpdateIndex > 0 then
            (l1TreeUpdate.map (·.ger)).getD 0
          else 0 })

-- Contiguous Tables

/- The keys follow one another, and each row has its key. -/
def Contiguous (rows : UpdateTable) : Prop :=
  (∃ first, rows.map Prod.fst = List.range' first rows.length) ∧ ∀ row ∈ rows, row.2.index = row.1

variable {rows : UpdateTable} {i j : Nat} {u v : L1InfoTreeUpdate}

theorem getL1InfoTreeUpdate_eq_some_iff (hContiguous : Contiguous rows) :
    getL1InfoTreeUpdate rows i = some u ↔ (i, u) ∈ rows := by
  rcases hContiguous with ⟨⟨first, hKeys⟩, _⟩
  have hDistinct : (rows.map Prod.fst).Nodup := by
    rw [hKeys]
    exact List.nodup_range'
  rw [getL1InfoTreeUpdate, Option.map_eq_some_iff]
  constructor
  · rintro ⟨row, hFind, rfl⟩
    have hKey : row.1 = i := by simpa using List.find?_some hFind
    rw [← hKey]
    exact List.mem_of_find?_eq_some hFind
  · intro hMem
    cases hFind : rows.find? (fun row => row.1 = i) with
    | none =>
      have hNone := List.find?_eq_none.mp hFind (i, u) hMem
      simp at hNone
    | some row =>
      have hKey : row.1 = i := by simpa using List.find?_some hFind
      have hSame : row = (i, u) :=
        List.inj_on_of_nodup_map hDistinct (List.mem_of_find?_eq_some hFind) hMem hKey
      exact ⟨row, rfl, by rw [hSame]⟩

/- Between two rows there is a row for every index. -/
theorem Contiguous.exists_between (hContiguous : Contiguous rows) {k : Nat} (hLow : (i, u) ∈ rows)
    (hHigh : (j, v) ∈ rows) (hAbove : i ≤ k) (hBelow : k ≤ j) : ∃ w, (k, w) ∈ rows := by
  rcases hContiguous with ⟨⟨first, hKeys⟩, _⟩
  have hKeyLow : i ∈ rows.map Prod.fst := List.mem_map_of_mem (f := Prod.fst) hLow
  have hKeyHigh : j ∈ rows.map Prod.fst := List.mem_map_of_mem (f := Prod.fst) hHigh
  have hKey : k ∈ rows.map Prod.fst := by
    rw [hKeys, List.mem_range'_1] at *
    omega
  rcases List.mem_map.mp hKey with ⟨row, hMem, rfl⟩
  exact ⟨row.2, hMem⟩

/- The last row has the greatest index. -/
theorem Contiguous.latest (hContiguous : Contiguous rows)
    (hLast : getLatestL1InfoTreeUpdate rows = some u) :
    (u.index, u) ∈ rows ∧ ∀ j v, (j, v) ∈ rows → j ≤ u.index := by
  rcases hContiguous with ⟨⟨first, hKeys⟩, hIndex⟩
  rcases Option.map_eq_some_iff.mp hLast with ⟨row, hRow, rfl⟩
  have hMem := List.mem_of_getLast? hRow
  have hKey := congrArg List.getLast? hKeys
  rw [List.getLast?_map, hRow, List.getLast?_range'] at hKey
  rw [hIndex row hMem]
  refine ⟨hMem, ?_⟩
  intro j v hOther
  have hOtherKey : j ∈ rows.map Prod.fst := List.mem_map_of_mem (f := Prod.fst) hOther
  rw [hKeys, List.mem_range'_1] at hOtherKey
  have hPos : rows.length ≠ 0 := by omega
  simp [hPos] at hKey
  omega

-- What the Search Finds

variable {recentlyUsed proposedTimestamp : Nat}

/- No row above an index has reached its time. -/
def NoneAbove (rows : UpdateTable) (proposedTimestamp i : Nat) : Prop :=
  ∀ j v, (j, v) ∈ rows → i < j → proposedTimestamp < v.timestamp

/-
  The search ends at the newest row whose time has come and whose index is not below the one used
  last, that one included, or it ends with nothing.
-/
inductive SearchEnd (rows : UpdateTable) (recentlyUsed proposedTimestamp : Nat) :
    Nat × Option L1InfoTreeUpdate → Prop
  | nothing (hNone : ∀ j v, (j, v) ∈ rows → recentlyUsed ≤ j → proposedTimestamp < v.timestamp) :
      SearchEnd rows recentlyUsed proposedTimestamp (0, none)
  | found (u : L1InfoTreeUpdate) (hMem : (u.index, u) ∈ rows) (hLow : recentlyUsed ≤ u.index)
      (hTime : u.timestamp ≤ proposedTimestamp)
      (hAbove : NoneAbove rows proposedTimestamp u.index) :
      SearchEnd rows recentlyUsed proposedTimestamp (u.index, some u)

variable {result : Nat × Option L1InfoTreeUpdate}

/- A row whose time has not come is one more of them. -/
theorem NoneAbove.of_late (hContiguous : Contiguous rows) (hMem : (u.index, u) ∈ rows)
    (hAbove : NoneAbove rows proposedTimestamp u.index) (hTime : ¬ u.timestamp ≤ proposedTimestamp)
    (hOther : (j, v) ∈ rows) (hLe : u.index ≤ j) : proposedTimestamp < v.timestamp := by
  rcases Nat.lt_or_eq_of_le hLe with hLt | rfl
  · exact hAbove j v hOther hLt
  · have hSame := (getL1InfoTreeUpdate_eq_some_iff hContiguous).mpr hMem
    rw [(getL1InfoTreeUpdate_eq_some_iff hContiguous).mpr hOther] at hSame
    cases hSame
    omega

theorem searchBack_spec {fuel : Nat} (hContiguous : Contiguous rows) (hMem : (u.index, u) ∈ rows)
    (hLow : recentlyUsed ≤ u.index) (hAbove : NoneAbove rows proposedTimestamp u.index)
    (hFuel : u.index < fuel) :
    ∃ result, searchBack rows recentlyUsed proposedTimestamp fuel u =
          some result ∧
        SearchEnd rows recentlyUsed proposedTimestamp result := by
  fun_induction searchBack rows recentlyUsed proposedTimestamp fuel u with
  | case1 => exact absurd hFuel (Nat.not_lt_zero _)
  | case2 fuel u hTime => exact ⟨_, rfl, .found u hMem hLow hTime hAbove⟩
  | case3 fuel u hTime hEnd =>
    refine ⟨_, rfl, .nothing fun j v hOther hLe => ?_⟩
    exact hAbove.of_late hContiguous hMem hTime hOther (by omega)
  | case4 fuel u hTime hEnd hNext =>
    refine ⟨_, rfl, .nothing fun j v hOther hLe => ?_⟩
    by_cases hBelow : j ≤ u.index - 1
    · rcases hContiguous.exists_between hOther hMem hBelow (by omega) with ⟨w, hBetween⟩
      rw [(getL1InfoTreeUpdate_eq_some_iff hContiguous).mpr hBetween] at hNext
      cases hNext
    · exact hAbove.of_late hContiguous hMem hTime hOther (by omega)
  | case5 fuel u hTime hEnd w hNext ih =>
    have hRow := (getL1InfoTreeUpdate_eq_some_iff hContiguous).mp hNext
    have hIndex : w.index = u.index - 1 := hContiguous.2 _ hRow
    rw [← hIndex] at hRow
    refine ih hRow (by omega) (fun j v hOther hLt => ?_) (by omega)
    exact hAbove.of_late hContiguous hMem hTime hOther (by omega)

theorem searchBack_mono {fuel fuel' : Nat}
    (hRun : searchBack rows recentlyUsed proposedTimestamp fuel u = some result)
    (hLe : fuel ≤ fuel') :
    searchBack rows recentlyUsed proposedTimestamp fuel' u = some result := by
  revert hRun
  fun_induction searchBack rows recentlyUsed proposedTimestamp fuel u generalizing fuel' with
  | case1 => rintro ⟨⟩
  | case5 fuel u hTime hEnd w hNext ih =>
    intro hRun
    rcases Nat.exists_eq_add_of_le hLe with ⟨more, rfl⟩
    rw [Nat.succ_add, searchBack, if_neg hTime, if_neg hEnd, hNext]
    exact ih (Nat.le_add_right fuel more) hRun
  | _ =>
    rintro ⟨⟩
    rcases Nat.exists_eq_add_of_le hLe with ⟨more, rfl⟩
    simp [Nat.succ_add, searchBack, *]

-- The Choice

/-
  No index and no update, or a later index whose time has come; and no other such index is
  greater.
-/
def ChosenWell (rows : UpdateTable) (recentlyUsed proposedTimestamp : Nat)
    (result : Nat × Option L1InfoTreeUpdate) : Prop :=
  (result = (0, none) ∨
      ∃ u, result = (u.index, some u) ∧
          (u.index, u) ∈ rows ∧ recentlyUsed < u.index ∧ u.timestamp ≤ proposedTimestamp) ∧
    ∀ j v, (j, v) ∈ rows → recentlyUsed < j → v.timestamp ≤ proposedTimestamp → j ≤ result.1

/- Later indices exist, none of their times has come, but the time of the index used last has. -/
def FallsBack (rows : UpdateTable) (recentlyUsed proposedTimestamp : Nat) : Prop :=
  (∃ u, (recentlyUsed, u) ∈ rows ∧
      u.timestamp ≤ proposedTimestamp) ∧
    (∃ j v, (j, v) ∈ rows ∧ recentlyUsed < j) ∧ NoneAbove rows proposedTimestamp recentlyUsed

theorem SearchEnd.chosenWell_iff (hLater : ∃ j v, (j, v) ∈ rows ∧ recentlyUsed < j)
    (hEnd : SearchEnd rows recentlyUsed proposedTimestamp result) :
    ChosenWell rows recentlyUsed proposedTimestamp result ↔
      ¬ FallsBack rows recentlyUsed proposedTimestamp := by
  cases hEnd with
  | nothing hNone =>
    apply iff_of_true
    · refine ⟨Or.inl rfl, ?_⟩
      intro j v hMem hLt hTime
      have hLate := hNone j v hMem (Nat.le_of_lt hLt)
      omega
    · rintro ⟨⟨u, hMem, hTime⟩, _⟩
      have hLate := hNone recentlyUsed u hMem (Nat.le_refl _)
      omega
  | found u hMem hLow hTime hAbove =>
    by_cases hSame : u.index = recentlyUsed
    · apply iff_of_false
      · rintro ⟨hEmpty | ⟨w, hEq, _, hLt, _⟩, _⟩
        · exact Option.some_ne_none u (Prod.mk.inj hEmpty).2
        · rcases Prod.mk.inj hEq with ⟨hIndex, _⟩
          omega
      · rw [hSame] at hMem hAbove
        exact fun hNot => hNot ⟨⟨u, hMem, hTime⟩, hLater, hAbove⟩
    · have hLt : recentlyUsed < u.index := by omega
      apply iff_of_true
      · refine ⟨Or.inr ⟨u, rfl, hMem, hLt, hTime⟩, ?_⟩
        intro j v hOther _ hOtherTime
        by_contra hGt
        have hLate := hAbove j v hOther (by omega)
        omega
      · rintro ⟨_, _, hNone⟩
        have hLate := hNone u.index u hMem hLt
        omega

/- The choice is right unless the search falls back to the index that was used last. -/
theorem calculateNextL1TreeUpdateToUse_iff (rows : UpdateTable)
    (recentlyUsed proposedTimestamp : Nat) (hContiguous : Contiguous rows) :
    ∃ result steps, (∀ fuel ≥ steps,
          calculateNextL1TreeUpdateToUse fuel recentlyUsed rows proposedTimestamp = some result) ∧
        (ChosenWell rows recentlyUsed proposedTimestamp result ↔
          ¬ FallsBack rows recentlyUsed proposedTimestamp) := by
  cases hLatest : getLatestL1InfoTreeUpdate rows with
  | none =>
    have hEmpty : rows = [] := by simpa [getLatestL1InfoTreeUpdate] using hLatest
    subst hEmpty
    refine ⟨(0, none), 0, fun fuel _ => rfl, ?_⟩
    apply iff_of_true
    · exact ⟨Or.inl rfl, fun j v hMem => absurd hMem List.not_mem_nil⟩
    · rintro ⟨⟨u, hMem, _⟩, _⟩
      exact absurd hMem List.not_mem_nil
  | some u =>
    rcases hContiguous.latest hLatest with ⟨hMem, hMax⟩
    by_cases hOld : u.index ≤ recentlyUsed
    · refine ⟨(0, none), 0, ?_, ?_⟩
      · intro fuel _
        rw [calculateNextL1TreeUpdateToUse, hLatest]
        exact if_pos hOld
      · apply iff_of_true
        · refine ⟨Or.inl rfl, ?_⟩
          intro j v hOther hLt
          have hLe := hMax j v hOther
          omega
        · rintro ⟨_, ⟨j, v, hOther, hLt⟩, _⟩
          have hLe := hMax j v hOther
          omega
    · have hAbove : NoneAbove rows proposedTimestamp u.index := by
        intro j v hOther hLt
        have hLe := hMax j v hOther
        omega
      rcases
        @searchBack_spec rows u recentlyUsed proposedTimestamp (u.index + 1) hContiguous hMem
          (by omega) hAbove (Nat.lt_succ_self _) with
        ⟨result, hRun, hEnd⟩
      refine ⟨result, u.index + 1, ?_, ?_⟩
      · intro fuel hFuel
        rw [calculateNextL1TreeUpdateToUse, hLatest]
        dsimp only
        rw [if_neg hOld]
        exact searchBack_mono hRun hFuel
      · exact hEnd.chosenWell_iff ⟨u.index, u, hMem, by omega⟩

/- Two updates, at the times 5 and 20. -/
def sampleRows : UpdateTable := [(1, ⟨1, 7, 8, 5⟩), (2, ⟨2, 9, 10, 20⟩)]

theorem contiguous_sampleRows : Contiguous sampleRows := ⟨⟨1, rfl⟩, by decide⟩

theorem calculateNextL1TreeUpdateToUse_iff_sample :
    Contiguous sampleRows ∧
      ∃ result steps, (∀ fuel ≥ steps,
            calculateNextL1TreeUpdateToUse fuel 1 sampleRows 20 = some result) ∧
          ChosenWell sampleRows 1 20 result := by
  refine ⟨contiguous_sampleRows, ?_⟩
  rcases calculateNextL1TreeUpdateToUse_iff sampleRows 1 20 contiguous_sampleRows with
    ⟨result, steps, hRun, hIff⟩
  refine ⟨result, steps, hRun, hIff.mpr ?_⟩
  rintro ⟨_, _, hNone⟩
  have hLate := hNone 2 ⟨2, 9, 10, 20⟩ (List.mem_cons_of_mem _ List.mem_cons_self) (by decide)
  exact absurd hLate (by decide)

/- Between the two times, the search falls back to the first index although it was used last. -/
theorem calculateNextL1TreeUpdateToUse_again :
    Contiguous sampleRows ∧
      calculateNextL1TreeUpdateToUse 3 1 sampleRows 10 = some (1, some ⟨1, 7, 8, 5⟩) ∧
      ¬ ChosenWell sampleRows 1 10 (1, some ⟨1, 7, 8, 5⟩) := by
  refine ⟨contiguous_sampleRows, by decide, ?_⟩
  rintro ⟨hEmpty | ⟨u, hEq, _, hLt, _⟩, _⟩
  · exact Option.some_ne_none _ (Prod.mk.inj hEmpty).2
  · rcases Prod.mk.inj hEq with ⟨hIndex, _⟩
    omega

-- Progress over Blocks

/- The index used last after some blocks. -/
def progressAfter (fuel : Nat) :
    Nat → List (UpdateTable × Nat) → Option Nat
  | progress, [] => some progress
  | progress, (rows, proposedTimestamp) :: blocks =>
      (prepareInfoTree fuel progress rows proposedTimestamp).bind (fun choice =>
          progressAfter fuel choice.infoTreeIndexProgress blocks)

/- The index that is found is the one of its update, and even a wrong one is not below the last. -/
theorem searchBack_cases {fuel : Nat}
    (hRun : searchBack rows recentlyUsed proposedTimestamp fuel u = some result) :
    result = (0, none) ∨ ∃ found, result = (found.index, some found) ∧
      (Contiguous rows → recentlyUsed ≤ u.index → recentlyUsed ≤ found.index) := by
  revert hRun
  fun_induction searchBack rows recentlyUsed proposedTimestamp fuel u with
  | case1 => rintro ⟨⟩
  | case2 fuel u hTime =>
    rintro ⟨⟩
    exact Or.inr ⟨u, rfl, fun _ hLow => hLow⟩
  | case5 fuel u hTime hEnd w hNext ih =>
    intro hRun
    rcases ih hRun with hNone | ⟨found, hFound, hGe⟩
    · exact Or.inl hNone
    · refine Or.inr ⟨found, hFound, fun hContiguous hLow => hGe hContiguous ?_⟩
      have hIndex : w.index = u.index - 1 :=
        hContiguous.2 _ ((getL1InfoTreeUpdate_eq_some_iff hContiguous).mp hNext)
      omega
  | _ =>
    rintro ⟨⟩
    exact Or.inl rfl

theorem calculateNextL1TreeUpdateToUse_cases {fuel : Nat}
    (hRun : calculateNextL1TreeUpdateToUse fuel recentlyUsed rows proposedTimestamp = some result) :
    result = (0, none) ∨ ∃ found, result = (found.index, some found) ∧
      (Contiguous rows → recentlyUsed ≤ found.index) := by
  revert hRun
  fun_cases calculateNextL1TreeUpdateToUse fuel recentlyUsed rows proposedTimestamp with
  | case3 u hLatest hOld =>
    intro hRun
    rcases searchBack_cases hRun with hNone | ⟨found, hFound, hGe⟩
    · exact Or.inl hNone
    · exact Or.inr ⟨found, hFound, fun hContiguous => hGe hContiguous (by omega)⟩
  | _ =>
    rintro ⟨⟩
    exact Or.inl rfl

/- The index used last never goes back. -/
theorem progress_le_run {fuel progress progress' : Nat} {blocks : List (UpdateTable × Nat)}
    (hContiguous : ∀ block ∈ blocks, Contiguous block.1)
    (hRun : progressAfter fuel progress blocks = some progress') : progress ≤ progress' := by
  induction blocks generalizing progress with
  | nil =>
    cases hRun
    exact Nat.le_refl _
  | cons block blocks ih =>
    rcases Option.bind_eq_some_iff.mp hRun with ⟨choice, hChoice, hRest⟩
    rcases Option.map_eq_some_iff.mp hChoice with ⟨result, hResult, rfl⟩
    have hLater := ih (fun other hMem => hContiguous other (List.mem_cons_of_mem _ hMem)) hRest
    rcases calculateNextL1TreeUpdateToUse_cases hResult with rfl | ⟨found, rfl, hGe⟩
    · exact hLater
    · have hStep := hGe (hContiguous block List.mem_cons_self)
      dsimp only at hLater
      split_ifs at hLater <;> omega

theorem progress_le_run_sample :
    progressAfter 3 0 [(sampleRows, 10), (sampleRows, 30)] = some 2 ∧ 0 ≤ 2 :=
  ⟨by decide, @progress_le_run 3 0 2 [(sampleRows, 10), (sampleRows, 30)]
    (by simp [contiguous_sampleRows]) (by decide)⟩

end XLayerErigon.Sequencer
