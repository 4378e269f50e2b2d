import XLayerErigon.HermezDb.Basic

/-
  The batches of each fork.

  One pass over the table of fork ids grows an interval for every fork; the interval of the highest
  fork is left open.  The intervals are sorted at the end, so the order in which the map of
  intervals is walked does not matter.

  Main results:
    * `scan_covers`
    * `fork_intervals_partition`
-/

namespace XLayerErigon.HermezDb

open Kv

-- The Code

@[ext]
structure ForkInterval where
  forkID : Nat
  fromBatchNumber : Nat
  toBatchNumber : Nat
  blockNumber : Nat
  deriving DecidableEq

/- The fork of each batch, and the first block of each fork as `GetForkIdBlock` finds it. -/
structure ForkTables where
  forkIds : Table Nat Nat
  batches : ∀ row ∈ forkIds.entries, row.1 < 2 ^ 64
  forkIdBlock : Nat → Option Nat

/- The interval of the fork grows by a batch. -/
def grow (map : Table Nat ForkInterval) (batchNumber forkID : Nat) : Table Nat ForkInterval :=
  let interval := (map.get forkID).getD ⟨forkID, batchNumber, batchNumber, 0⟩
  map.put forkID { interval with
    fromBatchNumber :=
      if batchNumber < interval.fromBatchNumber then batchNumber else interval.fromBatchNumber
    toBatchNumber :=
      if batchNumber > interval.toBatchNumber then batchNumber else interval.toBatchNumber }

def excludes (filter : Option Nat) (forkID : Nat) : Bool := filter.any fun fork => fork ≠ forkID

/- The pass over the table: the highest fork and the intervals that pass the filter. -/
def scan (filter : Option Nat) (rows : List (Nat × Nat)) : Nat × Table Nat ForkInterval :=
  rows.foldl (fun acc row =>
    (if row.2 > acc.1 then row.2 else acc.1,
      if excludes filter row.2 then acc.2 else grow acc.2 row.1 row.2)) (0, .empty)

def ForkTables.finish (db : ForkTables) (lastForkId : Nat) (interval : ForkInterval) :
    ForkInterval :=
  { interval with
    blockNumber := (db.forkIdBlock interval.forkID).getD interval.blockNumber
    toBatchNumber := if interval.forkID = lastForkId then 2 ^ 64 - 1 else interval.toBatchNumber }

/- The intervals in the order of the map, which is any. -/
def ForkTables.unsorted (db : ForkTables) (filter : Option Nat) : List ForkInterval :=
  (scan filter db.forkIds.entries).2.entries.map fun e =>
    db.finish (scan filter db.forkIds.entries).1 e.2

/- What `getForkIntervals` may return: the intervals sorted by their first batch. -/
def Returns (db : ForkTables) (filter : Option Nat) (result : List ForkInterval) : Prop :=
  result.Perm (db.unsorted filter) ∧
    result.Pairwise fun a b => a.fromBatchNumber ≤ b.fromBatchNumber

def ReturnsOne (db : ForkTables) (forkID : Nat) (answer : Option ForkInterval) : Prop :=
  ∃ result, Returns db (some forkID) result ∧ answer = result.head?

-- What It Should Return

/- Disjoint intervals in order, each with the batches of its fork, the last one open. -/
structure Partition (db : ForkTables) (result : List ForkInterval) : Prop where
  ordered : result.Pairwise fun a b => a.toBatchNumber < b.fromBatchNumber
  batches : ∀ interval ∈ result, ∀ row ∈ db.forkIds.entries,
    (interval.fromBatchNumber ≤ row.1 ∧ row.1 ≤ interval.toBatchNumber ↔ row.2 = interval.forkID)
  forks : ∀ row ∈ db.forkIds.entries, ∃ interval ∈ result, interval.forkID = row.2
  stored : ∀ interval ∈ result, (interval.fromBatchNumber, interval.forkID) ∈ db.forkIds.entries
  isOpen : ∀ interval ∈ result.getLast?, interval.toBatchNumber = 2 ^ 64 - 1

-- The Pass

/- The lowest and the highest batch of the fork. -/
structure Covers (rows : List (Nat × Nat)) (forkID : Nat) (interval : ForkInterval) : Prop where
  fork : interval.forkID = forkID
  block : interval.blockNumber = 0
  first : (interval.fromBatchNumber, forkID) ∈ rows
  last : (interval.toBatchNumber, forkID) ∈ rows
  within : ∀ batch, (batch, forkID) ∈ rows →
    interval.fromBatchNumber ≤ batch ∧ batch ≤ interval.toBatchNumber

theorem Covers.unique {rows : List (Nat × Nat)} {forkID : Nat} {a b : ForkInterval}
    (hA : Covers rows forkID a) (hB : Covers rows forkID b) : a = b := by
  have hFirst := (hA.within _ hB.first).1.antisymm (hB.within _ hA.first).1
  have hLast := (hB.within _ hA.last).2.antisymm (hA.within _ hB.last).2
  exact ForkInterval.ext (hA.fork.trans hB.fork.symm) hFirst hLast (hA.block.trans hB.block.symm)

variable (filter : Option Nat)

theorem scan_concat (rows : List (Nat × Nat)) (row : Nat × Nat) :
    scan filter (rows ++ [row]) =
      (if row.2 > (scan filter rows).1 then row.2 else (scan filter rows).1,
        if excludes filter row.2 then (scan filter rows).2
        else grow (scan filter rows).2 row.1 row.2) := by
  rw [scan, List.foldl_append]
  rfl

/- The highest fork is found whatever the filter is. -/
theorem scan_last (rows : List (Nat × Nat)) :
    (∀ row ∈ rows, row.2 ≤ (scan filter rows).1) ∧
      (rows ≠ [] → ∃ row ∈ rows, row.2 = (scan filter rows).1) := by
  induction rows using List.reverseRecOn with
  | nil => simp
  | append_singleton rows row ih =>
    rw [scan_concat]
    rcases ih with ⟨hLe, hMem⟩
    by_cases hEmpty : rows = []
    · subst hEmpty
      simp only [scan, List.foldl_nil]
      grind
    · rcases hMem hEmpty with ⟨top, hTop, hEq⟩
      grind

/- Each fork that passes the filter has the interval that covers it. -/
theorem scan_covers (rows : List (Nat × Nat)) (forkID : Nat) :
    (∀ interval, (scan filter rows).2.get forkID = some interval → Covers rows forkID interval) ∧
      ((scan filter rows).2.get forkID = none ↔
        excludes filter forkID = true ∨ ∀ batch, (batch, forkID) ∉ rows) := by
  induction rows using List.reverseRecOn with
  | nil => simp [scan]
  | append_singleton rows row ih =>
    rcases row with ⟨batch, fork⟩
    rw [scan_concat]
    rcases ih with ⟨hCovers, hNone⟩
    by_cases hSame : forkID = fork
    · subst hSame
      by_cases hFilter : excludes filter forkID = true
      · have hGet := hNone.mpr (Or.inl hFilter)
        simp [hFilter, hGet]
      · simp only [hFilter, Bool.false_eq_true, if_false, grow, Table.get_put, if_true,
          Option.some.injEq, false_or]
        refine ⟨?_, iff_of_false (by simp) fun hAll => hAll batch (by simp)⟩
        rintro _ rfl
        cases hGet : (scan filter rows).2.get forkID with
        | none =>
          have hNew : ∀ batch, (batch, forkID) ∉ rows := (hNone.mp hGet).resolve_left hFilter
          constructor <;> simp [hNew]
        | some interval =>
          rcases hCovers interval hGet with ⟨hFork, hBlock, hFirst, hLast, hWithin⟩
          constructor
          · exact hFork
          · exact hBlock
          · simp only [Option.getD_some]
            split <;> simp [hFirst]
          · simp only [Option.getD_some]
            split <;> simp [hLast]
          · intro b hMem
            have hBatch : (b, forkID) ∈ rows ∨ b = batch := by simpa using hMem
            have hOrder := hWithin _ hFirst
            simp only [Option.getD_some]
            rcases hBatch with hOld | rfl
            · have := hWithin b hOld
              split <;> split <;> omega
            · split <;> split <;> omega
    · -- the other forks are not touched
      have hGet : (if excludes filter fork = true then (scan filter rows).2
          else grow (scan filter rows).2 batch fork).get forkID =
            (scan filter rows).2.get forkID := by
        split
        · rfl
        · rw [grow, Table.get_put, if_neg hSame]
      have hRows : ∀ b, (b, forkID) ∈ rows ++ [(batch, fork)] ↔ (b, forkID) ∈ rows := by
        simp [hSame]
      simp only [hGet, hRows, hNone, and_true]
      intro interval hSome
      have hOld := hCovers interval hSome
      exact ⟨hOld.fork, hOld.block, (hRows _).mpr hOld.first, (hRows _).mpr hOld.last,
        fun b hMem => hOld.within b ((hRows b).mp hMem)⟩

-- The Result

variable {db : ForkTables} {filter} {result : List ForkInterval}

theorem scan_fst (rows : List (Nat × Nat)) : (scan filter rows).1 = (scan none rows).1 := by
  induction rows using List.reverseRecOn with
  | nil => rfl
  | append_singleton rows row ih => rw [scan_concat, scan_concat, ih]

theorem exists_covers {rows : List (Nat × Nat)} {row : Nat × Nat} (hRow : row ∈ rows) :
    ∃ grown, Covers rows row.2 grown := by
  cases hGet : (scan none rows).2.get row.2 with
  | none =>
    have hNone := ((scan_covers none rows row.2).2.mp hGet).resolve_left (by simp [excludes])
    exact absurd hRow (hNone row.1)
  | some grown => exact ⟨grown, (scan_covers none rows row.2).1 grown hGet⟩

theorem get_scan_iff {rows : List (Nat × Nat)} {forkID : Nat} {grown : ForkInterval} :
    (scan filter rows).2.get forkID = some grown ↔
      excludes filter forkID = false ∧ Covers rows forkID grown := by
  rcases scan_covers filter rows forkID with ⟨hCovers, hNone⟩
  constructor
  · intro hGet
    refine ⟨?_, hCovers grown hGet⟩
    rw [← Bool.not_eq_true]
    intro hFilter
    rw [hNone.mpr (Or.inl hFilter)] at hGet
    cases hGet
  · rintro ⟨hFilter, hGrown⟩
    cases hGet : (scan filter rows).2.get forkID with
    | none => exact absurd hGrown.first ((hNone.mp hGet).resolve_left (by simp [hFilter]) _)
    | some other => rw [(hCovers other hGet).unique hGrown]

/- The intervals of a result are finished from those that cover a fork the filter lets pass. -/
theorem mem_result_iff (hReturns : Returns db filter result) {interval : ForkInterval} :
    interval ∈ result ↔ ∃ grown, excludes filter grown.forkID = false ∧
      Covers db.forkIds.entries grown.forkID grown ∧
        db.finish (scan none db.forkIds.entries).1 grown = interval := by
  rw [hReturns.1.mem_iff, ForkTables.unsorted, List.mem_map]
  simp only [@scan_fst filter, Prod.exists, ← Table.get_eq_some_iff, get_scan_iff]
  constructor
  · rintro ⟨forkID, grown, ⟨hFilter, hCovers⟩, rfl⟩
    obtain rfl := hCovers.fork
    exact ⟨grown, hFilter, hCovers, rfl⟩
  · rintro ⟨grown, hFilter, hCovers, rfl⟩
    exact ⟨_, grown, ⟨hFilter, hCovers⟩, rfl⟩

theorem forks_nodup (hReturns : Returns db filter result) :
    result.Pairwise fun a b => a.forkID ≠ b.forkID := by
  have hKeys : (result.map (·.forkID)).Perm
      ((scan filter db.forkIds.entries).2.entries.map Prod.fst) := by
    refine (hReturns.1.map _).trans (List.Perm.of_eq ?_)
    rw [ForkTables.unsorted, List.map_map]
    refine List.map_congr_left fun e hMem => ?_
    exact (get_scan_iff.mp (Table.get_eq_some_iff.mpr hMem)).2.fork
  exact List.pairwise_map.mp (hKeys.nodup_iff.mpr (Table.nodup_keys _))

section Ordered

variable (hOrder : ∀ a ∈ db.forkIds.entries, ∀ b ∈ db.forkIds.entries, a.1 ≤ b.1 → a.2 ≤ b.2)

include hOrder

/- An interval that starts earlier and is of another fork ends before the other starts. -/
theorem ends_before (hReturns : Returns db filter result) {a b : ForkInterval} (hA : a ∈ result)
    (hB : b ∈ result) (hLe : a.fromBatchNumber ≤ b.fromBatchNumber) (hNe : a.forkID ≠ b.forkID) :
    a.toBatchNumber < b.fromBatchNumber := by
  rcases (mem_result_iff hReturns).mp hA with ⟨a, _, hCoversA, rfl⟩
  rcases (mem_result_iff hReturns).mp hB with ⟨b, _, hCoversB, rfl⟩
  have hFork : a.forkID < b.forkID :=
    lt_of_le_of_ne (hOrder _ hCoversA.first _ hCoversB.first hLe) hNe
  -- the highest fork is not that of `a`
  have hTop := (scan_last none db.forkIds.entries).1 _ hCoversB.first
  rw [ForkTables.finish, if_neg (lt_of_lt_of_le hFork hTop).ne]
  by_contra hNot
  have hBack := hOrder _ hCoversB.first _ hCoversA.last (Nat.not_lt.mp hNot)
  exact absurd hFork (Nat.not_lt.mpr hBack)

/- The batches between the ends of an interval are those of its fork. -/
theorem mem_interval_iff (hReturns : Returns db filter result) {interval : ForkInterval}
    (hMem : interval ∈ result) {row : Nat × Nat} (hRow : row ∈ db.forkIds.entries) :
    interval.fromBatchNumber ≤ row.1 ∧ row.1 ≤ interval.toBatchNumber ↔
      row.2 = interval.forkID := by
  rcases (mem_result_iff hReturns).mp hMem with ⟨grown, _, hCovers, rfl⟩
  have hTop := (scan_last none db.forkIds.entries).1 row hRow
  have hSmall := db.batches row hRow
  dsimp only [ForkTables.finish]
  constructor
  · rintro ⟨hLow, hHigh⟩
    have hGe := hOrder _ hCovers.first row hRow hLow
    split at hHigh
    · omega
    · exact (hOrder row hRow _ hCovers.last hHigh).antisymm hGe
  · intro hFork
    have hWithin := hCovers.within row.1 (by rw [← hFork]; exact hRow)
    split <;> omega

end Ordered

/-
  Over a table whose forks do not decrease, the intervals partition the stored batches, and the
  interval of one fork is the one in the list.
-/
theorem fork_intervals_partition (db : ForkTables) (result : List ForkInterval)
    (hOrder : ∀ a ∈ db.forkIds.entries, ∀ b ∈ db.forkIds.entries, a.1 ≤ b.1 → a.2 ≤ b.2)
    (hReturns : Returns db none result) :
    Partition db result ∧ ∀ forkID answer, ReturnsOne db forkID answer →
      ∀ interval, answer = some interval ↔ interval ∈ result ∧ interval.forkID = forkID := by
  have hForks : ∀ row ∈ db.forkIds.entries, ∃ interval ∈ result, interval.forkID = row.2 := by
    intro row hRow
    rcases exists_covers hRow with ⟨grown, hCovers⟩
    have hFork := hCovers.fork
    rw [← hFork] at hCovers
    exact ⟨_, (mem_result_iff hReturns).mpr ⟨grown, rfl, hCovers, rfl⟩, hFork⟩
  constructor
  · refine ⟨?_, fun _ hMem _ => mem_interval_iff hOrder hReturns hMem, hForks, ?_, ?_⟩
    · refine (hReturns.2.and (forks_nodup hReturns)).imp_of_mem fun hA hB hPair => ?_
      exact ends_before hOrder hReturns hA hB hPair.1 hPair.2
    · intro interval hMem
      rcases (mem_result_iff hReturns).mp hMem with ⟨grown, _, hCovers, rfl⟩
      exact hCovers.first
    · intro last hLast
      rcases List.getLast?_eq_some_iff.mp hLast with ⟨init, hInit⟩
      rcases (mem_result_iff hReturns).mp (by simp [hInit] : last ∈ result) with
        ⟨grown, _, hCovers, hEq⟩
      rcases (scan_last none db.forkIds.entries).2 (List.ne_nil_of_mem hCovers.first) with
        ⟨top, hTop, hTopFork⟩
      -- the interval of the highest fork does not start behind the last one
      rcases hForks top hTop with ⟨highest, hHighest, hFork⟩
      have hStart : highest.fromBatchNumber ≤ last.fromBatchNumber := by
        have hSorted := hReturns.2
        rw [hInit, List.pairwise_append] at hSorted
        rw [hInit, List.mem_append, List.mem_singleton] at hHighest
        rcases hHighest with hBefore | rfl
        · exact hSorted.2.2 highest hBefore last (by simp)
        · exact le_rfl
      rcases (mem_result_iff hReturns).mp hHighest with ⟨grownTop, _, hCoversTop, rfl⟩
      subst hEq
      have hLe : grownTop.forkID ≤ grown.forkID :=
        hOrder _ hCoversTop.first _ hCovers.first hStart
      have hUpper : grown.forkID ≤ _ := (scan_last none db.forkIds.entries).1 _ hCovers.first
      have hSame : grownTop.forkID = top.2 := hFork
      rw [ForkTables.finish, if_pos (by omega)]
  · rintro forkID _ ⟨one, hOne, rfl⟩ interval
    -- the filtered map has the same interval for this fork and no other
    have hFilter : ∀ fork, excludes (some forkID) fork = false ↔ forkID = fork := by simp [excludes]
    have hIff : ∀ interval, interval ∈ one ↔ interval ∈ result ∧ interval.forkID = forkID := by
      intro interval
      rw [mem_result_iff hOne, mem_result_iff hReturns]
      constructor
      · rintro ⟨grown, hPass, hCovers, rfl⟩
        exact ⟨⟨grown, rfl, hCovers, rfl⟩, ((hFilter _).mp hPass).symm⟩
      · rintro ⟨⟨grown, _, hCovers, rfl⟩, hFork⟩
        exact ⟨grown, (hFilter _).mpr hFork.symm, hCovers, rfl⟩
    rw [← hIff]
    constructor
    · exact List.mem_of_mem_head?
    · intro hMem
      cases one with
      | nil => cases hMem
      | cons head rest =>
        have hHead := (hIff head).mp List.mem_cons_self
        have hTail := List.pairwise_cons.mp (forks_nodup hOne)
        rcases List.mem_cons.mp hMem with rfl | hRest
        · rfl
        · exact absurd (hHead.2.trans ((hIff interval).mp hMem).2.symm) (hTail.1 interval hRest)

def sampleForkTables : ForkTables where
  forkIds := ⟨[(1, 4), (2, 4), (5, 7)], by decide⟩
  batches := by decide
  forkIdBlock := fun _ => none

theorem fork_intervals_partition_two :
    ∃ result, Returns sampleForkTables none result ∧ result.length = 2 ∧
      Partition sampleForkTables result := by
  have hReturns : Returns sampleForkTables none (sampleForkTables.unsorted none) :=
    ⟨.refl _, by decide⟩
  exact ⟨_, hReturns, rfl, (fork_intervals_partition _ _ (by decide) hReturns).1⟩

end XLayerErigon.HermezDb
