import XLayerErigon.DataStream.Catchup

/-
  Starts and ends of batches in a stream.

  A stream is read from its beginning, with the batch that is open so far.  The lists that the
  writers add are read in the same way.

  Main results:
    * `bracketed_of_openBatch`
    * `heads_of_openBatch`
    * `piece_batchStartList`
    * `openBatch_take`
-/

namespace XLayerErigon.DataStream

open Server

-- Starts and ends

/-
  Between the starts of two batches the first one ends once, the last one may still be open, and
  no batch starts twice.
-/
structure Bracketed (entries : List Entry) : Prop where
  ended : ∀ before first middle second after,
    entries = before ++ .batchStart first :: (middle ++ .batchStart second :: after) →
    (∀ e ∈ middle, startedOf e = none) → middle.filterMap endedOf = [first.number]
  last : ∀ before start after,
    entries = before ++ .batchStart start :: after → (∀ e ∈ after, startedOf e = none) →
    after.filterMap endedOf = [] ∨ after.filterMap endedOf = [start.number]
  once : (entries.filterMap startedOf).Nodup

/- The batch that is open behind an entry, if it may stand. -/
def openNext (opened : Option Nat) (e : Entry) : Option (Option Nat) :=
  match startedOf e, endedOf e with
  | some number, _ =>
    if opened = none then some (some number) else none
  | none, some number =>
    if opened = some number then some none else none
  | none, none => some opened

def openFrom (opened : Option Nat) (entries : List Entry) : Option (Option Nat) :=
  entries.foldlM openNext opened

def openBatch (entries : List Entry) : Option (Option Nat) := openFrom none entries

variable {e : Entry} {number : Nat} (db : Db) (batchNumber lastBatchNumber batchGap chainId : Nat)
  {opened : Option Nat} {entries : List Entry}

theorem openFrom_append (opened : Option Nat) (xs ys : List Entry) :
    openFrom opened (xs ++ ys) = (openFrom opened xs).bind fun o => openFrom o ys := by
  rw [openFrom, List.foldlM_append]
  rfl

@[simp] theorem openFrom_nil (opened : Option Nat) : openFrom opened [] = some opened := rfl

theorem openFrom_cons (opened : Option Nat) (e : Entry) (entries : List Entry) :
    openFrom opened (e :: entries) = (openNext opened e).bind fun o => openFrom o entries := by
  rw [openFrom, List.foldlM_cons]
  rfl

/- An entry does not both start and end a batch. -/
theorem endedOf_eq_none (hStart : startedOf e = some number) : endedOf e = none := by
  cases e with
  | batchStart start => rfl
  | _ => cases hStart

theorem openNext_start {opened after : Option Nat} (hStart : startedOf e = some number)
    (hNext : openNext opened e = some after) : opened = none ∧ after = some number := by
  by_cases hNone : opened = none
  · simp [openNext, hStart, hNone] at hNext
    exact ⟨hNone, hNext.symm⟩
  · simp [openNext, hStart, hNone] at hNext

theorem openNext_end {opened after : Option Nat} (hStart : startedOf e = none)
    (hEnd : endedOf e = some number) (hNext : openNext opened e = some after) :
    opened = some number ∧ after = none := by
  by_cases hSome : opened = some number
  · simp [openNext, hStart, hEnd, hSome] at hNext
    exact ⟨hSome, hNext.symm⟩
  · simp [openNext, hStart, hEnd, hSome] at hNext

theorem openNext_other (hStart : startedOf e = none) (hEnd : endedOf e = none)
    (opened : Option Nat) : openNext opened e = some opened := by
  simp [openNext, hStart, hEnd]

/- Without a start an open batch ends once or stays open. -/
theorem openFrom_noStart (hNone : ∀ e ∈ entries, startedOf e = none) {opened after : Option Nat}
    (hOpen : openFrom opened entries = some after) :
    (after = opened ∧ entries.filterMap endedOf = []) ∨
    ∃ number, opened = some number ∧ after = none ∧ entries.filterMap endedOf = [number] := by
  induction entries generalizing opened with
  | nil => exact Or.inl ⟨(Option.some.inj hOpen).symm, rfl⟩
  | cons e entries ih =>
    have hStart := hNone e (by simp)
    have hRest : ∀ x ∈ entries, startedOf x = none := fun x hx => hNone x (by simp [hx])
    rw [openFrom_cons] at hOpen
    rcases Option.bind_eq_some_iff.mp hOpen with ⟨middle, hNext, hLater⟩
    cases hEnd : endedOf e with
    | none =>
      rw [openNext_other hStart hEnd] at hNext
      rw [← Option.some.inj hNext] at hLater
      rw [List.filterMap_cons_none hEnd]
      exact ih hRest hLater
    | some number =>
      rw [List.filterMap_cons_some hEnd]
      rcases openNext_end hStart hEnd hNext with ⟨hOpened, hMiddle⟩
      rw [hMiddle] at hLater
      rcases ih hRest hLater with ⟨hAfter, hEnds⟩ | ⟨n, hSome, -, -⟩
      · exact Or.inr ⟨number, hOpened, hAfter, by rw [hEnds]⟩
      · cases hSome

-- The heads of a stream in order

/- The last entry of a stream that can be read. -/
theorem openBatch_concat (hOpen : openBatch (entries ++ [e]) = some opened) :
    ∃ before, openBatch entries = some before ∧ openNext before e = some opened := by
  rw [openBatch, openFrom_append] at hOpen
  rcases Option.bind_eq_some_iff.mp hOpen with ⟨before, hBefore, hLast⟩
  rw [openFrom_cons] at hLast
  rcases Option.bind_eq_some_iff.mp hLast with ⟨after, hNext, hEq⟩
  exact ⟨before, hBefore, hEq ▸ hNext⟩

section

variable (hOpen : openBatch entries = some opened)

include hOpen

/- What the state of the reading says of the heads. -/
theorem heads_of_openBatch : (opened = none → lastOf endedOf entries = lastOf startedOf entries) ∧
    ∀ number, opened = some number → lastOf startedOf entries = some number := by
  induction entries using List.reverseRecOn generalizing opened with
  | nil =>
    cases hOpen
    exact ⟨fun _ => rfl, by simp⟩
  | append_singleton xs e ih =>
    rcases openBatch_concat hOpen with ⟨before, hBefore, hNext⟩
    rcases ih hBefore with ⟨hNone, hSome⟩
    rw [lastOf_append, lastOf_append, lastOf_singleton, lastOf_singleton]
    cases hStart : startedOf e with
    | some number =>
      rcases openNext_start hStart hNext with ⟨-, rfl⟩
      exact ⟨by simp, fun _ hEq => hEq⟩
    | none =>
    cases hEnd : endedOf e with
    | some number =>
      rcases openNext_end hStart hEnd hNext with ⟨hOpened, rfl⟩
      refine ⟨fun _ => ?_, by simp⟩
      exact (hSome number hOpened).symm
    | none =>
      rw [openNext_other hStart hEnd] at hNext
      rw [← Option.some.inj hNext]
      exact ⟨hNone, hSome⟩

/- Only batches that were started end, and each but once. -/
theorem ends_of_openBatch (hOnce : (entries.filterMap startedOf).Nodup) :
    (∀ number ∈ entries.filterMap endedOf, number ∈ entries.filterMap startedOf) ∧
    ∀ number, opened = some number → number ∉ entries.filterMap endedOf := by
  induction entries using List.reverseRecOn generalizing opened with
  | nil =>
    cases hOpen
    exact ⟨by simp, by simp⟩
  | append_singleton xs e ih =>
    rcases openBatch_concat hOpen with ⟨before, hBefore, hNext⟩
    rw [List.filterMap_append] at hOnce ⊢
    have hParts := List.nodup_append.mp hOnce
    rcases ih hBefore hParts.1 with ⟨hEnds, hStill⟩
    rw [List.filterMap_append]
    cases hStart : startedOf e with
    | some number =>
      rcases openNext_start hStart hNext with ⟨-, rfl⟩
      rw [List.filterMap_cons_some hStart] at hParts ⊢
      rw [List.filterMap_cons_none (endedOf_eq_none hStart)]
      have hFresh : number ∉ xs.filterMap startedOf :=
        fun hMem => hParts.2.2 number hMem number (by simp) rfl
      refine ⟨?_, ?_⟩
      · intro n hMem
        rw [List.filterMap_nil, List.append_nil] at hMem
        exact List.mem_append_left _ (hEnds n hMem)
      · intro n hEq hMem
        rw [List.filterMap_nil, List.append_nil, ← Option.some.inj hEq] at hMem
        exact hFresh (hEnds _ hMem)
    | none =>
    rw [List.filterMap_cons_none hStart]
    cases hEnd : endedOf e with
    | some number =>
      rcases openNext_end hStart hEnd hNext with ⟨hOpened, rfl⟩
      have hLast := (heads_of_openBatch hBefore).2 number hOpened
      rw [lastOf_eq_getLast?] at hLast
      rw [List.filterMap_cons_some hEnd]
      refine ⟨?_, by simp⟩
      intro n hMem
      rcases List.mem_append.mp hMem with hMem | hMem
      · exact List.mem_append_left _ (hEnds n hMem)
      · rw [List.filterMap_nil, List.mem_singleton] at hMem
        rw [hMem]
        exact List.mem_append_left _ (List.mem_of_getLast? hLast)
    | none =>
      rw [openNext_other hStart hEnd] at hNext
      rw [List.filterMap_cons_none hEnd, List.filterMap_nil, List.filterMap_nil,
        List.append_nil, List.append_nil, ← Option.some.inj hNext]
      exact ⟨hEnds, hStill⟩

/- A stream that can be read to its end is in order. -/
theorem bracketed_of_openBatch (hOnce : (entries.filterMap startedOf).Nodup) :
    Bracketed entries where
  once := hOnce
  ended := by
    intro before first middle second after hEq hNone
    rw [openBatch, hEq, openFrom_append] at hOpen
    rcases Option.bind_eq_some_iff.mp hOpen with ⟨o, -, hOpen⟩
    rw [openFrom_cons] at hOpen
    rcases Option.bind_eq_some_iff.mp hOpen with ⟨o, hFirst, hOpen⟩
    rcases openNext_start rfl hFirst with ⟨-, rfl⟩
    rw [openFrom_append] at hOpen
    rcases Option.bind_eq_some_iff.mp hOpen with ⟨o, hMiddle, hOpen⟩
    rw [openFrom_cons] at hOpen
    rcases Option.bind_eq_some_iff.mp hOpen with ⟨o', hSecond, -⟩
    rcases openNext_start rfl hSecond with ⟨rfl, -⟩
    rcases openFrom_noStart hNone hMiddle with ⟨hAfter, -⟩ | ⟨number, hSome, -, hEnds⟩
    · cases hAfter
    · rw [hEnds, Option.some.inj hSome]
  last := by
    intro before start after hEq hNone
    rw [openBatch, hEq, openFrom_append] at hOpen
    rcases Option.bind_eq_some_iff.mp hOpen with ⟨o, -, hOpen⟩
    rw [openFrom_cons] at hOpen
    rcases Option.bind_eq_some_iff.mp hOpen with ⟨o, hStart, hOpen⟩
    rcases openNext_start rfl hStart with ⟨-, rfl⟩
    rcases openFrom_noStart hNone hOpen with ⟨-, hEnds⟩ | ⟨number, hSome, -, hEnds⟩
    · exact Or.inl hEnds
    · rw [hEnds, Option.some.inj hSome]
      exact Or.inr rfl

end

-- The numbers of batches

/- The batches of a gap lie between the last batch and the new one. -/
theorem sorted_workingBatches {lastBatch batchNumber : Nat} (hLt : lastBatch < batchNumber)
    (hBound : batchNumber < 2 ^ 64) :
    (workingBatches lastBatch (sub64 batchNumber lastBatch)).Pairwise (· < ·) ∧
    ∀ b ∈ workingBatches lastBatch (sub64 batchNumber lastBatch),
      lastBatch < b ∧ b < batchNumber := by
  have hGap : sub64 batchNumber lastBatch = batchNumber - lastBatch := by
    unfold sub64
    omega
  have hCount : batchGapEntriesCount
      (sub64 batchNumber lastBatch) ≤ batchNumber - lastBatch - 1 := by
    rw [hGap, batchGapEntriesCount]
    split <;> omega
  have hBelow : ∀ i < batchGapEntriesCount (sub64 batchNumber lastBatch),
      (lastBatch + (i + 1)) % 2 ^ 64 = lastBatch + (i + 1) ∧ lastBatch + (i + 1) < batchNumber := by
    intro i hi
    have hHere : lastBatch + (i + 1) < batchNumber := by omega
    exact ⟨Nat.mod_eq_of_lt (by omega), hHere⟩
  unfold workingBatches
  refine ⟨?_, ?_⟩
  · rw [List.pairwise_map]
    refine List.Pairwise.imp_of_mem ?_ List.pairwise_lt_range
    intro i j hi hj hOrder
    rw [(hBelow i (List.mem_range.mp hi)).1, (hBelow j (List.mem_range.mp hj)).1]
    omega
  · intro b hb
    rcases List.mem_map.mp hb with ⟨i, hi, rfl⟩
    rcases hBelow i (List.mem_range.mp hi) with ⟨hMod, hLess⟩
    rw [hMod]
    omega

/- The last of ordered numbers is the greatest. -/
theorem le_getLast_of_sorted {numbers : List Nat} (hSorted : numbers.Pairwise (· < ·))
    (hMem : number ∈ numbers) : number ≤ numbers.getLast?.getD 0 := by
  induction numbers using List.reverseRecOn with
  | nil => simp at hMem
  | append_singleton xs x _ =>
    rw [List.getLast?_concat]
    rcases List.mem_append.mp hMem with hMem | hMem
    · exact Nat.le_of_lt ((List.pairwise_append.mp hSorted).2.2 number hMem x (by simp))
    · exact Nat.le_of_eq (List.mem_singleton.mp hMem)

-- Bookmarks of batches

/- Each bookmark of a batch is before the start of the batch. -/
def Marked (entries : List Entry) : Prop :=
  ∀ before number after, entries = before ++ .bookmark ⟨.batch, number⟩ :: after →
    ∃ start rest, after = .batchStart start :: rest ∧ start.number = number

theorem marked_of_none (hNone : ∀ number, .bookmark ⟨.batch, number⟩ ∉ entries) :
    Marked entries := by
  intro before number after hEq
  exact absurd (by simp [hEq]) (hNone number)

theorem Marked.append {xs ys : List Entry} (hFirst : Marked xs)
    (hThen : Marked ys) : Marked (xs ++ ys) := by
  intro before number after hEq
  rcases append_eq_append_cons hEq with ⟨middle, rfl, hRest⟩ | ⟨middle, rfl, rfl⟩
  · exact hThen middle number after hRest
  · rcases hFirst before number middle rfl with ⟨start, rest, rfl, hNumber⟩
    exact ⟨start, rest ++ ys, rfl, hNumber⟩

/- A stream that is cut off at a bookmark. -/
theorem Marked.take {entries : List Entry} (hMarked : Marked entries) {entryNum : Nat}
    {mark : BookMark} (hMark : entries[entryNum]? = some (.bookmark mark)) :
    Marked (entries.take entryNum) := by
  intro before number after hEq
  rcases List.getElem?_eq_some_iff.mp hMark with ⟨hLength, hHere⟩
  have hAll : entries = before ++
      .bookmark ⟨.batch, number⟩ :: (after ++ .bookmark mark :: entries.drop (entryNum + 1)) := by
    rw [← List.cons_append, ← List.append_assoc, ← hEq,
      ← hHere, ← List.drop_eq_getElem_cons hLength, List.take_append_drop]
  rcases hMarked before number _ hAll with ⟨start, rest, hAfter, hNumber⟩
  cases after with
  | nil => cases hAfter
  | cons e after =>
    simp only [List.cons_append, List.cons.injEq] at hAfter
    rcases hAfter with ⟨rfl, -⟩
    exact ⟨start, after, rfl, hNumber⟩

theorem marked_pair {start : BatchStart} (hNumber : start.number = number) :
    Marked [.bookmark ⟨.batch, number⟩, .batchStart start] := by
  intro before n after hEq
  cases before with
  | nil =>
    cases hEq
    exact ⟨start, [], rfl, hNumber⟩
  | cons e before =>
    simp only [List.cons_append, List.cons.injEq] at hEq
    have hMem : Entry.bookmark ⟨.batch, n⟩ ∈ [Entry.batchStart start] := by
      rw [hEq.2]
      simp
    simp at hMem

-- What the writers add to the brackets

/- A list that is read from one state to another, with its bookmarks. -/
structure Piece (opened : Option Nat) (entries : List Entry) (after : Option Nat) : Prop where
  reads : openFrom opened entries = some after
  marked : Marked entries

theorem Piece.append {opened middle after : Option Nat} {xs ys : List Entry}
    (hFirst : Piece opened xs middle) (hThen : Piece middle ys after) :
    Piece opened (xs ++ ys) after := by
  refine ⟨?_, hFirst.marked.append hThen.marked⟩
  rw [openFrom_append, hFirst.reads]
  exact hThen.reads

/- Entries that neither start nor end a batch. -/
theorem piece_quiet (hQuiet : ∀ e ∈ entries, startedOf e = none ∧ endedOf e = none ∧
      ∀ number, e ≠ .bookmark ⟨.batch, number⟩) (opened : Option Nat) :
    Piece opened entries opened := by
  refine ⟨?_, marked_of_none fun number hMem => (hQuiet _ hMem).2.2 number rfl⟩
  induction entries with
  | nil => rfl
  | cons e entries ih =>
    rcases hQuiet e (by simp) with ⟨hStart, hEnd, -⟩
    rw [openFrom_cons, openNext_other hStart hEnd]
    exact ih fun x hx => hQuiet x (by simp [hx])

theorem piece_blockList (block lastBlock : Block) (txs : List Tx) (forkId batchNumber : Nat)
    (times : MinTimestamps) (opened : Option Nat) :
    Piece opened (blockList db block lastBlock txs forkId batchNumber times) opened := by
  refine piece_quiet ?_ opened
  intro e he
  rcases List.mem_cons.mp he with rfl | he
  · exact ⟨rfl, rfl, by simp [newL2BlockBookmarkEntryProto]⟩
  rcases List.mem_cons.mp he with rfl | he
  · exact ⟨rfl, rfl, by simp [blockEntry, newL2BlockProto]⟩
  rcases mem_blockTail db he with ⟨tx, rfl, -⟩ | rfl
  · exact ⟨rfl, rfl, by simp⟩
  · exact ⟨rfl, rfl, by simp⟩

theorem piece_addBatchEnd (batchNumber : Nat) (root : Hash) (gers : List UpdateGER)
    (localExitRoot : Hash) : Piece (some batchNumber)
      (addBatchEndEntriesProto batchNumber root gers localExitRoot) none := by
  refine Piece.append (piece_quiet ?_ _) ⟨?_, marked_of_none (by simp [newBatchEndProto])⟩
  · intro e he
    rcases List.mem_map.mp he with ⟨u, -, rfl⟩
    exact ⟨rfl, rfl, by simp⟩
  · simp [openFrom_cons, newBatchEndProto, openNext, startedOf, endedOf]

theorem piece_addBatchStart (batchNum chainId : Nat) :
    Piece none (addBatchStartEntries db batchNum chainId) (some batchNum) :=
  ⟨rfl, marked_pair rfl⟩

theorem piece_batchStartList (root : Hash) (gers : List UpdateGER) :
    Piece none (batchStartList db batchNumber lastBatchNumber batchGap chainId root gers)
      (some batchNumber) := by
  refine Piece.append ?_ (piece_addBatchStart db batchNumber chainId)
  -- a batch without blocks is closed again
  induction workingBatches lastBatchNumber batchGap with
  | nil => exact piece_quiet (by simp) none
  | cons b batches ih =>
    rw [List.flatMap_cons]
    exact ((piece_addBatchStart db b chainId).append (piece_addBatchEnd _ _ _ _)).append ih

theorem piece_genesisList (chainId : Nat) {db : Db} {genesis : Block}
    (hBatch : db.getBatchNoByL2Block 0 = 0) (hNumber : genesis.number = 0) :
    Piece none (genesisList chainId db genesis) none := by
  have hStart : Marked
      [newBatchBookmarkEntryProto genesis.number,
        newBatchStartProto (db.getBatchNoByL2Block 0) chainId genesisForkId .regular] :=
    marked_pair (hBatch.trans hNumber.symm)
  refine ⟨?_, hStart.append (marked_of_none ?_)⟩
  · simp [genesisList, openFrom_cons, openNext, startedOf, endedOf, newBatchBookmarkEntryProto,
      newBatchStartProto, newL2BlockBookmarkEntryProto, newL2BlockProto, newBatchEndProto, hBatch]
  · simp [newL2BlockBookmarkEntryProto, newL2BlockProto, newBatchEndProto]

/- Before the bookmark of a batch no batch is open. -/
theorem openBatch_take (hOpen : openBatch entries = some opened) (hMarked : Marked entries)
    {entryNum number : Nat} (hMark : entries[entryNum]? = some (.bookmark ⟨.batch, number⟩)) :
    openBatch (entries.take entryNum) = some none ∧ number ∈ entries.filterMap startedOf := by
  rcases List.getElem?_eq_some_iff.mp hMark with ⟨hLength, hHere⟩
  have hAll : entries = entries.take entryNum ++
      .bookmark ⟨.batch, number⟩ :: entries.drop (entryNum + 1) := by
    rw [← hHere, ← List.drop_eq_getElem_cons hLength, List.take_append_drop]
  rcases hMarked _ _ _ hAll with ⟨start, rest, hRest, hNumber⟩
  rw [hRest] at hAll
  refine ⟨?_, ?_⟩
  · rw [openBatch, hAll, openFrom_append] at hOpen
    rcases Option.bind_eq_some_iff.mp hOpen with ⟨before, hBefore, hLater⟩
    rw [openFrom_cons, openNext_other rfl rfl, Option.bind_some, openFrom_cons] at hLater
    rcases Option.bind_eq_some_iff.mp hLater with ⟨o, hNext, -⟩
    rw [(openNext_start rfl hNext).1] at hBefore
    exact hBefore
  · rw [hAll]
    simp [startedOf, hNumber]

/- What comes before can be read as well. -/
theorem openBatch_of_append {xs ys : List Entry} (hOpen : openBatch (xs ++ ys) = some opened) :
    ∃ before, openBatch xs = some before := by
  rw [openBatch, openFrom_append] at hOpen
  rcases Option.bind_eq_some_iff.mp hOpen with ⟨before, hBefore, -⟩
  exact ⟨before, hBefore⟩

end XLayerErigon.DataStream
