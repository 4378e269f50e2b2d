import XLayerErigon.DataStream.Build

/-
  The lists of entries are well formed.

  A batch is its bookmark and its start, then blocks and exit root updates, then its end.  A block
  is its bookmark, the block, its transactions and its end.  A list that is written at once may
  begin and stop inside a batch.

  Main results:
    * `Leads.append`
    * `Leads.wellFormed_iff`
    * `request_wellFormed_iff`
-/

namespace XLayerErigon.DataStream

-- The grammar

/- Where a reader of the stream is. -/
inductive Position where
  | closed
  | marked (batch : Nat)
  | inBatch (batch : Nat)
  | blockMarked (batch block : Nat)
  | inBlock (batch block : Nat)
  deriving DecidableEq

/- The position behind an entry, if it may stand there. -/
def Position.next :
    Position → Entry → Option Position
  | closed, .bookmark ⟨.batch, batch⟩ =>
      some (marked batch)
  | marked batch, .batchStart start =>
      if start.number = batch then some (inBatch batch)
      else none
  | inBatch batch, .bookmark ⟨.l2Block, block⟩ =>
      some (blockMarked batch block)
  | inBatch batch, .gerUpdate update =>
      if update.batchNumber = batch then some (inBatch batch)
      else none
  | inBatch batch, .batchEnd last =>
      if last.number = batch then some closed else none
  | blockMarked batch number, .l2Block block =>
      if block.number = number ∧ block.batchNumber = batch
      then some (inBlock batch number) else none
  | inBlock batch number, .l2Tx tx =>
      if tx.l2BlockNumber = number then
        some (inBlock batch number)
      else none
  | inBlock batch number, .l2BlockEnd last =>
      if last = number then some (inBatch batch) else none
  | _, _ => none

def parse (position : Position) (entries : List Entry) : Option Position :=
  entries.foldlM Position.next position

theorem parse_append {position middle last : Position} {xs ys : List Entry}
    (hFirst : parse position xs = some middle) (hThen : parse middle ys = some last) :
    parse position (xs ++ ys) = some last := by
  rw [parse, List.foldlM_append]
  change (parse position xs >>= fun p => parse p ys) = _
  rw [hFirst]
  exact hThen

def closes (entries : List Entry) : List Nat := entries.filterMap fun
    | .batchEnd last => some last.number
    | _ => none

theorem closes_append (xs ys : List Entry) : closes (xs ++ ys) = closes xs ++ closes ys :=
  List.filterMap_append

/-
  No entry is missing, each stored update of a batch that is closed is there once, and the entries
  follow the grammar.
-/
structure WellFormed
    (table : GerTable) (first last : Position) (entries : List (Option Entry)) : Prop where
  filled : none ∉ entries
  updates : ∀ batch ∈ closes entries.reduceOption,
    ∀ u ∈ table.updates, u.batchNumber = batch → entries.count (some (.gerUpdate u)) = 1
  grammar : parse first entries.reduceOption = some last

-- The parts of a list

/- An update that was read is there as often as its batch ends. -/
def Balanced (gers : List UpdateGER) (entries : List Entry) : Prop :=
  ∀ u, entries.count (.gerUpdate u) =
    if u ∈ gers then (closes entries).count u.batchNumber
    else 0

theorem Balanced.append {gers : List UpdateGER} {xs ys : List Entry} (hFirst : Balanced gers xs)
    (hThen : Balanced gers ys) : Balanced gers (xs ++ ys) := by
  intro u
  rw [List.count_append, hFirst u, hThen u, closes_append, List.count_append]
  split <;> rfl

/-
  What a list does: it leads from one position to another, closes batches, and has the updates
  that were read.
-/
structure Leads (gers : List UpdateGER) (first last : Position) (batches : List Nat)
    (entries : List Entry) : Prop where
  grammar : parse first entries = some last
  closed : closes entries = batches
  balanced : Balanced gers entries

theorem Leads.append {gers : List UpdateGER} {first middle last : Position} {bs bs' : List Nat}
    {xs ys : List Entry} (hFirst : Leads gers first middle bs xs)
    (hThen : Leads gers middle last bs' ys) : Leads gers first last (bs ++ bs') (xs ++ ys) :=
  ⟨parse_append hFirst.grammar hThen.grammar, by rw [closes_append, hFirst.closed, hThen.closed],
    hFirst.balanced.append hThen.balanced⟩

/- Entries that have nothing to do with exit roots. -/
theorem leads_of_parse {gers : List UpdateGER} {first last : Position} {entries : List Entry}
    (hParse : parse first entries = some last) (hCloses : closes entries = [])
    (hNone : ∀ u, .gerUpdate u ∉ entries) : Leads gers first last [] entries := by
  refine ⟨hParse, hCloses, fun u => ?_⟩
  rw [hCloses, List.count_eq_zero_of_not_mem (hNone u)]
  simp

theorem leads_nil (gers : List UpdateGER) (position : Position) :
    Leads gers position position [] [] :=
  leads_of_parse rfl rfl (by simp)

section

variable (db : Db) {gers : List UpdateGER}

variable (block lastBlock : Block) (batchNumber lastBatchNumber batchGap chainId : Nat)

theorem leads_addBatchStartEntries (batchNum chainId : Nat) :
    Leads gers .closed (.inBatch batchNum) [] (addBatchStartEntries db batchNum chainId) := by
  refine leads_of_parse ?_ rfl ?_
  · simp [parse, addBatchStartEntries, Position.next,
      newBatchBookmarkEntryProto, newBatchStartProto]
  · simp [addBatchStartEntries, newBatchBookmarkEntryProto, newBatchStartProto]

theorem parse_addBatchEndEntriesProto (batchNumber : Nat) (root localExitRoot : Hash) :
    parse (.inBatch batchNumber) (addBatchEndEntriesProto batchNumber root gers localExitRoot) =
      some .closed := by
  have hGers : parse (.inBatch batchNumber)
      (gerEntries gers batchNumber) = some (.inBatch batchNumber) := by
    induction gers with
    | nil => rfl
    | cons u gers ih =>
      by_cases hBatch : u.batchNumber = batchNumber
      · simpa [gerEntries, hBatch, parse, Position.next] using ih
      · simpa [gerEntries, hBatch] using ih
  exact parse_append hGers (by simp [parse, Position.next, newBatchEndProto])

theorem leads_addBatchEndEntriesProto (hNodup : gers.Nodup) (batchNumber : Nat)
    (root localExitRoot : Hash) :
    Leads gers (.inBatch batchNumber) .closed [batchNumber]
      (addBatchEndEntriesProto batchNumber root gers localExitRoot) := by
  have hCloses : closes (addBatchEndEntriesProto batchNumber root gers localExitRoot) =
      [batchNumber] := by
    simp [addBatchEndEntriesProto, closes, gerEntries, newBatchEndProto]
  refine ⟨parse_addBatchEndEntriesProto .., hCloses, fun u => ?_⟩
  have hInjective : Function.Injective Entry.gerUpdate := fun _ _ hEq => Entry.gerUpdate.inj hEq
  rw [hCloses, addBatchEndEntriesProto, List.count_append, gerEntries,
    List.count_map_of_injective _ _ hInjective]
  have hEnd : List.count (Entry.gerUpdate u)
      [newBatchEndProto localExitRoot root batchNumber] = 0 := by
    simp [newBatchEndProto]
  rw [hEnd, Nat.add_zero]
  by_cases hMem : u ∈ gers
  · by_cases hBatch : u.batchNumber = batchNumber
    · rw [List.count_filter (by simpa using hBatch), List.count_eq_one_of_mem hNodup hMem]
      simp [hMem, hBatch]
    · rw [List.count_eq_zero_of_not_mem (by simp [hBatch])]
      simp [hMem, Ne.symm hBatch]
  · rw [List.count_eq_zero_of_not_mem (by simp [hMem])]
    simp [hMem]

/- The batches in between are closed again. -/
theorem leads_batchStartList (hNodup : gers.Nodup) (root : Hash) :
    Leads gers .closed (.inBatch batchNumber) (workingBatches lastBatchNumber batchGap)
      (batchStartList db batchNumber lastBatchNumber batchGap chainId root gers) := by
  rw [← List.append_nil (workingBatches lastBatchNumber batchGap)]
  refine Leads.append ?_ (leads_addBatchStartEntries db batchNumber chainId)
  induction workingBatches lastBatchNumber batchGap with
  | nil => exact leads_nil gers .closed
  | cons b batches ih =>
    exact ((leads_addBatchStartEntries db b chainId).append
      (leads_addBatchEndEntriesProto hNodup b root _)).append ih

/- A block stays in its batch and closes nothing. -/
theorem leads_blockList (txs : List Tx) (forkId batchNumber : Nat) (times : MinTimestamps) :
    Leads gers (.inBatch batchNumber) (.inBatch batchNumber) []
      (blockList db block lastBlock txs forkId batchNumber times) := by
  have hTxs : parse (.inBlock batchNumber block.number)
      (txs.map (createTransactionEntryProto db block.number
        (forkId ≤ etrogBatchNumber)) ++ [.l2BlockEnd block.number]) =
        some (.inBatch batchNumber) := by
    induction txs with
    | nil => simp [parse, Position.next]
    | cons tx txs ih =>
      simpa [parse, Position.next, createTransactionEntryProto, newTransactionProto] using ih
  refine leads_of_parse ?_ ?_ ?_
  · simpa [parse, blockList, Position.next, blockEntry,
      newL2BlockBookmarkEntryProto, newL2BlockProto] using hTxs
  · simp [closes, blockList, blockEntry, Function.comp_def, newL2BlockBookmarkEntryProto,
      newL2BlockProto, createTransactionEntryProto, newTransactionProto]
  · simp [blockList, blockEntry, newL2BlockBookmarkEntryProto,
      newL2BlockProto, createTransactionEntryProto, newTransactionProto]

/- The blocks of a batch stay in it and close nothing. -/
theorem leads_blockLists {forkId batchNumber : Nat} {blocks : List Block}
    {parts : List (List Entry)}
    (hParts : List.Forall₂ (IsBlockList db forkId batchNumber) blocks parts) :
    Leads gers (.inBatch batchNumber) (.inBatch batchNumber) [] parts.flatten := by
  induction hParts with
  | nil => exact leads_nil gers _
  | cons hPart hParts ih =>
    rcases hPart with ⟨lastBlock, txs, times, rfl⟩
    exact (leads_blockList db ..).append ih

end

/- What was read of a table has no repetitions. -/
theorem Db.nodup_getBatchGlobalExitRootsProto (db : Db) (fromBatchNum toBatchNum : Nat) :
    (db.getBatchGlobalExitRootsProto fromBatchNum toBatchNum).Nodup := by
  refine List.Nodup.filter _ ?_
  exact db.globalExitRootsBatches.sorted.imp (fun hLt hEq => absurd hLt (by simp [hEq]))

/- A list is well formed if no place is left. -/
theorem Leads.wellFormed_iff {table : GerTable} {gers : List UpdateGER} {first last : Position}
    {batches : List Nat} {xs ys : List Entry} (hLeads : Leads gers first last batches (xs ++ ys))
    (hNodup : batches.Nodup) (free : Nat) :
    WellFormed table first last (xs.map some ++ List.replicate free none ++ ys.map some) ↔
      free = 0 ∧ ∀ u ∈ table.updates, u.batchNumber ∈ batches → u ∈ gers := by
  rcases hLeads with ⟨hParse, rfl, hBalanced⟩
  have hReduce : (xs.map some ++ List.replicate free none ++
      ys.map some).reduceOption = xs ++ ys := by
    simp [List.reduceOption]
  have hCount : ∀ u, (xs.map some ++
      List.replicate free none ++ ys.map some).count (some (Entry.gerUpdate u)) =
      if u ∈ gers then (closes (xs ++ ys)).count u.batchNumber else 0 := by
    intro u
    rw [← hBalanced u, List.count_append, List.count_append, List.count_append,
      List.count_map_of_injective _ _ (Option.some_injective _), List.count_map_of_injective _ _
      (Option.some_injective _)]
    simp [List.count_replicate]
  constructor
  · intro hWell
    refine ⟨?_, ?_⟩
    · by_contra hFree
      exact hWell.filled (by simp [hFree])
    · intro u hu hClosed
      have hOnce := hWell.updates u.batchNumber (by rwa [hReduce]) u hu rfl
      rw [hCount] at hOnce
      by_contra hUnread
      simp [hUnread] at hOnce
  · rintro ⟨rfl, hRead⟩
    refine ⟨by simp, ?_, by rw [hReduce, hParse]⟩
    intro batch hBatch u hu hEq
    rw [hReduce, ← hEq] at hBatch
    rw [hCount, if_pos (hRead u hu hBatch), List.count_eq_one_of_mem hNodup hBatch]

theorem last_not_mem_workingBatches (lastBatchNumber batchGap : Nat) :
    lastBatchNumber ∉ workingBatches lastBatchNumber batchGap := by
  intro hMem
  rcases List.mem_map.mp hMem with ⟨i, hi, hEq⟩
  have hCount : batchGapEntriesCount batchGap < 2 ^ 63 := by
    rw [batchGapEntriesCount]
    split <;> omega
  rw [List.mem_range] at hi
  omega

theorem batch_not_mem_workingBatches (batchNumber lastBatchNumber : Nat) :
    batchNumber ∉ workingBatches lastBatchNumber (sub64 batchNumber lastBatchNumber) := by
  intro hMem
  rcases List.mem_map.mp hMem with ⟨i, hi, hEq⟩
  rw [List.mem_range, batchGapEntriesCount] at hi
  unfold sub64 at hi
  split at hi <;> omega

-- The two kinds of lists

/- What a list of entries is built for. -/
inductive Request where
  | block (block lastBlock : Block) (batchNumber lastBatchNumber forkId : Nat)
      (shouldSkipBatchEndEntry checkBatchEnd : Bool)
  | batch (previousBatchNumber batchNumber : Nat) (blocks : List Block)
      (txsPerBlock : Nat → Option (List Tx)) (times : MinTimestamps)

namespace Request

def build (db : Db) (chainId : Nat) :
    Request → Except Failure (List (Option Entry))
  | block b lastBlock batchNumber lastBatchNumber forkId shouldSkipBatchEndEntry checkBatchEnd =>
      createBlockWithBatchCheckStreamEntriesProto db b
        lastBlock batchNumber lastBatchNumber chainId forkId shouldSkipBatchEndEntry checkBatchEnd
  | batch previousBatchNumber batchNumber blocks txsPerBlock times =>
      buildWholeBatchStreamEntriesProto db chainId
        previousBatchNumber batchNumber blocks txsPerBlock times

/- The data that the list is made of is there. -/
def Complete (db : Db) : Request → Prop
  | block .. => True
  | batch _ _ blocks txsPerBlock _ =>
      ∃ first rest, blocks = first :: rest ∧
        db.readBlockByNumber (sub64 first.number 1) ≠ none ∧
        ∀ b ∈ blocks, txsPerBlock b.number ≠ none

/- Where the stream is when the list is written. -/
def first : Request → Position
  | block _ _ batchNumber lastBatchNumber _ skip _ =>
      if sub64 batchNumber lastBatchNumber > 0 then
        if skip then .closed else .inBatch lastBatchNumber
      else .inBatch batchNumber
  | batch .. => .closed

def last (db : Db) : Request → Position
  | block b _ batchNumber _ _ _ checkBatchEnd =>
      if checkBatchEnd && db.getBatchEnd b.number then
        .closed
      else .inBatch batchNumber
  | batch .. => .closed

/- The batches without blocks that are written as well. -/
def between : Request → List Nat
  | block _ _ batchNumber lastBatchNumber _ _ _ =>
      workingBatches lastBatchNumber (sub64 batchNumber lastBatchNumber)
  | batch previousBatchNumber batchNumber _ _ _ =>
      workingBatches previousBatchNumber (sub64 batchNumber previousBatchNumber)

def closed (db : Db) : Request → List Nat
  | block b _ batchNumber lastBatchNumber _ skip checkBatchEnd =>
      (if sub64 batchNumber lastBatchNumber > 0 then
        (if skip then [] else [lastBatchNumber]) ++
          workingBatches lastBatchNumber (sub64 batchNumber lastBatchNumber)
      else []) ++
      (if checkBatchEnd && db.getBatchEnd b.number then
        [batchNumber]
      else [])
  | batch previousBatchNumber batchNumber _ _ _ =>
      workingBatches previousBatchNumber (sub64 batchNumber previousBatchNumber) ++ [batchNumber]

def read (db : Db) : Request → List UpdateGER
  | block _ _ batchNumber lastBatchNumber _ _ _ =>
      db.getBatchGlobalExitRootsProto lastBatchNumber batchNumber
  | batch previousBatchNumber batchNumber _ _ _ =>
      db.getBatchGlobalExitRootsProto previousBatchNumber batchNumber

def StartsBatch : Request → Prop
  | block _ _ batchNumber lastBatchNumber _ _ _ =>
      sub64 batchNumber lastBatchNumber > 0
  | batch .. => True

/-
  Every update that is read where a batch starts is for one of the batches without blocks, and
  every stored update of a batch that is closed is read.
-/
def UpdatesBetween (db : Db) (r : Request) : Prop :=
  (r.StartsBatch → ∀ u ∈ r.read db, u.batchNumber ∈ r.between) ∧
  ∀ u ∈ db.globalExitRootsBatches.updates, u.batchNumber ∈ r.closed db → u ∈ r.read db

section

variable (db : Db) (chainId : Nat)

variable (b lastBlock : Block) (batchNumber lastBatchNumber forkId : Nat)
  (skip checkBatchEnd : Bool)

/- Where the list for a block leads, part by part. -/
theorem leads_closing_opening (root : Hash) (lastBlock : Block) (batchNumber lastBatchNumber : Nat)
    (skip : Bool) :
    Leads (db.getBatchGlobalExitRootsProto lastBatchNumber batchNumber)
      (if sub64 batchNumber lastBatchNumber > 0 then
        if skip then .closed else .inBatch lastBatchNumber else .inBatch batchNumber)
      (.inBatch batchNumber)
      (if sub64 batchNumber lastBatchNumber > 0 then
        (if skip then [] else [lastBatchNumber]) ++
          workingBatches lastBatchNumber (sub64 batchNumber lastBatchNumber)
      else [])
      (closingList db lastBlock batchNumber lastBatchNumber skip ++
        openingList db root batchNumber lastBatchNumber chainId) := by
  have hNodup := db.nodup_getBatchGlobalExitRootsProto lastBatchNumber batchNumber
  unfold closingList openingList
  by_cases hGap : sub64 batchNumber lastBatchNumber > 0
  · simp only [hGap, if_true]
    refine Leads.append ?_ (leads_batchStartList db _ _ _ _ hNodup _)
    cases skip with
    | true => exact leads_nil _ _
    | false => exact leads_addBatchEndEntriesProto hNodup _ _ _
  · simp only [hGap, if_false]
    exact leads_nil _ _

theorem leads_finalEndEntriesOf (b : Block) (batchNumber lastBatchNumber : Nat)
    (checkBatchEnd : Bool) :
    Leads (db.getBatchGlobalExitRootsProto lastBatchNumber batchNumber) (.inBatch batchNumber)
      (if checkBatchEnd && db.getBatchEnd b.number then .closed else .inBatch batchNumber)
      (if checkBatchEnd && db.getBatchEnd b.number then [batchNumber] else [])
      (finalEndEntriesOf db b batchNumber lastBatchNumber checkBatchEnd) := by
  unfold finalEndEntriesOf
  split
  · exact leads_addBatchEndEntriesProto (db.nodup_getBatchGlobalExitRootsProto _ _) _ _ _
  · exact leads_nil _ _

theorem nodup_closed (r : Request) : (r.closed db).Nodup := by
  cases r with
  | block b lastBlock batchNumber lastBatchNumber forkId skip checkBatchEnd =>
    have hWorking := nodup_workingBatches lastBatchNumber (sub64 batchNumber lastBatchNumber)
    have hLast := last_not_mem_workingBatches lastBatchNumber (sub64 batchNumber lastBatchNumber)
    have hBatch := batch_not_mem_workingBatches batchNumber lastBatchNumber
    unfold closed
    by_cases hGap : sub64 batchNumber lastBatchNumber > 0
    · have hNe : lastBatchNumber ≠ batchNumber := by
        rintro rfl
        simp [sub64_self] at hGap
      have hAll : ([lastBatchNumber] ++
          workingBatches lastBatchNumber (sub64 batchNumber lastBatchNumber) ++
          [batchNumber]).Nodup := by
        rw [List.nodup_append']
        refine ⟨by simp [hWorking, hLast], by simp, ?_⟩
        simp [hBatch, hNe.symm]
      simp only [hGap, if_true]
      refine hAll.sublist (List.Sublist.append (List.Sublist.append ?_ (List.Sublist.refl _)) ?_)
      · split <;> simp
      · split <;> simp
    · simp only [hGap, if_false]
      split <;> simp
  | batch previousBatchNumber batchNumber blocks txsPerBlock times =>
    refine List.nodup_append.mpr ⟨nodup_workingBatches _ _, by simp, ?_⟩
    intro a ha b hb hEq
    rw [List.mem_singleton.mp hb] at hEq
    exact batch_not_mem_workingBatches _ _ (hEq ▸ ha)

/- No update is left over if all are for the given batches. -/
theorem outside_length_eq_zero (gers : List UpdateGER) (batches : List Nat) :
    (outside gers batches).length = 0 ↔ ∀ u ∈ gers, u.batchNumber ∈ batches := by
  rw [List.length_eq_zero_iff, outside, List.filter_eq_nil_iff]
  simp

theorem block_wellFormed_iff {entries : List (Option Entry)}
    (hBuilt : (block b lastBlock batchNumber lastBatchNumber
      forkId skip checkBatchEnd).build db chainId = .ok entries) :
    WellFormed db.globalExitRootsBatches
        (block b lastBlock batchNumber lastBatchNumber forkId skip checkBatchEnd).first
        ((block b lastBlock batchNumber lastBatchNumber
          forkId skip checkBatchEnd).last db) entries ↔
      (block b lastBlock batchNumber lastBatchNumber forkId
        skip checkBatchEnd).UpdatesBetween db := by
  rw [build, createBlockWithBatchCheck_eq] at hBuilt
  rw [← Except.ok.inj hBuilt]
  have hLeads := (leads_closing_opening db chainId b.root lastBlock batchNumber lastBatchNumber
    skip).append ((leads_blockList db b lastBlock b.transactions forkId batchNumber
      (fun _ => 0)).append (leads_finalEndEntriesOf db b batchNumber lastBatchNumber checkBatchEnd))
  refine (hLeads.wellFormed_iff (nodup_closed db
    (block b lastBlock batchNumber lastBatchNumber forkId skip checkBatchEnd)) _).trans ?_
  refine and_congr ?_ Iff.rfl
  unfold unfilled
  by_cases hGap : sub64 batchNumber lastBatchNumber > 0
  · simp only [hGap, if_true, outside_length_eq_zero, StartsBatch, true_implies]
    rfl
  · simp [hGap, StartsBatch]

theorem batch_wellFormed_iff (previousBatchNumber batchNumber : Nat) (blocks : List Block)
    (txsPerBlock : Nat → Option (List Tx)) (times : MinTimestamps) {entries : List (Option Entry)}
    (hBuilt : (batch previousBatchNumber batchNumber blocks
      txsPerBlock times).build db chainId = .ok entries) :
    WellFormed db.globalExitRootsBatches
        (batch previousBatchNumber batchNumber blocks txsPerBlock times).first
        ((batch previousBatchNumber batchNumber blocks txsPerBlock times).last db) entries ↔
      (batch previousBatchNumber batchNumber blocks txsPerBlock times).UpdatesBetween db := by
  cases blocks with
  | nil => cases hBuilt
  | cons b blocks =>
  cases hLast : db.readBlockByNumber (sub64 b.number 1) with
  | none =>
    simp [build, buildWholeBatchStreamEntriesProto, hLast,
      createBatchStartEntriesProto_eq, sliceIndex, deref] at hBuilt
  | some lastBlock =>
  have hNodup := db.nodup_getBatchGlobalExitRootsProto previousBatchNumber batchNumber
  rw [build, buildWholeBatch_eq db chainId previousBatchNumber batchNumber b blocks txsPerBlock
    times hLast] at hBuilt
  cases hWritten : wholeBatchBlocks db txsPerBlock
    (db.getForkId batchNumber) batchNumber lastBlock times (b :: blocks) with
  | error e =>
    rw [hWritten] at hBuilt
    cases hBuilt
  | ok written =>
  rcases wholeBatchBlocks_parts db hWritten with ⟨parts, hInner, hParts⟩
  simp only [hWritten, Except.map, hInner, ← List.map_append] at hBuilt
  rw [← Except.ok.inj hBuilt]
  have hLeads := (leads_batchStartList db batchNumber previousBatchNumber
    (sub64 batchNumber previousBatchNumber) chainId hNodup b.root).append
    ((leads_blockLists db hParts).append (leads_addBatchEndEntriesProto hNodup batchNumber
      written.2.root (db.getBatchLocalExitRootFromSCStorageForLatestBlock batchNumber)))
  refine (hLeads.wellFormed_iff (nodup_closed db
    (batch previousBatchNumber batchNumber (b :: blocks) txsPerBlock times)) _).trans ?_
  rw [outside_length_eq_zero]
  refine and_congr ?_ Iff.rfl
  simp only [StartsBatch, true_implies]
  rfl

end

/-
  A list is built from data that is there, and it is well formed if every update that is read is
  for a batch without blocks.
-/
theorem request_wellFormed_iff (db : Db) (chainId : Nat) (r : Request) :
    (r.Complete db → ∃ entries, r.build db chainId = .ok entries) ∧
    ∀ entries, r.build db chainId = .ok entries →
      (WellFormed db.globalExitRootsBatches r.first (r.last db) entries ↔ r.UpdatesBetween db) := by
  cases r with
  | block b lastBlock batchNumber lastBatchNumber forkId skip checkBatchEnd =>
    exact ⟨fun _ => ⟨_, createBlockWithBatchCheck_eq ..⟩, fun entries hBuilt =>
      block_wellFormed_iff db chainId _ _ _ _ _ _ _ hBuilt⟩
  | batch previousBatchNumber batchNumber blocks txsPerBlock times =>
    refine ⟨?_, fun entries hBuilt => batch_wellFormed_iff db chainId _ _ _ _ _ hBuilt⟩
    rintro ⟨b, rest, rfl, hLast, hTxs⟩
    rcases Option.ne_none_iff_exists'.mp hLast with ⟨lastBlock, hLast⟩
    rcases wholeBatchBlocks_ok db (db.getForkId batchNumber) batchNumber lastBlock
      times hTxs with ⟨written, hWritten⟩
    rw [build, buildWholeBatch_eq db chainId previousBatchNumber batchNumber b rest txsPerBlock
      times hLast, hWritten]
    exact ⟨_, rfl⟩

/- A chain in which batch 2 has an update. -/
def updateDb : Db := sampleDb ⟨[⟨2, 0, 0, 0, 1, 1, 0⟩], List.pairwise_singleton _ _⟩

/- An update of a batch that is skipped is no harm. -/
theorem request_wellFormed_iff_between :
    ∃ entries,
      (block (sampleBlock 3) (sampleBlock 1) 3 1 1 false false).build updateDb 1 = .ok entries ∧
      WellFormed updateDb.globalExitRootsBatches (.inBatch 1) (.inBatch 3) entries := by
  rcases (request_wellFormed_iff updateDb 1
    (block (sampleBlock 3) (sampleBlock 1) 3 1 1 false false)) with ⟨hBuilds, hIff⟩
  rcases hBuilds trivial with ⟨entries, hBuilt⟩
  refine ⟨entries, hBuilt, (hIff entries hBuilt).mpr ?_⟩
  exact ⟨fun _ => by decide, by decide⟩

/- The previous batch has an update: a place is left. -/
theorem stored_update_leaves_hole :
    ∃ entries,
      (block (sampleBlock 3) (sampleBlock 2) 3 2 1 false false).build updateDb 1 = .ok entries ∧
      none ∈ entries ∧
      ¬ WellFormed updateDb.globalExitRootsBatches (.inBatch 2) (.inBatch 3) entries :=
  ⟨_, rfl, by decide, fun hWell => hWell.filled (by decide)⟩

end Request

end XLayerErigon.DataStream
