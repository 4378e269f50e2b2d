import XLayerErigon.HermezDb.Basic

/-
  The blocks at which the forks begin, and the cache of them that all transactions share.

  A write puts its value into the table of its transaction and into the cache.  Rolling the
  transaction back takes the value out of the table only, and a reader with an older view of the
  table is answered from the cache too.

  Main results:
    * `System.Runs.coherent`
    * `System.reads_table`
-/

namespace XLayerErigon.HermezDb

open Kv

abbrev ForkTable := Table Uint64 Uint64

/- The map that all transactions share. -/
structure ForkCache where
  forkIdBlockMap : Uint64 → Option Uint64
  forkIdBlockMapInit : Bool

def forkIdsOrdered : List Uint64 := [100, 13, 12, 11, 10, 9, 8, 7, 6, 5, 4]

-- Reading

namespace ForkCache

def empty : ForkCache := ⟨fun _ => none, false⟩

def store (c : ForkCache) (forkId blockNum : Uint64) : ForkCache :=
  { c with forkIdBlockMap := Function.update c.forkIdBlockMap forkId (some blockNum) }

def remove (c : ForkCache) (forkId : Uint64) : ForkCache :=
  { c with forkIdBlockMap := Function.update c.forkIdBlockMap forkId none }

/- A fork that is not in the table is searched once more. -/
def getForkIdBlock (c : ForkCache) (t : ForkTable) (forkId : Uint64) : ForkCache × Option Uint64 :=
  match c.forkIdBlockMap forkId with
  | some blockNum => (c, some blockNum)
  | none =>
    match t.get forkId with
    | some blockNum =>
      (c.store forkId blockNum, some blockNum)
    | none =>
      match t.entries.find? (fun e => e.1 = forkId) with
      | some e => (c.store forkId e.2, some e.2)
      | none => (c, none)

/- The table is read into the cache the first time. -/
def loadAll (c : ForkCache) (t : ForkTable) : ForkCache :=
  if c.forkIdBlockMapInit then c
  else
    { t.entries.foldl (fun c e => c.store e.1 e.2) c with forkIdBlockMapInit := true }

end ForkCache

/- A missing fork begins where the next higher one does. -/
def fillStep (map : Uint64 → Option Uint64) (acc : (Uint64 → Option Uint64) × Option Uint64)
    (forkId : Uint64) : (Uint64 → Option Uint64) × Option Uint64 :=
  match map forkId with
  | some blkNum =>
    (Function.update acc.1 forkId (some blkNum), some blkNum)
  | none =>
    match acc.2 with
    | some lastSetBlockNum =>
      (Function.update acc.1 forkId (some lastSetBlockNum), some lastSetBlockNum)
    | none => acc

def getAllForkIdBlock (c : ForkCache) (t : ForkTable) : ForkCache × (Uint64 → Option Uint64) :=
  (c.loadAll t,
    (forkIdsOrdered.foldl (fillStep (c.loadAll t).forkIdBlockMap) (fun _ => none, none)).1)

def updateForkIdBlock (c : ForkCache) (t : ForkTable)
    (forkId blockNum : Uint64) : ForkCache × ForkTable :=
  (c.store forkId blockNum, t.put forkId blockNum)

def writeForkIdBlockOnce (c : ForkCache) (t : ForkTable)
    (forkId blockNum : Uint64) : ForkCache × ForkTable :=
  let found := c.getForkIdBlock t forkId
  match found.2 with
  | some _ => (found.1, t)
  | none =>
    (found.1.store forkId blockNum, t.put forkId blockNum)

/- The forks to delete, and those that begin later. -/
structure DeletePlan where
  toDeleteForkIds : List Uint64
  toUpdateForkIds : List (Uint64 × Uint64)

def planStep (forkIdBlkNumMap : Uint64 → Option Uint64) (fromBlockNo toBlockNo : Uint64)
    (plan : DeletePlan) (forkId : Uint64) : DeletePlan :=
  match forkIdBlkNumMap forkId with
  | none => plan
  | some blkNum =>
    if fromBlockNo ≤ blkNum ∧ blkNum ≤ toBlockNo then
      match forkIdBlkNumMap (forkId + 1) with
      | some nextBlkNum =>
        if toBlockNo < nextBlkNum then
          { plan with toUpdateForkIds := plan.toUpdateForkIds ++ [(forkId, toBlockNo + 1)] }
        else
          { plan with toDeleteForkIds := plan.toDeleteForkIds ++ [forkId] }
      | none =>
        { plan with toDeleteForkIds := plan.toDeleteForkIds ++ [forkId] }
    else plan

/- The updates are of distinct forks; Go takes any order. -/
def deleteForkIdBlock (c : ForkCache) (t : ForkTable) (fromBlockNo toBlockNo : Uint64) :
    ForkCache × ForkTable :=
  let all := getAllForkIdBlock c t
  let plan := forkIdsOrdered.foldl (planStep all.2 fromBlockNo toBlockNo) ⟨[], []⟩
  let deleted :=
    plan.toDeleteForkIds.foldl (fun s forkId => (s.1.remove forkId, s.2.delete forkId)) (all.1, t)
  plan.toUpdateForkIds.foldl (fun s e => updateForkIdBlock s.1 s.2 e.1 e.2) deleted

-- Transactions

/-
  The cache, the committed table, the table as the open write transaction sees it, and the tables
  that the read transactions were opened on.
-/
structure System where
  cache : ForkCache
  committed : ForkTable
  rw : Option ForkTable
  ro : List ForkTable

inductive TxHandle where
  | rw
  | ro (i : Nat)

inductive Action where
  | beginRw
  | commit
  | rollback
  | beginRo
  | writeForkIdBlockOnce (forkId blockNum : Uint64)
  | updateForkIdBlock (forkId blockNum : Uint64)
  | deleteForkIdBlock (fromBlockNo toBlockNo : Uint64)
  | getForkIdBlock (tx : TxHandle) (forkId : Uint64)
  | getAllForkIdBlock (tx : TxHandle)

inductive Answer where
  | nothing
  | block (found : Option Uint64)
  | all (forkBlocks : Uint64 → Option Uint64)

namespace System

def start (committed : ForkTable) : System := ⟨ForkCache.empty, committed, none, []⟩

def tableOf (s : System) : TxHandle → Option ForkTable
  | .rw => s.rw
  | .ro i => s.ro[i]?

/- The newest table: that of the write transaction. -/
def newest (s : System) : ForkTable := s.rw.getD s.committed

/- The state after a write of the write transaction. -/
def written (s : System) (r : ForkCache × ForkTable) : System :=
  { s with cache := r.1, rw := some r.2 }

def step (s : System) : Action → Option (System × Answer)
  | .beginRw =>
      if s.rw.isSome then none
      else some ({ s with rw := some s.committed }, .nothing)
  | .commit =>
    s.rw.map (fun t => ({ s with committed := t, rw := none }, .nothing))
  | .rollback =>
    s.rw.map (fun _ => ({ s with rw := none }, .nothing))
  | .beginRo =>
    some ({ s with ro := s.ro ++ [s.committed] }, .nothing)
  | .writeForkIdBlockOnce forkId blockNum =>
    s.rw.map (fun t =>
      (s.written (HermezDb.writeForkIdBlockOnce s.cache t forkId blockNum), .nothing))
  | .updateForkIdBlock forkId blockNum =>
    s.rw.map (fun t => (s.written (HermezDb.updateForkIdBlock s.cache t forkId blockNum), .nothing))
  | .deleteForkIdBlock fromBlockNo toBlockNo =>
    s.rw.map (fun t =>
      (s.written (HermezDb.deleteForkIdBlock s.cache t fromBlockNo toBlockNo), .nothing))
  | .getForkIdBlock tx forkId =>
    (s.tableOf tx).map (fun t =>
      ({ s with cache := (s.cache.getForkIdBlock t forkId).1 },
        .block (s.cache.getForkIdBlock t forkId).2))
  | .getAllForkIdBlock tx =>
    (s.tableOf tx).map (fun t =>
      ({ s with cache :=
        (HermezDb.getAllForkIdBlock s.cache t).1 }, .all (HermezDb.getAllForkIdBlock s.cache t).2))

/- A read is answered with what its table contains. -/
def Answers (s : System) : Action → Answer → Prop
  | .getForkIdBlock tx forkId, answer =>
      ∃ t, s.tableOf tx = some t ∧ answer = .block (t.get forkId)
  | .getAllForkIdBlock tx, answer =>
      ∃ t, s.tableOf tx = some t ∧ answer = .all t.get
  | _, _ => True

/- Only known forks, none missing below a stored one. -/
def Filled (t : ForkTable) : Prop :=
  (∀ forkId, t.get forkId ≠ none → forkId ∈ forkIdsOrdered) ∧
  forkIdsOrdered.Pairwise (fun high low => t.get low = none → t.get high = none)

/-
  The steps after which the cache can still be trusted: a transaction is rolled back only if it
  left the table as it was, and reads are made on the newest table.
-/
def Careful (s : System) : Action → Prop
  | .rollback => s.newest = s.committed
  | .getForkIdBlock tx _ => s.tableOf tx = some s.newest
  | .getAllForkIdBlock tx =>
      s.tableOf tx = some s.newest ∧ Filled s.newest
  | _ => True

inductive Runs : System → Prop
  | start (committed : ForkTable) :
      Runs (start committed)
  | step {s s' : System} (hRun : Runs s) (action : Action) (answer : Answer)
      (hStep : s.step action = some (s', answer)) (hCareful : s.Careful action) :
      Runs s'

end System

-- What the cache says of a table

/- What is cached is in the table, and once the cache is initialised the table has nothing else. -/
structure Coherent (c : ForkCache) (t : ForkTable) : Prop where
  cached : ∀ forkId blockNum, c.forkIdBlockMap forkId = some blockNum → t.get forkId = some blockNum
  full : c.forkIdBlockMapInit = true → ∀ forkId, c.forkIdBlockMap forkId = t.get forkId

theorem coherent_empty (t : ForkTable) : Coherent ForkCache.empty t where
  cached := by
    intro forkId blockNum hCached
    cases hCached
  full := by
    intro hInit
    cases hInit

namespace Coherent

variable {c : ForkCache} {t : ForkTable}

section

variable (hCoherent : Coherent c t)

include hCoherent

/- The cache and the table change at one fork. -/
theorem changeAt {c' : ForkCache} {t' : ForkTable} (forkId : Uint64)
    (hInit : c'.forkIdBlockMapInit = c.forkIdBlockMapInit)
    (hHere : c'.forkIdBlockMap forkId = t'.get forkId)
    (hElse : ∀ f, f ≠ forkId → c'.forkIdBlockMap f = c.forkIdBlockMap f ∧ t'.get f = t.get f) :
    Coherent c' t' := by
  refine ⟨?_, ?_⟩
  · intro f n hCached
    by_cases hSame : f = forkId
    · rw [hSame, ← hHere, ← hSame, hCached]
    · rw [(hElse f hSame).1] at hCached
      rw [(hElse f hSame).2, hCoherent.cached f n hCached]
  · intro hLoaded f
    by_cases hSame : f = forkId
    · rw [hSame, hHere]
    · rw [(hElse f hSame).1, (hElse f hSame).2, hCoherent.full (hInit ▸ hLoaded)]

theorem storePut (forkId blockNum : Uint64) :
    Coherent (c.store forkId blockNum) (t.put forkId blockNum) := by
  refine hCoherent.changeAt forkId rfl (by simp [ForkCache.store, Table.get_put]) ?_
  intro f hOther
  simp [ForkCache.store, Table.get_put, hOther]

theorem removeDelete (forkId : Uint64) : Coherent (c.remove forkId) (t.delete forkId) := by
  refine hCoherent.changeAt forkId rfl (by simp [ForkCache.remove, Table.get_delete]) ?_
  intro f hOther
  simp [ForkCache.remove, Table.get_delete, hOther]

/- Caching what the table has keeps the table. -/
theorem storeGet {forkId blockNum : Uint64}
    (hGet : t.get forkId = some blockNum) : Coherent (c.store forkId blockNum) t := by
  refine hCoherent.changeAt forkId rfl (by simp [ForkCache.store, hGet]) ?_
  intro f hOther
  simp [ForkCache.store, hOther]

theorem getForkIdBlock (forkId : Uint64) :
    Coherent (c.getForkIdBlock t forkId).1 t ∧ (c.getForkIdBlock t forkId).2 = t.get forkId := by
  unfold ForkCache.getForkIdBlock
  cases hCached : c.forkIdBlockMap forkId with
  | some blockNum => exact ⟨hCoherent, (hCoherent.cached forkId blockNum hCached).symm⟩
  | none =>
    cases hGet : t.get forkId with
    | some blockNum => exact ⟨hCoherent.storeGet hGet, rfl⟩
    | none =>
      have hFind : t.entries.find? (fun e => e.1 = forkId) = none := by
        rw [List.find?_eq_none]
        rintro ⟨f, n⟩ hMem hSame
        have hKey : f = forkId := by simpa using hSame
        subst hKey
        exact Table.get_eq_none_iff.1 hGet n hMem
      rw [hFind]
      exact ⟨hCoherent, rfl⟩

/- Entries of the table may be cached one by one. -/
theorem foldl_store (es : List (Uint64 × Uint64)) (hEntries : ∀ e ∈ es, t.get e.1 = some e.2) :
    Coherent (es.foldl (fun c e => c.store e.1 e.2) c) t ∧
      ∀ forkId, c.forkIdBlockMap forkId ≠ none ∨
            forkId ∈ es.map Prod.fst →
          (es.foldl (fun c e => c.store e.1 e.2) c).forkIdBlockMap forkId ≠ none := by
  induction es generalizing c with
  | nil =>
    refine ⟨hCoherent, ?_⟩
    rintro forkId (hSome | hMem)
    · exact hSome
    · cases hMem
  | cons e es ih =>
    rcases ih (hCoherent.storeGet (hEntries e List.mem_cons_self))
        (fun other hOther => hEntries other (List.mem_cons_of_mem _ hOther)) with
      ⟨hLast, hStays⟩
    refine ⟨hLast, ?_⟩
    intro forkId hKnown
    refine hStays forkId ?_
    by_cases hSame : forkId = e.1 <;> simp_all [ForkCache.store]

theorem loadAll :
    Coherent (c.loadAll t) t ∧ ∀ forkId, (c.loadAll t).forkIdBlockMap forkId = t.get forkId := by
  unfold ForkCache.loadAll
  cases hInit : c.forkIdBlockMapInit with
  | true => exact ⟨hCoherent, hCoherent.full hInit⟩
  | false =>
    rcases hCoherent.foldl_store t.entries (fun e hMem => Table.get_eq_some_iff.2 hMem) with
      ⟨hLast, hStays⟩
    have hAll : ∀ forkId,
        (t.entries.foldl (fun c e => c.store e.1 e.2) c).forkIdBlockMap forkId = t.get forkId := by
      intro forkId
      cases hCached : (t.entries.foldl (fun c e => c.store e.1 e.2) c).forkIdBlockMap forkId with
      | some blockNum => exact (hLast.cached forkId blockNum hCached).symm
      | none =>
        cases hGet : t.get forkId with
        | none => rfl
        | some blockNum =>
          refine absurd hCached (hStays forkId (Or.inr ?_))
          exact List.mem_map.2 ⟨(forkId, blockNum), Table.get_eq_some_iff.1 hGet, rfl⟩
    exact ⟨⟨hLast.cached, fun _ => hAll⟩, hAll⟩

end

end Coherent

/- Filling in has nothing to do if no fork is missing. -/
theorem foldl_fillStep {map : Uint64 → Option Uint64} (forkIds : List Uint64)
    (hGaps : forkIds.Pairwise (fun high low => map low = none → map high = none))
    (acc : (Uint64 → Option Uint64) × Option Uint64)
    (hLast : acc.2 ≠ none → ∀ forkId ∈ forkIds, map forkId ≠ none) (forkId : Uint64) :
    (forkIds.foldl (fillStep map) acc).1 forkId = if forkId ∈ forkIds ∧ map forkId ≠ none then
        map forkId
      else acc.1 forkId := by
  induction forkIds generalizing acc with
  | nil => simp
  | cons first forkIds ih =>
    rw [List.pairwise_cons] at hGaps
    rw [List.foldl_cons]
    cases hFirst : map first with
    | some blkNum =>
      have hStep : fillStep map acc first =
          (Function.update acc.1 first (some blkNum), some blkNum) := by
        simp [fillStep, hFirst]
      have hNone : ∀ f ∈ forkIds, map f ≠ none := by
        intro f hMem hMissing
        rw [hGaps.1 f hMem hMissing] at hFirst
        cases hFirst
      rw [hStep, ih hGaps.2 _ (fun _ => hNone)]
      grind
    | none =>
      have hNoLast : acc.2 = none := by
        by_contra hSome
        exact hLast hSome first List.mem_cons_self hFirst
      have hStep : fillStep map acc first = acc := by simp [fillStep, hFirst, hNoLast]
      rw [hStep, ih hGaps.2 acc (fun hSome => absurd hNoLast hSome)]
      grind

theorem Coherent.getAllForkIdBlock {c : ForkCache} {t : ForkTable} (hCoherent : Coherent c t)
    (hFilled : System.Filled t) : (getAllForkIdBlock c t).2 = t.get := by
  have hMap : (c.loadAll t).forkIdBlockMap = t.get := funext hCoherent.loadAll.2
  funext forkId
  have hFill := foldl_fillStep forkIdsOrdered hFilled.2 (fun _ => none, none) (by simp) forkId
  simp only [HermezDb.getAllForkIdBlock, hMap, hFill]
  cases hGet : t.get forkId with
  | none => simp
  | some blockNum =>
    have hKnown := hFilled.1 forkId (by simp [hGet])
    simp [hKnown]

theorem Coherent.deleteForkIdBlock {c : ForkCache} {t : ForkTable} (hCoherent : Coherent c t)
    (fromBlockNo toBlockNo : Uint64) : Coherent (deleteForkIdBlock c t fromBlockNo toBlockNo).1
      (deleteForkIdBlock c t fromBlockNo toBlockNo).2 := by
  let Both (s : ForkCache × ForkTable) : Prop := Coherent s.1 s.2
  refine List.foldlRecOn (motive := Both) _ _
    (List.foldlRecOn (motive := Both) _ _ hCoherent.loadAll.1 ?_) ?_
  · exact fun s hStart forkId _ => hStart.removeDelete forkId
  · exact fun s hStart e _ => hStart.storePut e.1 e.2

theorem Coherent.writeForkIdBlockOnce {c : ForkCache} {t : ForkTable} (hCoherent : Coherent c t)
    (forkId blockNum : Uint64) : Coherent (writeForkIdBlockOnce c t forkId blockNum).1
      (writeForkIdBlockOnce c t forkId blockNum).2 := by
  rcases hCoherent.getForkIdBlock forkId with ⟨hCache, _⟩
  simp only [HermezDb.writeForkIdBlockOnce]
  cases (c.getForkIdBlock t forkId).2 with
  | some found => exact hCache
  | none => exact hCache.storePut forkId blockNum

namespace System

-- Careful runs

theorem step_coherent {s s' : System} {action : Action} {answer : Answer}
    (hCoherent : Coherent s.cache s.newest) (hStep : s.step action = some (s', answer))
    (hCareful : s.Careful action) : Coherent s'.cache s'.newest := by
  have hWrite : ∀ t, s.rw = some t → Coherent s.cache t := by
    intro t hRw
    simpa [newest, hRw] using hCoherent
  cases action with
  | beginRw =>
    unfold step at hStep
    cases hRw : s.rw with
    | some t => simp [hRw] at hStep
    | none =>
      simp only [hRw, Option.isSome_none] at hStep
      cases hStep
      simpa [newest, hRw] using hCoherent
  | commit =>
    rcases Option.map_eq_some_iff.1 hStep with ⟨t, hRw, ⟨⟩⟩
    exact hWrite t hRw
  | rollback =>
    rcases Option.map_eq_some_iff.1 hStep with ⟨t, hRw, ⟨⟩⟩
    exact (show s.newest = s.committed from hCareful) ▸ hCoherent
  | beginRo =>
    cases hStep
    exact hCoherent
  | writeForkIdBlockOnce forkId blockNum =>
    rcases Option.map_eq_some_iff.1 hStep with ⟨t, hRw, ⟨⟩⟩
    exact (hWrite t hRw).writeForkIdBlockOnce forkId blockNum
  | updateForkIdBlock forkId blockNum =>
    rcases Option.map_eq_some_iff.1 hStep with ⟨t, hRw, ⟨⟩⟩
    exact (hWrite t hRw).storePut forkId blockNum
  | deleteForkIdBlock fromBlockNo toBlockNo =>
    rcases Option.map_eq_some_iff.1 hStep with ⟨t, hRw, ⟨⟩⟩
    exact (hWrite t hRw).deleteForkIdBlock fromBlockNo toBlockNo
  | getForkIdBlock tx forkId =>
    rcases Option.map_eq_some_iff.1 hStep with ⟨t, hTable, ⟨⟩⟩
    cases hTable.symm.trans hCareful
    exact (hCoherent.getForkIdBlock forkId).1
  | getAllForkIdBlock tx =>
    rcases Option.map_eq_some_iff.1 hStep with ⟨t, hTable, ⟨⟩⟩
    cases hTable.symm.trans hCareful.1
    exact hCoherent.loadAll.1

theorem Runs.coherent {s : System} (hRun : Runs s) : Coherent s.cache s.newest := by
  induction hRun with
  | start committed => exact coherent_empty committed
  | step _ action answer hStep hCareful ih => exact step_coherent ih hStep hCareful

/-
  In a run of careful steps every careful read is answered with what the table of its transaction
  contains.
-/
theorem reads_table {s s' : System} (hRun : Runs s) (action : Action) (answer : Answer)
    (hStep : s.step action = some (s', answer)) (hCareful : s.Careful action) :
    s.Answers action answer := by
  have hCoherent := hRun.coherent
  cases action with
  | getForkIdBlock tx forkId =>
    rcases Option.map_eq_some_iff.1 hStep with ⟨t, hTable, ⟨⟩⟩
    refine ⟨t, hTable, ?_⟩
    cases hTable.symm.trans hCareful
    rw [(hCoherent.getForkIdBlock forkId).2]
  | getAllForkIdBlock tx =>
    rcases Option.map_eq_some_iff.1 hStep with ⟨t, hTable, ⟨⟩⟩
    refine ⟨t, hTable, ?_⟩
    cases hTable.symm.trans hCareful.1
    rw [hCoherent.getAllForkIdBlock hCareful.2]
  | _ => exact trivial

/- The state in which a fork has been written. -/
def afterWrite : System := (({ start .empty with rw := some .empty } :
    System).written (HermezDb.writeForkIdBlockOnce ForkCache.empty .empty 9 100))

theorem afterWrite_runs : Runs afterWrite := by
  have hBegin : Runs { start .empty with rw := some .empty } :=
    .step (.start .empty) .beginRw .nothing rfl trivial
  exact .step hBegin (.writeForkIdBlockOnce 9 100) .nothing rfl trivial

/- The write transaction reads what it wrote. -/
theorem reads_table_written : ∃ s', afterWrite.step (.getForkIdBlock .rw 9) =
        some (s', .block (some 100)) ∧
      afterWrite.Answers (.getForkIdBlock .rw 9) (.block (some 100)) := by
  refine ⟨_, rfl, ?_⟩
  exact reads_table afterWrite_runs (.getForkIdBlock .rw 9) (.block (some 100)) rfl rfl

/- The next transaction, once that one is rolled back. -/
def afterRollback : System := { afterWrite with rw := some .empty }

/-
  A value that was rolled back is returned to the next transaction, whose table does not contain
  it.
-/
theorem rolledBack_returned : Runs afterWrite ∧
    ∃ s s', afterWrite.step .rollback = some (s, .nothing) ∧
      s.step .beginRw = some (afterRollback, .nothing) ∧
      afterRollback.step (.getForkIdBlock .rw 9) = some (s', .block (some 100)) ∧
      ¬ afterRollback.Answers (.getForkIdBlock .rw 9) (.block (some 100)) := by
  refine ⟨afterWrite_runs, _, _, rfl, rfl, rfl, ?_⟩
  rintro ⟨t, hTable, hAnswer⟩
  cases hTable
  cases hAnswer

end System

end XLayerErigon.HermezDb
