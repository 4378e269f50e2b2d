import Mathlib.Data.Prod.Lex
import Mathlib.Order.Lex
import XLayerErigon.Data.IndexedQueue

/-
  The pending transactions and the order they are offered in.

  The pool keeps its transactions twice: in a list that is sorted by `better` when it is asked for
  the best ones, and in a heap by `worse`.  A flag says that the list is still sorted, and sorting
  is then skipped.

  The flag is taken down when a transaction is added or removed.  It stays up when the worst one
  is popped, when a transaction is updated and when the base fee changes.

  Main results:
    * `PendingTx.better_iff`
    * `Kept.step`
    * `pending_order_kept`
-/

namespace XLayerErigon.TxPool

open IndexedQueue

-- The Two Orders

inductive SubPoolType where
  | none
  | pending
  | baseFee
  | queued
  | limbo
  deriving DecidableEq

/- What the orders read of a transaction. -/
structure PendingTx where
  subPool : BitVec 8
  currentSubPool : SubPoolType
  minFeeCap : BitVec 256
  minTip : BitVec 64
  nonceDistance : BitVec 64
  cumulativeBalanceDistance : BitVec 64
  timestamp : BitVec 64
  deriving DecidableEq

namespace PendingTx

def enoughFeeCapBlock : BitVec 8 := 0b000010

/- Subtraction of 256-bit numbers, which wraps around. -/
def difference (mt : PendingTx) (pendingBaseFee : BitVec 64) : BitVec 256 :=
  mt.minFeeCap - pendingBaseFee.setWidth 256

/- The marker `better` compares; the sign is the top bit. -/
def betterMarker (mt : PendingTx) (pendingBaseFee : BitVec 64) : BitVec 8 :=
  if (mt.difference pendingBaseFee).msb = false then
    mt.subPool ||| enoughFeeCapBlock
  else
    mt.subPool

def effectiveTip (mt : PendingTx) (pendingBaseFee : BitVec 64) : BitVec 256 :=
  if mt.betterMarker pendingBaseFee &&& enoughFeeCapBlock = enoughFeeCapBlock then
    if mt.difference pendingBaseFee ≤ mt.minTip.setWidth 256 then
      mt.difference pendingBaseFee
    else
      mt.minTip.setWidth 256
  else
    0

def better (mt than : PendingTx) (pendingBaseFee : BitVec 64) : Bool :=
  if mt.betterMarker pendingBaseFee ≠ than.betterMarker pendingBaseFee then
    decide (than.betterMarker pendingBaseFee < mt.betterMarker pendingBaseFee)
  else
    match mt.currentSubPool with
    | .pending =>
      if mt.effectiveTip pendingBaseFee ≠ than.effectiveTip pendingBaseFee then
        decide (than.effectiveTip pendingBaseFee < mt.effectiveTip pendingBaseFee)
      else if mt.nonceDistance ≠ than.nonceDistance then
        decide (mt.nonceDistance < than.nonceDistance)
      else if mt.cumulativeBalanceDistance ≠ than.cumulativeBalanceDistance then
        decide (mt.cumulativeBalanceDistance < than.cumulativeBalanceDistance)
      else
        decide (mt.timestamp < than.timestamp)
    | .baseFee =>
      if mt.minFeeCap ≠ than.minFeeCap then
        decide (than.minFeeCap < mt.minFeeCap)
      else
        decide (mt.timestamp < than.timestamp)
    | .queued =>
      if mt.nonceDistance ≠ than.nonceDistance then
        decide (mt.nonceDistance < than.nonceDistance)
      else if mt.cumulativeBalanceDistance ≠ than.cumulativeBalanceDistance then
        decide (mt.cumulativeBalanceDistance < than.cumulativeBalanceDistance)
      else
        decide (mt.timestamp < than.timestamp)
    | _ => decide (mt.timestamp < than.timestamp)

/- The marker `worse` compares; no sign is involved. -/
def worseMarker (mt : PendingTx) (pendingBaseFee : BitVec 64) : BitVec 8 :=
  if pendingBaseFee.setWidth 256 ≤ mt.minFeeCap then
    mt.subPool ||| enoughFeeCapBlock
  else
    mt.subPool

def worse (mt than : PendingTx) (pendingBaseFee : BitVec 64) : Bool :=
  if mt.worseMarker pendingBaseFee ≠ than.worseMarker pendingBaseFee then
    decide (mt.worseMarker pendingBaseFee < than.worseMarker pendingBaseFee)
  else if mt.currentSubPool = .pending ∧
      mt.minFeeCap ≠ than.minFeeCap then
    decide (mt.minFeeCap < than.minFeeCap)
  else
    match mt.currentSubPool with
    | .pending | .baseFee | .queued =>
      if mt.nonceDistance ≠ than.nonceDistance then
        decide (than.nonceDistance < mt.nonceDistance)
      else if mt.cumulativeBalanceDistance ≠ than.cumulativeBalanceDistance then
        decide (than.cumulativeBalanceDistance < mt.cumulativeBalanceDistance)
      else
        decide (than.timestamp < mt.timestamp)
    | _ => decide (than.timestamp < mt.timestamp)

/- The place of a pending transaction: lower is better. -/
abbrev Rank : Type := ℕᵒᵈ ×ₗ ℕᵒᵈ ×ₗ ℕ ×ₗ ℕ ×ₗ ℕ

def rank (mt : PendingTx) (pendingBaseFee : BitVec 64) : Rank :=
  toLex (OrderDual.toDual (mt.betterMarker pendingBaseFee).toNat,
    toLex (OrderDual.toDual (mt.effectiveTip pendingBaseFee).toNat,
      toLex (mt.nonceDistance.toNat,
        toLex (mt.cumulativeBalanceDistance.toNat, mt.timestamp.toNat))))

/- Among pending transactions, better is a lower rank. -/
theorem better_iff {mt : PendingTx} (hPending : mt.currentSubPool = .pending) (than : PendingTx)
    (pendingBaseFee : BitVec 64) :
    mt.better than pendingBaseFee = true ↔ mt.rank pendingBaseFee < than.rank pendingBaseFee := by
  simp only [better, hPending, rank, Prod.Lex.toLex_lt_toLex,
    OrderDual.toDual_lt_toDual, OrderDual.toDual_inj,
    ne_eq, ite_not, ← BitVec.toNat_eq, ← BitVec.lt_def]
  split_ifs <;> simp_all

end PendingTx

-- The Pool

variable {α : Type} [DecidableEq α]

/-
  The positions a transaction knows are the indices of the two queues; the rest of it is in
  `metaTxs`.
-/
structure PendingPool (α : Type) where
  sorted : Bool
  best : Queue α
  bestBaseFee : BitVec 64
  worst : Queue α
  worstBaseFee : BitVec 64
  metaTxs : α → PendingTx

namespace PendingPool

def newPendingSubPool (metaTxs : α → PendingTx) : PendingPool α where
  sorted := false
  best := ⟨[], fun _ => -1⟩
  bestBaseFee := 0
  worst := ⟨[], fun _ => -1⟩
  worstBaseFee := 0
  metaTxs := metaTxs

def bestLess (p : PendingPool α) (i j : α) : Bool :=
  (p.metaTxs i).better (p.metaTxs j) p.bestBaseFee

def worstLess (p : PendingPool α) (i j : α) : Bool :=
  (p.metaTxs i).worse (p.metaTxs j) p.worstBaseFee

def setCurrentSubPool (p : PendingPool α) (i : α) (t : SubPoolType) : PendingPool α :=
  { p with metaTxs := Function.update p.metaTxs i { p.metaTxs i with currentSubPool := t } }

def enforceWorstInvariants (p : PendingPool α) : PendingPool α :=
  { p with worst := p.worst.heapInit p.worstLess }

def enforceBestInvariants (sorter : Sorter α) (p : PendingPool α) : PendingPool α :=
  if p.sorted then
    p
  else
    { p with
      best := p.best.sortBy sorter p.bestLess
      sorted := true }

/- Removing from the list, for an index that is not -1. -/
def unsafeRemove (p : PendingPool α) (i : α) : Option (PendingPool α) :=
  if 0 ≤ p.best.index i then
    (p.best.removeAt (p.best.index i).toNat).map fun removed => { p with best := removed.2 }
  else
    some p

def popWorst (p : PendingPool α) : Option (α × PendingPool α) :=
  match p.worst.heapPop p.worstLess with
  | none => none
  | some (i, worst) =>
    ((({ p with worst := worst }).setCurrentSubPool i
      .none).unsafeRemove i).map fun rest => (i, rest)

def updated (p : PendingPool α) (mt : α) : Option (PendingPool α) :=
  (p.worst.heapFix p.worstLess (p.worst.index mt).toNat).map fun worst => { p with worst := worst }

def removeFromWorst (p : PendingPool α) (i : α) : Option (PendingPool α) :=
  if p.worst.items ≠ [] ∧ 0 ≤ p.worst.index i then
    (p.worst.heapRemove p.worstLess (p.worst.index i).toNat).map fun removed =>
      ({ p with worst := removed.2 }).setCurrentSubPool removed.1 .none
  else
    some p

def removeFromBest (p : PendingPool α) (i : α) : Option (PendingPool α) :=
  if p.best.items ≠ [] then p.unsafeRemove i else some p

/- The index is read again after the removal. -/
def clearSorted (p : PendingPool α) (i : α) : PendingPool α :=
  if p.best.items ≠ [] ∧ p.best.index i ≠ (p.best.items.length : Int) - 1 then
    { p with sorted := false }
  else
    p

def remove (p : PendingPool α) (i : α) : Option (PendingPool α) :=
  match p.removeFromWorst i with
  | none => none
  | some first =>
    (first.removeFromBest i).map fun second => (second.clearSorted i).setCurrentSubPool i .none

def add (p : PendingPool α) (i : α) : PendingPool α :=
  let marked := p.setCurrentSubPool i .pending
  { marked with
    worst := marked.worst.heapPush marked.worstLess i
    best := marked.best.push i
    sorted := false }

end PendingPool

/- The pending transactions and the current base fee. -/
structure PoolState (α : Type) where
  pending : PendingPool α
  pendingBaseFee : BitVec 64

namespace PoolState

/-
  The fee is stored before it is compared, so without free transactions it never counts as
  changed.
-/
def setBaseFee (p : PoolState α) (baseFee : BitVec 64)
    (allowFreeTransactions : Bool) : PoolState α × Bool :=
  let stored := { p with pendingBaseFee := baseFee }
  if allowFreeTransactions then
    ({ stored with pendingBaseFee := 0 }, decide (0 ≠ stored.pendingBaseFee))
  else
    ({ stored with pendingBaseFee := baseFee }, decide (baseFee ≠ stored.pendingBaseFee))

/- How `OnNewBlock` changes the base fee. -/
def newBlock (p : PoolState α) (baseFee : BitVec 64) (allowFreeTransactions : Bool) : PoolState α :=
  let set := p.setBaseFee baseFee allowFreeTransactions
  if set.2 then
    { set.1 with
      pending := { set.1.pending with
          bestBaseFee := set.1.pendingBaseFee
          worstBaseFee := set.1.pendingBaseFee } }
  else
    set.1

def better (p : PoolState α) (i j : α) : Bool :=
  (p.pending.metaTxs i).better (p.pending.metaTxs j) p.pendingBaseFee

def enforceBest (sorter : Sorter α) (p : PoolState α) : PoolState α :=
  { p with pending := p.pending.enforceBestInvariants sorter }

/- New fields of a transaction; its sub-pool is kept. -/
def setFields (p : PoolState α) (mt : α) (fields : PendingTx) : PoolState α := { p with
    pending := { p.pending with
        metaTxs := Function.update p.pending.metaTxs mt
          { fields with currentSubPool := (p.pending.metaTxs mt).currentSubPool } } }

inductive Step (α : Type) where
  | add (mt : α) (fields : PendingTx)
  | remove (mt : α)
  | update (mt : α) (fields : PendingTx) (fixed : Bool)
  | popWorst
  | newBlock (baseFee : BitVec 64) (allowFreeTransactions : Bool)
  | loadBaseFee (baseFee : BitVec 64)
  | enforceBest
  | enforceWorst

/-
  One step.  Only a transaction that is not pending is added and only pending ones are removed or
  updated; an update may leave the heap as it is.  A panic has no next state.
-/
def step (sorter : Sorter α) :
    Step α → PoolState α → Option (PoolState α)
| .add mt fields, p =>
    if mt ∈ p.pending.best.items then
      none
    else
      let set := p.setFields mt fields
      some { set with pending := set.pending.add mt }
| .remove mt, p =>
  if mt ∈ p.pending.best.items then
    (p.pending.remove mt).map fun pending => { p with pending := pending }
  else
    none
| .update mt fields fixed, p =>
  if mt ∈ p.pending.best.items then
    let set := p.setFields mt fields
    if fixed then
      (set.pending.updated mt).map fun pending => { set with pending := pending }
    else
      some set
  else
    none
| .popWorst, p =>
  p.pending.popWorst.map fun popped => { p with pending := popped.2 }
| .newBlock baseFee allowFreeTransactions, p =>
  some (p.newBlock baseFee allowFreeTransactions)
| .loadBaseFee baseFee, p =>
  some { p with pendingBaseFee := baseFee }
| .enforceBest, p => some (p.enforceBest sorter)
| .enforceWorst, p =>
  some { p with pending := p.pending.enforceWorstInvariants }

end PoolState

-- What Holds in Every State

/-
  The list in order for the current base fee, both queues with the same transactions, and the
  indices right.
-/
structure InOrder (p : PoolState α) : Prop where
  sorted : SortedBy p.better p.pending.best.items
  same : p.pending.best.items.Perm p.pending.worst.items
  best : p.pending.best.Placed
  worst : p.pending.worst.Placed

/- What all steps keep. -/
structure Kept (p : PoolState α) : Prop where
  best : p.pending.best.Placed
  worst : p.pending.worst.Placed
  same : p.pending.best.items.Perm p.pending.worst.items
  pending : ∀ mt ∈ p.pending.best.items, (p.pending.metaTxs mt).currentSubPool = .pending
  fee : p.pending.bestBaseFee = p.pendingBaseFee
  sorted : p.pending.sorted = true → SortedBy p.better p.pending.best.items

/-
  The steps that leave the order alone when the flag is up. A fee counts as changed with free
  transactions only, and the list then gets the fee of zero.
-/
def KeepsOrder (p : PoolState α) : PoolState.Step α → Prop
| .update mt fields _ =>
    p.pending.sorted = false ∨ SortedBy (p.setFields mt fields).better p.pending.best.items
| .popWorst =>
    p.pending.sorted = false ∨ p.pending.worst.items[0]? = p.pending.best.items.getLast?
| .newBlock baseFee allowFreeTransactions =>
    (p.pending.bestBaseFee =
        (if allowFreeTransactions then 0 else baseFee) ∨
      (allowFreeTransactions = true ∧ baseFee ≠ 0)) ∧
    (p.pending.sorted = false ∨
      SortedBy ({ p with pendingBaseFee :=
        if allowFreeTransactions then 0 else baseFee }).better
        p.pending.best.items)
| .loadBaseFee baseFee => p.pending.bestBaseFee = baseFee
| _ => True

/- Runs whose steps all meet a condition. -/
inductive PoolRun (sorter : Sorter α) (condition : PoolState α → PoolState.Step α → Prop) :
    PoolState α → Prop where
  | start (metaTxs : α → PendingTx) :
      PoolRun sorter condition ⟨PendingPool.newPendingSubPool metaTxs, 0⟩
  | step {p next : PoolState α} (s : PoolState.Step α) :
      PoolRun sorter condition p → condition p s →
      p.step sorter s = some next → PoolRun sorter condition next

/- The order only reads the transactions of the list. -/
variable {mt : α} {p : PoolState α}

omit [DecidableEq α] in
theorem sortedBy_congr {less other : α → α → Bool} {items : List α}
    (hSame : ∀ a ∈ items, ∀ b ∈ items, less a b = other a b) (hSorted : SortedBy less items) :
    SortedBy other items := by
  refine List.Pairwise.imp_of_mem ?_ hSorted
  intro a b ha hb hLess
  rw [← hSame b hb a ha]
  exact hLess

section

variable (hKept : Kept p)

include hKept

omit [DecidableEq α] in
theorem Kept.strictWeakOn : StrictWeakOn p.pending.bestLess p.pending.best.items :=
  strictWeakOn_of_rank (fun i => (p.pending.metaTxs i).rank p.pending.bestBaseFee) fun a ha _ _ =>
    PendingTx.better_iff (hKept.pending a ha) _ _

omit [DecidableEq α] in
omit hKept in
theorem Kept.start (metaTxs : α → PendingTx) :
    Kept ⟨PendingPool.newPendingSubPool metaTxs, 0⟩ where
  best := ⟨List.nodup_nil, by simp [PendingPool.newPendingSubPool]⟩
  worst := ⟨List.nodup_nil, by simp [PendingPool.newPendingSubPool]⟩
  same := List.Perm.refl _
  pending := by simp [PendingPool.newPendingSubPool]
  fee := rfl
  sorted := by simp [PendingPool.newPendingSubPool]

/- After sorting, or with the flag up, the list is in order. -/
theorem Kept.enforceBest (sorter : Sorter α) :
    Kept (p.enforceBest sorter) ∧ (p.enforceBest sorter).pending.sorted = true := by
  unfold PoolState.enforceBest PendingPool.enforceBestInvariants
  by_cases hFlag : p.pending.sorted = true
  · rw [if_pos hFlag]
    exact ⟨hKept, hFlag⟩
  · rw [if_neg hFlag]
    rcases Queue.sortBy_spec sorter p.pending.bestLess hKept.best with ⟨hPlaced, hPerm⟩
    refine ⟨⟨hPlaced, hKept.worst, hPerm.trans hKept.same,
      fun mt hMem => ?_, hKept.fee, fun _ => ?_⟩, rfl⟩
    · exact hKept.pending mt (hPerm.mem_iff.mp hMem)
    · have hSorted := sorter.sorted _ _ hKept.strictWeakOn
      unfold PendingPool.bestLess at hSorted
      rw [hKept.fee] at hSorted
      unfold PoolState.better Queue.sortBy PendingPool.bestLess
      rw [hKept.fee]
      exact hSorted

omit [DecidableEq α] in
theorem Kept.inOrder (hFlag : p.pending.sorted = true) : InOrder p :=
  ⟨hKept.sorted hFlag, hKept.same, hKept.best, hKept.worst⟩

-- The Steps

theorem Kept.add (hNew : mt ∉ p.pending.best.items) (fields : PendingTx) :
    Kept { p.setFields mt fields with pending := (p.setFields mt fields).pending.add mt } := by
  have hNewWorst : mt ∉ p.pending.worst.items := by
    rwa [← hKept.same.mem_iff]
  rcases Queue.heapPush_spec
      (((p.setFields mt fields).pending.setCurrentSubPool mt
        .pending).worstLess) hKept.worst hNewWorst
    with ⟨hPlaced, hPerm⟩
  refine ⟨hKept.best.push hNew, hPlaced, ?_, ?_, hKept.fee, by simp [PendingPool.add]⟩
  · exact ((List.perm_append_singleton mt _).trans (hKept.same.cons mt)).trans hPerm.symm
  · intro other hMem
    by_cases hSame : other = mt
    · subst hSame
      simp [PendingPool.add, PendingPool.setCurrentSubPool]
    · have hBefore : other ∈ p.pending.best.items := by
        simpa [PendingPool.add, Queue.push, hSame, PendingPool.setCurrentSubPool,
          PoolState.setFields] using hMem
      simpa [PendingPool.add, PendingPool.setCurrentSubPool, PoolState.setFields, hSame]
        using hKept.pending other hBefore

/- Taking a transaction out of the list. -/
omit hKept in
theorem unsafeRemove_spec {p : PendingPool α} (hBest : p.best.Placed) {mt : α}
    (hMem : mt ∈ p.best.items) :
    ∃ rest : Queue α, p.unsafeRemove mt = some { p with best := rest } ∧
      rest.Placed ∧
      rest.items = (p.best.swap (p.best.index mt).toNat (p.best.items.length - 1)).items.dropLast ∧
      (mt :: rest.items).Perm p.best.items ∧ rest.index mt = -1 := by
  rcases hBest.getElem?_index hMem with ⟨hSign, hAt⟩
  rcases Queue.removeAt_spec hBest hAt with ⟨rest, hRemove, hFacts⟩
  refine ⟨rest, ?_, hFacts⟩
  simp [PendingPool.unsafeRemove, hSign, hRemove]

/-
  What is left when a transaction leaves both queues, with the flag `flag` up only if the rest is
  in order.
-/
omit [DecidableEq α] in
theorem Kept.without {best worst : Queue α} {metaTxs : α → PendingTx} {flag : Bool}
    (hBest : best.Placed) (hWorst : worst.Placed)
    (hBestPerm : (mt :: best.items).Perm p.pending.best.items)
    (hWorstPerm : (mt :: worst.items).Perm p.pending.worst.items)
    (hMetaTxs : ∀ other, other ≠ mt → metaTxs other = p.pending.metaTxs other)
    (hFlag : flag = true → SortedBy p.better best.items) : Kept
      { p with
        pending := { p.pending with
            sorted := flag
            best := best
            worst := worst
            metaTxs := metaTxs } } := by
  have hGone : mt ∉ best.items := by
    have hNodup : (mt :: best.items).Nodup := hBestPerm.nodup_iff.mpr hKept.best.nodup
    exact (List.nodup_cons.mp hNodup).1
  have hOther : ∀ other ∈ best.items, metaTxs other = p.pending.metaTxs other := by
    intro other hMem
    exact hMetaTxs other (fun hSame => hGone (hSame ▸ hMem))
  refine ⟨hBest, hWorst, ?_, ?_, hKept.fee, fun hUp => ?_⟩
  · exact List.Perm.cons_inv ((hBestPerm.trans hKept.same).trans hWorstPerm.symm)
  · intro other hMem
    have hBefore : other ∈ p.pending.best.items :=
      hBestPerm.mem_iff.mp (List.mem_cons_of_mem mt hMem)
    change (metaTxs other).currentSubPool = .pending
    rw [hOther other hMem]
    exact hKept.pending other hBefore
  · refine sortedBy_congr ?_ (hFlag hUp)
    intro a ha b hb
    simp [PoolState.better, hOther a ha, hOther b hb]

/- The popped one is last in the list, so the rest stays. -/
theorem sortedBy_removed_last (hLast : p.pending.best.items.getLast? = some mt)
    (hFlag : p.pending.sorted = true) : SortedBy p.better
      (p.pending.best.swap (p.pending.best.index mt).toNat
        (p.pending.best.items.length - 1)).items.dropLast := by
  have hAt : p.pending.best.items[p.pending.best.items.length - 1]? = some mt := by
    rw [← List.getLast?_eq_getElem?]
    exact hLast
  have hIndex : (p.pending.best.index mt).toNat = p.pending.best.items.length - 1 := by
    rw [hKept.best.position _ _ hAt]
    rfl
  rw [hIndex, Queue.swap_last_dropLast]
  exact List.Pairwise.sublist (List.dropLast_sublist _) (hKept.sorted hFlag)

theorem Kept.popWorst {next : PoolState α} (sorter : Sorter α)
    (hOrder : KeepsOrder p .popWorst) (hStep : p.step sorter .popWorst = some next) :
    Kept next := by
  rcases hTop : p.pending.worst.items[0]? with _ | mt
  · have hEmpty : p.pending.worst.items = [] := by simpa using hTop
    simp [PoolState.step, PendingPool.popWorst, Queue.heapPop,
      Queue.pop, Queue.down, Queue.swap, hEmpty] at hStep
  · rcases Queue.heapPop_spec p.pending.worstLess hKept.worst
      hTop with ⟨worst, hPop, hWorst, hWorstPerm⟩
    have hMem : mt ∈ p.pending.best.items := hKept.same.mem_iff.mpr (List.mem_of_getElem? hTop)
    rcases unsafeRemove_spec
        (p := ({ p.pending with worst := worst }).setCurrentSubPool mt .none) hKept.best hMem
      with ⟨best, hRemove, hBest, hItems, hBestPerm, _⟩
    simp only [PoolState.step, PendingPool.popWorst, hPop,
      hRemove, Option.map_some, Option.some.injEq] at hStep
    subst hStep
    refine hKept.without hBest hWorst hBestPerm hWorstPerm
      (fun other hOther => by simp [PendingPool.setCurrentSubPool, hOther]) (fun hFlag => ?_)
    have hLast := hOrder.resolve_left (ne_of_eq_of_ne hFlag Bool.noConfusion)
    exact hItems ▸ sortedBy_removed_last hKept (hLast.symm.trans hTop) hFlag

/- The removed one knows no position, so the flag goes. -/
omit [DecidableEq α] in
omit hKept in
theorem PendingPool.clearSorted_of_gone {p : PendingPool α} {mt : α}
    (hGone : p.best.index mt = -1) :
    p.clearSorted mt = { p with sorted := p.sorted && p.best.items.isEmpty } := by
  unfold PendingPool.clearSorted
  by_cases hRest : p.best.items = []
  · simp [hRest]
  · have hOther : p.best.index mt ≠ (p.best.items.length : Int) - 1 := by
      have hPos := List.length_pos_iff.mpr hRest
      omega
    simp [hRest, hOther]

/- Both removals, and the flag after them. -/
omit hKept in
theorem PendingPool.remove_eq {p first : PendingPool α} {best : Queue α}
    (hFirst : p.removeFromWorst mt = some first) (hMem : mt ∈ first.best.items)
    (hRemove : first.unsafeRemove mt = some { first with best := best })
    (hGone : best.index mt = -1) :
    p.remove mt =
      some (({ first with
        best := best
        sorted := first.sorted && best.items.isEmpty
        }).setCurrentSubPool mt .none) := by
  have hSecond : first.removeFromBest mt = some { first with best := best } := by
    simpa [PendingPool.removeFromBest, List.ne_nil_of_mem hMem] using hRemove
  have hClear := PendingPool.clearSorted_of_gone (p := { first with best := best }) hGone
  simp only [PendingPool.remove, hFirst, hSecond, hClear, Option.map_some]

theorem Kept.remove {next : PoolState α} (sorter : Sorter α)
    (hStep : p.step sorter (.remove mt) = some next) : Kept next := by
  simp only [PoolState.step, Option.ite_none_right_eq_some] at hStep
  rcases hStep with ⟨hMem, hStep⟩
  have hMemWorst : mt ∈ p.pending.worst.items := hKept.same.mem_iff.mp hMem
  rcases hKept.worst.getElem?_index hMemWorst with ⟨hSign, hAt⟩
  rcases Queue.heapRemove_spec p.pending.worstLess
    hKept.worst hAt with ⟨worst, hHeap, hWorst, hWorstPerm⟩
  have hFirst : p.pending.removeFromWorst mt =
      some (({ p.pending with worst := worst }).setCurrentSubPool mt .none) := by
    simp [PendingPool.removeFromWorst, hHeap, hSign, List.ne_nil_of_mem hMemWorst]
  rcases unsafeRemove_spec
      (p := ({ p.pending with worst := worst }).setCurrentSubPool mt .none) hKept.best hMem
    with ⟨best, hRemove, hBest, _, hBestPerm, hIndex⟩
  rw [PendingPool.remove_eq hFirst hMem hRemove hIndex] at hStep
  cases hStep
  refine hKept.without hBest hWorst hBestPerm hWorstPerm
    (fun other hOther => by simp [PendingPool.setCurrentSubPool, hOther]) (fun hFlag => ?_)
  simp only [Bool.and_eq_true, List.isEmpty_iff] at hFlag
  rw [hFlag.2]
  exact List.Pairwise.nil

theorem Kept.update {next : PoolState α} (sorter : Sorter α) {fields : PendingTx}
    {fixed : Bool} (hOrder : KeepsOrder p (.update mt fields fixed))
    (hStep : p.step sorter (.update mt fields fixed) = some next) : Kept next := by
  simp only [PoolState.step, Option.ite_none_right_eq_some] at hStep
  rcases hStep with ⟨hMem, hStep⟩
  have hSet : Kept (p.setFields mt fields) := by
    refine ⟨hKept.best, hKept.worst, hKept.same,
      fun other hOther => ?_, hKept.fee, fun hFlag => hOrder.resolve_left ?_⟩
    · by_cases hSame : other = mt
      · subst hSame
        simpa [PoolState.setFields] using hKept.pending other hMem
      · simpa [PoolState.setFields, hSame] using hKept.pending other hOther
    · exact ne_of_eq_of_ne hFlag Bool.noConfusion
  by_cases hFixed : fixed = true
  · rw [if_pos hFixed] at hStep
    rcases hKept.worst.getElem?_index (hKept.same.mem_iff.mp hMem) with ⟨_, hAt⟩
    rcases Queue.heapFix_spec (p.setFields mt fields).pending.worstLess hKept.worst
        (List.getElem?_eq_some_iff.mp hAt).1
      with ⟨worst, hFix, hWorst, hPerm⟩
    have hUpdated : (p.setFields mt fields).pending.updated mt =
          some { (p.setFields mt fields).pending with worst := worst } := by
      unfold PendingPool.updated
      exact congrArg (Option.map _) hFix
    rw [hUpdated] at hStep
    cases hStep
    exact ⟨hSet.best, hWorst, hSet.same.trans hPerm.symm, hSet.pending, hSet.fee, hSet.sorted⟩
  · rw [if_neg hFixed] at hStep
    cases hStep
    exact hSet

theorem Kept.newBlock {baseFee : BitVec 64} {allowFreeTransactions : Bool}
    (hOrder : KeepsOrder p (.newBlock baseFee allowFreeTransactions)) :
    Kept (p.newBlock baseFee allowFreeTransactions) := by
  rcases hOrder with ⟨hFee, hSorted⟩
  have hUp (hFlag : p.pending.sorted = true) : SortedBy ({ p with pendingBaseFee :=
        if allowFreeTransactions then 0 else baseFee }).better p.pending.best.items :=
    hSorted.resolve_left (by simpa using hFlag)
  unfold PoolState.newBlock PoolState.setBaseFee
  by_cases hFree : allowFreeTransactions = true ∧ baseFee ≠ 0
  · rw [if_pos hFree.1] at hUp
    simp only [hFree.1, if_true, ne_eq, hFree.2.symm, not_false_eq_true, decide_true]
    exact ⟨hKept.best, hKept.worst, hKept.same, hKept.pending, rfl, hUp⟩
  · have hKeptFee := hFee.resolve_right hFree
    cases allowFreeTransactions with
    | false => simpa using ⟨hKept.best, hKept.worst, hKept.same, hKept.pending, hKeptFee, hUp⟩
    | true =>
      obtain rfl : baseFee = 0 := by simpa using hFree
      simpa using ⟨hKept.best, hKept.worst, hKept.same, hKept.pending, hKeptFee, hUp⟩

theorem Kept.step {next : PoolState α} (sorter : Sorter α) (s : PoolState.Step α)
    (hOrder : KeepsOrder p s) (hStep : p.step sorter s = some next) : Kept next := by
  cases s with
  | add mt fields =>
    simp only [PoolState.step, Option.ite_none_left_eq_some] at hStep
    rcases hStep with ⟨hMem, ⟨⟩⟩
    exact hKept.add hMem fields
  | remove mt => exact hKept.remove sorter hStep
  | update mt fields fixed => exact hKept.update sorter hOrder hStep
  | popWorst => exact hKept.popWorst sorter hOrder hStep
  | newBlock baseFee allowFreeTransactions =>
    cases hStep
    exact hKept.newBlock hOrder
  | loadBaseFee baseFee =>
    cases hStep
    -- the list has its fee already, so nothing moves
    have hSame : p.pendingBaseFee = baseFee := hKept.fee.symm.trans hOrder
    subst hSame
    exact hKept
  | enforceBest =>
    cases hStep
    exact (hKept.enforceBest sorter).1
  | enforceWorst =>
    cases hStep
    rcases Queue.heapInit_spec p.pending.worstLess hKept.worst with ⟨hWorst, hPerm⟩
    exact ⟨hKept.best, hWorst, hKept.same.trans hPerm.symm, hKept.pending, hKept.fee, hKept.sorted⟩

end

theorem kept_of_run {sorter : Sorter α} (hRun : PoolRun sorter KeepsOrder p) : Kept p := by
  induction hRun with
  | start metaTxs => exact Kept.start metaTxs
  | step s hRun hOrder hStep ih => exact ih.step sorter s hOrder hStep

/- In every state of such a run, the pool is in order once the order of the best is enforced. -/
theorem pending_order_kept (sorter : Sorter α) (p : PoolState α)
    (hRun : PoolRun sorter KeepsOrder p) : InOrder (p.enforceBest sorter) := by
  rcases (kept_of_run hRun).enforceBest sorter with ⟨hKept, hFlag⟩
  exact hKept.inOrder hFlag

/- A transaction with a fee cap and a tip. -/
def pricedTx (minFeeCap : BitVec 256) (minTip : BitVec 64) : PendingTx where
  subPool := 0b111100
  currentSubPool := .none
  minFeeCap := minFeeCap
  minTip := minTip
  nonceDistance := 0
  cumulativeBalanceDistance := 0
  timestamp := 0

theorem pending_order_kept_popped :
    ∃ p : PoolState Nat, p.pending.best.items = [1] ∧ InOrder (p.enforceBest insertionSorter) := by
  refine ⟨_, ?_, pending_order_kept insertionSorter _
    (.step .popWorst
      (.step (.add 1 (pricedTx 100 5))
        (.step (.add 0 (pricedTx 10 10)) (.start fun _ => pricedTx 0 0) trivial rfl) trivial rfl)
      (Or.inl rfl) rfl)⟩
  decide

def runSteps (sorter : Sorter α) (steps : List (PoolState.Step α))
    (p : PoolState α) : Option (PoolState α) :=
  steps.foldlM (fun state s => state.step sorter s) p

theorem run_of_runSteps {sorter : Sorter α} {p final : PoolState α}
    (steps : List (PoolState.Step α)) (hRun : PoolRun sorter (fun _ _ => True) p)
    (hSteps : runSteps sorter steps p = some final) : PoolRun sorter (fun _ _ => True) final := by
  induction steps generalizing p with
  | nil =>
    cases hSteps
    exact hRun
  | cons s steps ih =>
    rcases Option.bind_eq_some_iff.mp hSteps with ⟨next, hStep, hRest⟩
    exact ih (.step s hRun trivial hStep) hRest

/- Three transactions in order, then the worst popped. -/
def poppedAfterSort : PoolState Nat := (runSteps insertionSorter
    [.add 0 (pricedTx 10 10), .add 1 (pricedTx 100 5),
      .add 2 (pricedTx 100 1), .enforceBest, .popWorst]
    ⟨PendingPool.newPendingSubPool fun _ => pricedTx 0 0, 0⟩).get (by decide)

/-
  The transaction with the lowest fee cap has the best tip:
  popping it puts the last one of the list first, and the
  list is not sorted again.
-/
theorem popped_order_not_restored : ∃ p : PoolState Nat,
      PoolRun insertionSorter (fun _ _ => True) p ∧ ¬ InOrder (p.enforceBest insertionSorter) := by
  refine ⟨poppedAfterSort, ?_, fun hOrder => ?_⟩
  · exact run_of_runSteps _ (.start _) (Option.some_get _).symm
  · have hItems : (poppedAfterSort.enforceBest insertionSorter).pending.best.items = [2, 1] := by
      decide
    have hBetter : (poppedAfterSort.enforceBest insertionSorter).better 1 2 = true := by decide
    have hSorted := hOrder.sorted
    rw [hItems] at hSorted
    have hFirst := List.rel_of_pairwise_cons hSorted (List.mem_singleton_self 1)
    exact absurd (hFirst.symm.trans hBetter) (by simp)

end XLayerErigon.TxPool
