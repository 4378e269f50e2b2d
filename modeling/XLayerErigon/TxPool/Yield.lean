import XLayerErigon.TxPool.ValidateTx

/-
  Yielding the best transactions for a block.

  Two passes over the list of pending transactions share the gas that is left and the set of what
  is to be skipped.  The first one takes the transactions of priority senders only.

  Main results:
    * `bestRead_yields`
    * `bestForXLayer_limits`
    * `batch_yields_once`
-/

namespace XLayerErigon.TxPool

open State

-- The Code

structure BestTx where
  idHash : BitVec 256
  tx : TxSlot
  blobHashes : Nat

/- What the passes read of the pool and of the database. -/
structure Reader where
  pool : Pool
  getRlpLocked : BitVec 256 → Except Failure (Bytes × Address × Bool)
  isOkPayAddrXLayer : Address → Bool
  okPayTxPriorityCount : Nat

/- A transaction as it is given to the caller. -/
structure Yielded where
  mt : BestTx
  rlpTx : Bytes
  sender : Address
  isLocal : Bool

structure ReadContext where
  txs : List Yielded
  availableGas : Nat
  availableBlobGas : Nat
  toSkip : Finset (BitVec 256)
  toRemove : List BestTx

/- What a pass does at one transaction. -/
inductive Look where
  | stop
  | fail (e : Failure)
  | pass (ctx : ReadContext)
  | take (ctx : ReadContext)

namespace Reader

variable (r : Reader) (n : Nat) (isOkPayPriority : Bool)

/- An overflow is taken for no gas. -/
def intrinsicGas (mt : BestTx) : Nat :=
  (Pool.calcIntrinsicGas mt.tx.dataLen mt.tx.dataNonZeroLen mt.tx.creation true true
    r.pool.isShanghai).getD 0

def blobGas (mt : BestTx) : Nat := mt.blobHashes * 131072 % 2 ^ 64

def look (count : Nat) (ctx : ReadContext) (mt : BestTx) : Look :=
  if n ≤ ctx.txs.length then .stop
  else if ctx.availableGas < 21000 then .stop
  else if mt.idHash ∈ ctx.toSkip then .pass ctx
  else if !r.pool.isLondon && mt.tx.txType = 2 then
    .pass { ctx with toRemove := ctx.toRemove ++ [mt], toSkip := insert mt.idHash ctx.toSkip }
  else if r.pool.getDynamicBlockGasLimit < mt.tx.gas then .pass ctx
  else
    match r.getRlpLocked mt.idHash with
    | .error e => .fail e
    | .ok (rlpTx, sender, isLocal) =>
      if rlpTx = [] then .pass { ctx with toRemove := ctx.toRemove ++ [mt] }
      else if isOkPayPriority && r.okPayTxPriorityCount ≤ count then .stop
      else if isOkPayPriority && !r.isOkPayAddrXLayer sender then .pass ctx
      else if ctx.availableBlobGas < blobGas mt then .pass ctx
      else if ctx.availableGas < r.intrinsicGas mt then
        -- the blob gas is gone although the transaction is passed over
        .pass { ctx with availableBlobGas := ctx.availableBlobGas - blobGas mt }
      else
        .take { ctx with
          availableBlobGas := ctx.availableBlobGas - blobGas mt
          availableGas := ctx.availableGas - r.intrinsicGas mt
          txs := ctx.txs ++ [⟨mt, rlpTx, sender, isLocal⟩]
          toSkip := insert mt.idHash ctx.toSkip }

/- A pass, with the number of priority transactions it has taken. -/
def bestRead : Nat → ReadContext → List BestTx → ReadContext × Option Failure
  | _, ctx, [] => (ctx, none)
  | count, ctx, mt :: rest =>
    match r.look n isOkPayPriority count ctx mt with
    | .stop => (ctx, none)
    | .fail e => (ctx, some e)
    | .pass ctx => bestRead count ctx rest
    | .take ctx =>
      if isOkPayPriority then
        if r.okPayTxPriorityCount ≤ count + 1 then (ctx, none)
        else bestRead (count + 1) ctx rest
      else bestRead count ctx rest

/- The list is sorted; nothing is yielded while that is denied or the block has not arrived. -/
def bestForXLayer (denied arrived : Bool) (availableGas availableBlobGas : Nat)
    (toSkip : Finset (BitVec 256)) (best : List BestTx) : Bool × ReadContext × Option Failure :=
  let ctx : ReadContext := ⟨[], availableGas, availableBlobGas, toSkip, []⟩
  if denied || !arrived then (false, ctx, none)
  else
    let first := r.bestRead n true 0 ctx best
    if first.2.isSome then (false, first)
    else
      let second := r.bestRead n false 0 first.1 best
      (second.2.isNone, second)

end Reader

-- One Pass

/- What a pass adds to the transactions, and what it does to the gas and the set to skip. -/
structure Yields (r : Reader) (n : Nat) (best : List BestTx) (ctx ctx' : ReadContext)
    (added : List Yielded) : Prop where
  txs : ctx'.txs = ctx.txs ++ added
  inOrder : (added.map Yielded.mt).Sublist best
  distinct : (added.map fun y => y.mt.idHash).Nodup
  fresh : ∀ y ∈ added, y.mt.idHash ∉ ctx.toSkip
  gas : ctx'.availableGas + (added.map fun y => r.intrinsicGas y.mt).sum = ctx.availableGas
  kept : ctx.toSkip ⊆ ctx'.toSkip
  skipped : ∀ y ∈ added, y.mt.idHash ∈ ctx'.toSkip
  few : ctx.txs.length ≤ n → ctx'.txs.length ≤ n

variable {r : Reader} {n : Nat} {isOkPayPriority : Bool} {count : Nat} {ctx ctx' : ReadContext}
  {mt : BestTx} {best : List BestTx} {added : List Yielded}

theorem Yields.nothing : Yields r n best ctx ctx [] := by
  constructor <;> simp

theorem Yields.append {best' : List BestTx} {ctx₁ : ReadContext} {added' : List Yielded}
    (hFirst : Yields r n best ctx ctx₁ added) (hSecond : Yields r n best' ctx₁ ctx' added') :
    Yields r n (best ++ best') ctx ctx' (added ++ added') := by
  have hNew : ∀ y ∈ added', ∀ z ∈ added, z.mt.idHash ≠ y.mt.idHash := by
    intro y hy z hz hSame
    exact hSecond.fresh y hy (hSame ▸ hFirst.skipped z hz)
  constructor
  · rw [hSecond.txs, hFirst.txs, List.append_assoc]
  · rw [List.map_append]
    exact hFirst.inOrder.append hSecond.inOrder
  · rw [List.map_append, List.nodup_append]
    refine ⟨hFirst.distinct, hSecond.distinct, ?_⟩
    simp only [List.mem_map]
    rintro _ ⟨z, hz, rfl⟩ _ ⟨y, hy, rfl⟩
    exact hNew y hy z hz
  · refine List.forall_mem_append.mpr ⟨hFirst.fresh, fun y hy hOld => ?_⟩
    exact hSecond.fresh y hy (hFirst.kept hOld)
  · rw [List.map_append, List.sum_append, ← hFirst.gas, ← hSecond.gas]
    omega
  · exact hFirst.kept.trans hSecond.kept
  · refine List.forall_mem_append.mpr ⟨fun y hy => ?_, hSecond.skipped⟩
    exact hSecond.kept (hFirst.skipped y hy)
  · exact hSecond.few ∘ hFirst.few

theorem look_pass {next : ReadContext}
    (hPass : r.look n isOkPayPriority count ctx mt = .pass next) :
    Yields r n [mt] ctx next [] := by
  revert hPass
  fun_cases Reader.look r n isOkPayPriority count ctx mt <;> rintro ⟨⟩ <;>
    constructor <;> simp [Finset.subset_insert]

/- What is taken by the priority pass is of a priority sender, and within the limit. -/
theorem look_take {next : ReadContext}
    (hTake : r.look n isOkPayPriority count ctx mt = .take next) :
    ∃ y, Yields r n [mt] ctx next [y] ∧ (isOkPayPriority = true →
      r.isOkPayAddrXLayer y.sender = true ∧ count < r.okPayTxPriorityCount) := by
  revert hTake
  fun_cases Reader.look r n isOkPayPriority count ctx mt <;> rintro ⟨⟩
  refine ⟨_, ⟨rfl, by simp, by simp, by simpa, ?_, Finset.subset_insert _ _, by simp, ?_⟩,
    by simp_all⟩
  · simp
    omega
  · simp
    omega

/- A pass keeps the limits; one for priority senders takes as many of theirs as are left. -/
theorem bestRead_yields (best : List BestTx) (count : Nat) (ctx : ReadContext) :
    ∃ added, Yields r n best ctx (r.bestRead n isOkPayPriority count ctx best).1 added ∧
      (isOkPayPriority = true → added.length ≤ r.okPayTxPriorityCount - count ∧
        ∀ y ∈ added, r.isOkPayAddrXLayer y.sender = true) := by
  induction best generalizing count ctx with
  | nil => exact ⟨[], .nothing, by simp⟩
  | cons mt best ih =>
    rw [Reader.bestRead]
    cases hLook : r.look n isOkPayPriority count ctx mt with
    | stop => exact ⟨[], .nothing, by simp⟩
    | fail e => exact ⟨[], .nothing, by simp⟩
    | pass next =>
      rcases ih count next with ⟨added, hYields, hPriority⟩
      exact ⟨added, (look_pass hLook).append hYields, hPriority⟩
    | take next =>
      rcases look_take hLook with ⟨y, hTake, hSender⟩
      dsimp only
      split_ifs with hPriority hLast
      · refine ⟨[y], hTake.append .nothing, fun _ => ?_⟩
        grind
      · rcases ih (count + 1) next with ⟨added, hYields, hRest⟩
        refine ⟨y :: added, hTake.append hYields, fun _ => ?_⟩
        grind
      · rcases ih count next with ⟨added, hYields, _⟩
        exact ⟨y :: added, hTake.append hYields, fun hYes => absurd hYes hPriority⟩

-- Both Passes

/- The limits of what is yielded, and the two parts of it. -/
structure WithinLimits (r : Reader) (n availableGas : Nat) (toSkip : Finset (BitVec 256))
    (best : List BestTx) (ctx : ReadContext) (priority others : List Yielded) : Prop where
  txs : ctx.txs = priority ++ others
  few : ctx.txs.length ≤ n
  prioritySenders : ∀ y ∈ priority, r.isOkPayAddrXLayer y.sender = true
  priorityFew : priority.length ≤ r.okPayTxPriorityCount
  priorityInOrder : (priority.map Yielded.mt).Sublist best
  othersInOrder : (others.map Yielded.mt).Sublist best
  distinct : (ctx.txs.map fun y => y.mt.idHash).Nodup
  gas : (ctx.txs.map fun y => r.intrinsicGas y.mt).sum ≤ availableGas
  fresh : ∀ y ∈ ctx.txs, y.mt.idHash ∉ toSkip
  skipped : ∀ y ∈ ctx.txs, y.mt.idHash ∈ ctx.toSkip

-- The Calls of a Batch

/- A call, with the pool as it is at that time. -/
structure YieldCall where
  r : Reader
  n : Nat
  denied : Bool
  arrived : Bool
  availableGas : Nat
  availableBlobGas : Nat
  best : List BestTx

def YieldCall.run (call : YieldCall) (toSkip : Finset (BitVec 256)) : ReadContext :=
  (call.r.bestForXLayer call.n call.denied call.arrived call.availableGas call.availableBlobGas
    toSkip call.best).2.1

/- The set of what was yielded is kept from call to call. -/
def yieldedIn : List YieldCall → Finset (BitVec 256) → List Yielded
  | [], _ => []
  | call :: calls, toSkip => (call.run toSkip).txs ++ yieldedIn calls (call.run toSkip).toSkip

theorem YieldCall.run_yields (call : YieldCall) (toSkip : Finset (BitVec 256)) :
    Yields call.r call.n (call.best ++ call.best)
      ⟨[], call.availableGas, call.availableBlobGas, toSkip, []⟩ (call.run toSkip)
      (call.run toSkip).txs := by
  have hSome : ∃ added, Yields call.r call.n (call.best ++ call.best)
      ⟨[], call.availableGas, call.availableBlobGas, toSkip, []⟩ (call.run toSkip) added := by
    rcases @bestRead_yields call.r call.n true call.best 0
      ⟨[], call.availableGas, call.availableBlobGas, toSkip, []⟩ with ⟨priority, hFirst, -⟩
    rcases bestRead_yields call.best 0 _ with ⟨others, hSecond, -⟩
    simp only [YieldCall.run, Reader.bestForXLayer]
    split_ifs
    · exact ⟨[], .nothing⟩
    · exact ⟨_, hFirst.append .nothing⟩
    · exact ⟨_, hFirst.append hSecond⟩
  rcases hSome with ⟨added, hYields⟩
  have hTxs : (call.run toSkip).txs = added := hYields.txs
  rwa [hTxs]

/- No transaction is yielded twice in a batch, whatever the pool becomes between the calls. -/
theorem batch_yields_once (calls : List YieldCall) (toSkip : Finset (BitVec 256)) :
    ((yieldedIn calls toSkip).map fun y => y.mt.idHash).Nodup ∧
      ∀ y ∈ yieldedIn calls toSkip, y.mt.idHash ∉ toSkip := by
  induction calls generalizing toSkip with
  | nil => simp [yieldedIn]
  | cons call calls ih =>
    have hHere := call.run_yields toSkip
    rcases ih (call.run toSkip).toSkip with ⟨hDistinct, hFresh⟩
    rw [yieldedIn, List.map_append, List.nodup_append]
    refine ⟨⟨hHere.distinct, hDistinct, ?_⟩, ?_⟩
    · simp only [List.mem_map]
      rintro _ ⟨y, hy, rfl⟩ _ ⟨z, hz, rfl⟩ hSame
      exact hFresh z hz (hSame ▸ hHere.skipped y hy)
    · refine List.forall_mem_append.mpr ⟨hHere.fresh, ?_⟩
      intro y hy hOld
      exact hFresh y hy (hHere.kept hOld)

end XLayerErigon.TxPool
