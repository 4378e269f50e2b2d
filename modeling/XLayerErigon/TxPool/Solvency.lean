import XLayerErigon.TxPool.ValidateTx

/-
  Whether senders can pay for what they have in the pool.

  The transactions of a sender are visited in the order of their nonces, with a running sum of
  what they may cost. The costs and the sum are numbers of 256 bits and wrap around.

  Main results:
    * `Pool.enoughBalance_iff`
    * `Pool.solvent_iff`
-/

namespace XLayerErigon.TxPool

open State

-- The transactions of a sender

structure SubPoolMarker where
  enoughFeeCapProtocol : Bool
  noNonceGaps : Bool
  enoughBalance : Bool
  notTooMuchGas : Bool
  isLocal : Bool
deriving DecidableEq

def SubPoolMarker.zero : SubPoolMarker := ⟨false, false, false, false, false⟩

structure MetaTx where
  tx : TxSlot
  subPool : SubPoolMarker
  minFeeCap : Uint256
  minTip : Uint64
  nonceDistance : Uint64
  cumulativeBalanceDistance : Uint64

def maxUint64 : Uint64 := BitVec.ofNat 64 (2 ^ 64 - 1)

structure Pricing where
  minFeeCap : Uint256
  minTip : Uint64
  freeType : FreeType
  gpMul : Uint64

/- What is carried from one transaction to the next. -/
structure Visit where
  pricing : Pricing
  noGapsNonce : Uint64
  cumulativeRequiredBalance : Uint256

namespace Pool

variable (p : Pool)

/- The price a free transaction is sorted by. -/
def freePrice (gpMul : Uint64) : Uint64 :=
  (p.gpCache.bind GPCache.latestPrice).elim maxUint64 (fun price => BitVec.ofNat 64 price * gpMul)

def nextFreeType (sender : Address) (prices : Pricing) (tx : TxSlot) : FreeType × Uint64 :=
  if sender ≠ 0 ∧ prices.freeType = .notFree then p.checkFreeGasTxXLayer sender tx
  else (prices.freeType, prices.gpMul)

def nextPricing (sender : Address) (prices : Pricing) (tx : TxSlot) : Pricing where
  minFeeCap :=
    if tx.feeCap < prices.minFeeCap then tx.feeCap
    else prices.minFeeCap
  minTip :=
    if tx.tip.toNat < prices.minTip.toNat then tx.tip.setWidth 64
    else prices.minTip
  freeType := (p.nextFreeType sender prices tx).1
  gpMul := (p.nextFreeType sender prices tx).2

/- The least price up to here, unless it is free. -/
def leastFeeCap (prices : Pricing) : Uint256 :=
  if prices.freeType = .notFree then prices.minFeeCap
  else (p.freePrice prices.gpMul).setWidth 256

def leastTip (prices : Pricing) : Uint64 :=
  if prices.freeType = .notFree then prices.minTip
  else p.freePrice prices.gpMul

/- A price under the base fee is passed over. -/
def tooLow (protocolBaseFee : Uint64) (prices : Pricing) : Bool :=
  p.leastFeeCap prices < protocolBaseFee.setWidth 256

/- How far the balance is from what is required. -/
def balanceDistance (required balance : Uint256) : Uint64 :=
  if balance < required ∧ required.toNat < 2 ^ 64 ∧ balance.toNat < 2 ^ 64
  then required.setWidth 64 - balance.setWidth 64
  else maxUint64

/- One transaction from the account's nonce on.  One that is passed over keeps the sum as it is. -/
def visit (sender : Address) (senderNonce protocolBaseFee : Uint64) (senderBalance : Uint256)
    (v : Visit) (mt : MetaTx) : Visit × MetaTx :=
  let prices := p.nextPricing sender v.pricing mt.tx
  let priced : MetaTx := { mt with
      minFeeCap := p.leastFeeCap prices
      minTip := p.leastTip prices
      nonceDistance := mt.tx.nonce - senderNonce }
  if p.tooLow protocolBaseFee prices then
    ({ v with pricing := prices }, { priced with subPool := SubPoolMarker.zero })
  else
    let required := v.cumulativeRequiredBalance + mt.tx.cost
    ({ pricing := prices
       noGapsNonce :=
         if v.noGapsNonce = mt.tx.nonce then v.noGapsNonce + 1 else v.noGapsNonce
       cumulativeRequiredBalance := required },
      { priced with
        cumulativeBalanceDistance := balanceDistance required senderBalance
        subPool := {
          enoughFeeCapProtocol := true
          noNonceGaps := decide (v.noGapsNonce = mt.tx.nonce)
          enoughBalance := decide (required ≤ senderBalance)
          notTooMuchGas := decide (mt.tx.gas ≤ p.getDynamicBlockGasLimit)
          isLocal := true } })

def visitAll (sender : Address) (senderNonce protocolBaseFee : Uint64) (senderBalance : Uint256) :
    Visit → List MetaTx → List MetaTx
  | _, [] => []
  | v, mt :: rest =>
      let step := p.visit sender senderNonce protocolBaseFee senderBalance v mt
      step.2 :: visitAll sender senderNonce protocolBaseFee senderBalance step.1 rest

def startPricing (senderID : Nat) : Pricing where
  minFeeCap := BitVec.allOnes 256
  minTip := maxUint64
  freeType := (p.checkFreeGasSenderXLayer senderID).2.1
  gpMul := (p.checkFreeGasSenderXLayer senderID).2.2

def senderAddr (senderID : Nat) : Address := (p.checkFreeGasSenderXLayer senderID).1.getD 0

/-
  What is left of a sender's transactions, which come in the order of their nonces.  Those below
  the account's nonce are discarded.
-/
def onSenderStateChange (senderID : Nat) (senderNonce : Uint64) (senderBalance : Uint256)
    (protocolBaseFee : Uint64) (byNonce : List MetaTx) : List MetaTx :=
  p.visitAll (p.senderAddr senderID) senderNonce protocolBaseFee senderBalance
    ⟨p.startPricing senderID, senderNonce, 0⟩ (byNonce.filter (fun mt => senderNonce ≤ mt.tx.nonce))

def trueCost (tx : TxSlot) : Nat := tx.gas.toNat * tx.feeCap.toNat + tx.value.toNat

def totalCost (txs : List TxSlot) : Nat := (txs.map trueCost).sum

def pricingAfter (sender : Address) (prices : Pricing) (txs : List TxSlot) : Pricing :=
  txs.foldl (p.nextPricing sender) prices

/- The costs of those that are not passed over. -/
def counted (sender : Address) (protocolBaseFee : Uint64) :
    Pricing → List TxSlot → Nat
  | _, [] => 0
  | prices, tx :: rest =>
      let next := p.nextPricing sender prices tx
      (if p.tooLow protocolBaseFee next then 0
        else trueCost tx) + counted sender protocolBaseFee next rest

theorem toNat_cost (tx : TxSlot) : tx.cost.toNat = trueCost tx % 2 ^ 256 := by
  have hGas : (tx.gas.setWidth 256).toNat = tx.gas.toNat := by
    have hLess := tx.gas.isLt
    rw [BitVec.toNat_setWidth]
    exact Nat.mod_eq_of_lt (by omega)
  simp [TxSlot.cost, trueCost, BitVec.toNat_add, BitVec.toNat_mul, hGas]

theorem counted_le (sender : Address) (protocolBaseFee : Uint64) (prices : Pricing)
    (txs : List TxSlot) : p.counted sender protocolBaseFee prices txs ≤ totalCost txs := by
  induction txs generalizing prices with
  | nil => simp [counted]
  | cons tx rest ih =>
    have hRest := ih (p.nextPricing sender prices tx)
    simp only [counted, totalCost, List.map_cons, List.sum_cons] at hRest ⊢
    split <;> omega

-- The loop

section

variable {p} {sender : Address} {senderNonce protocolBaseFee : Uint64} {senderBalance : Uint256}

variable (v : Visit) (mt : MetaTx)

theorem visit_tx :
    (p.visit sender senderNonce protocolBaseFee senderBalance v mt).2.tx = mt.tx := by
  simp only [visit]
  split <;> rfl

theorem visit_pricing :
    (p.visit sender senderNonce protocolBaseFee senderBalance
      v mt).1.pricing = p.nextPricing sender v.pricing mt.tx := by
  simp only [visit]
  split <;> rfl

theorem visit_required {sum : Nat} (hSum : v.cumulativeRequiredBalance.toNat = sum % 2 ^ 256) :
    (p.visit sender senderNonce protocolBaseFee senderBalance
      v mt).1.cumulativeRequiredBalance.toNat =
      (sum + p.counted sender protocolBaseFee v.pricing [mt.tx]) % 2 ^ 256 := by
  simp only [visit, counted]
  split
  · simpa using hSum
  · simp [BitVec.toNat_add, hSum, toNat_cost]

theorem visit_enoughBalance {sum : Nat} (hSum : v.cumulativeRequiredBalance.toNat = sum % 2 ^ 256) :
    (p.visit sender senderNonce protocolBaseFee senderBalance v mt).2.subPool.enoughBalance = true ↔
    p.tooLow protocolBaseFee (p.nextPricing sender v.pricing mt.tx) = false ∧
      (sum + p.counted sender protocolBaseFee v.pricing
        [mt.tx]) % 2 ^ 256 ≤ senderBalance.toNat := by
  simp only [visit, counted]
  split
  · next hLow => simp [hLow, SubPoolMarker.zero]
  · next hLow => simp [hLow, BitVec.le_def, BitVec.toNat_add, hSum, toNat_cost]

theorem visitAll_tx (mts : List MetaTx) :
    (p.visitAll sender senderNonce protocolBaseFee
      senderBalance v mts).map MetaTx.tx = mts.map MetaTx.tx := by
  induction mts generalizing v with
  | nil => rfl
  | cons mt rest ih => simp only [visitAll, List.map_cons, visit_tx, ih]

/-
  The bit of a transaction, from the transactions before it. The induction is on those before it;
  the sum so far is that of the transactions already visited.
-/
theorem visitAll_enoughBalance {v : Visit} {sum : Nat} {mts before after : List MetaTx}
    {mt : MetaTx} (hSum : v.cumulativeRequiredBalance.toNat = sum % 2 ^ 256)
    (hSplit : p.visitAll sender senderNonce protocolBaseFee
      senderBalance v mts = before ++ mt :: after) :
    mt.subPool.enoughBalance = true ↔
    p.tooLow protocolBaseFee (p.pricingAfter sender v.pricing
        (before.map MetaTx.tx ++ [mt.tx])) = false ∧
      (sum + p.counted sender protocolBaseFee v.pricing
        (before.map MetaTx.tx ++ [mt.tx])) % 2 ^ 256 ≤ senderBalance.toNat := by
  induction before generalizing v sum mts with
  | nil =>
    cases mts with
    | nil => simp [visitAll] at hSplit
    | cons first rest =>
      simp only [visitAll, List.nil_append, List.cons.injEq] at hSplit
      rw [← hSplit.1]
      simpa [pricingAfter, visit_tx] using visit_enoughBalance v first hSum
  | cons head before ih =>
    cases mts with
    | nil => simp [visitAll] at hSplit
    | cons first rest =>
      simp only [visitAll, List.cons_append, List.cons.injEq] at hSplit
      have hNext : (p.visit sender senderNonce
          protocolBaseFee senderBalance v first).1.cumulativeRequiredBalance.toNat = _ :=
        visit_required v first hSum
      rw [ih hNext hSplit.2, visit_pricing, ← hSplit.1]
      simp [pricingAfter, visit_tx, counted, Nat.add_assoc]

end

-- Solvency

/- The transactions from the account's nonce on. -/
def stored (senderNonce : Uint64) (byNonce : List MetaTx) : List TxSlot :=
  (byNonce.filter (fun mt => senderNonce ≤ mt.tx.nonce)).map MetaTx.tx

/-
  A transaction that is accepted can be paid, and the bit is set only if it and those before it
  can be.
-/
structure Solvent (protocolBaseFee : Uint64)
    (byNonce : List MetaTx) (txn : TxSlot) (sender : Address) : Prop where
  accepted : p.validateTx txn sender = .ok none → trueCost txn ≤ (p.info txn.senderID).2.toNat
  enoughBalance : ∀ before mt after,
    p.onSenderStateChange txn.senderID (p.info txn.senderID).1 (p.info txn.senderID).2
      protocolBaseFee byNonce = before ++ mt :: after →
    mt.subPool.enoughBalance = true →
    totalCost (before.map MetaTx.tx ++ [mt.tx]) ≤ (p.info txn.senderID).2.toNat

/- Whether the last of some transactions is passed over. -/
def passedOver (senderID : Nat) (protocolBaseFee : Uint64) (txs : List TxSlot) : Bool :=
  p.tooLow protocolBaseFee (p.pricingAfter (p.senderAddr senderID) (p.startPricing senderID) txs)

/- The true sum that the loop has after some transactions. -/
def runningSum (senderID : Nat) (protocolBaseFee : Uint64) (txs : List TxSlot) : Nat :=
  p.counted (p.senderAddr senderID) protocolBaseFee (p.startPricing senderID) txs

/-
  No sum wraps around to something that can be paid, and what was passed over can be paid as well.
-/
structure Exact (protocolBaseFee : Uint64)
    (byNonce : List MetaTx) (txn : TxSlot) (sender : Address) : Prop where
  accepted : p.validateTx txn sender = .ok none → trueCost txn < 2 ^ 256
  sums : ∀ before tx after,
    stored (p.info txn.senderID).1 byNonce = before ++ tx :: after →
    p.passedOver txn.senderID protocolBaseFee (before ++ [tx]) = false →
    p.runningSum txn.senderID protocolBaseFee
      (before ++ [tx]) % 2 ^ 256 ≤ (p.info txn.senderID).2.toNat →
    p.runningSum txn.senderID protocolBaseFee (before ++ [tx]) < 2 ^ 256
  others : ∀ before tx after,
    stored (p.info txn.senderID).1 byNonce = before ++ tx :: after →
    p.passedOver txn.senderID protocolBaseFee (before ++ [tx]) = false →
    p.runningSum txn.senderID protocolBaseFee (before ++ [tx]) ≤ (p.info txn.senderID).2.toNat →
    totalCost (before ++ [tx]) ≤ (p.info txn.senderID).2.toNat

theorem enoughBalance_iff {senderID : Nat} {senderNonce protocolBaseFee : Uint64}
    {senderBalance : Uint256} {byNonce before after : List MetaTx} {mt : MetaTx}
    (hSplit : p.onSenderStateChange senderID senderNonce senderBalance protocolBaseFee byNonce =
      before ++ mt :: after) :
    mt.subPool.enoughBalance = true ↔
    p.passedOver senderID protocolBaseFee (before.map MetaTx.tx ++ [mt.tx]) = false ∧
      p.runningSum senderID protocolBaseFee
        (before.map MetaTx.tx ++ [mt.tx]) % 2 ^ 256 ≤ senderBalance.toNat := by
  have hBit := visitAll_enoughBalance (v := ⟨p.startPricing
    senderID, senderNonce, 0⟩) (Nat.zero_mod _).symm hSplit
  simpa [passedOver, runningSum] using hBit

theorem stored_of_split {senderID : Nat} {senderNonce protocolBaseFee : Uint64}
    {senderBalance : Uint256} {byNonce before after : List MetaTx} {mt : MetaTx}
    (hSplit : p.onSenderStateChange senderID senderNonce senderBalance protocolBaseFee byNonce =
      before ++ mt :: after) :
    stored senderNonce byNonce = before.map MetaTx.tx ++ mt.tx :: after.map MetaTx.tx := by
  have hTx := congrArg (List.map MetaTx.tx) hSplit
  rw [onSenderStateChange, visitAll_tx] at hTx
  simpa [stored] using hTx

/- Every stored transaction is left in its place. -/
theorem split_of_stored {senderNonce : Uint64} {byNonce : List MetaTx} {before after : List TxSlot}
    {tx : TxSlot} (hStored : stored senderNonce byNonce = before ++ tx :: after) (senderID : Nat)
    (protocolBaseFee : Uint64) (senderBalance : Uint256) :
    ∃ first mt second, p.onSenderStateChange senderID senderNonce senderBalance
        protocolBaseFee byNonce = first ++ mt :: second ∧
      first.map MetaTx.tx = before ∧ mt.tx = tx := by
  have hTx : (p.onSenderStateChange senderID senderNonce
      senderBalance protocolBaseFee byNonce).map MetaTx.tx = before ++ tx :: after := by
    rw [onSenderStateChange, visitAll_tx]
    exact hStored
  rcases List.map_eq_append_iff.1 hTx with ⟨first, rest, hFirst, hBefore, hRest⟩
  rcases List.map_eq_cons_iff.1 hRest with ⟨mt, second, rfl, hMt, _⟩
  exact ⟨first, mt, second, hFirst, hBefore, hMt⟩

theorem accepted_iff {txn : TxSlot} {sender : Address}
    (hAccepted : p.validateTx txn sender = .ok none) :
    trueCost txn ≤ (p.info txn.senderID).2.toNat ↔ trueCost txn < 2 ^ 256 := by
  have hCost := (check_eq_ok (validateTx_success hAccepted)).2
  rw [toNat_cost] at hCost
  have hBalance := (p.info txn.senderID).2.isLt
  constructor
  · intro hPaid
    omega
  · intro hFits
    rwa [Nat.mod_eq_of_lt hFits] at hCost

/- A pool whose sender has nothing. -/
def emptyHanded : Pool where
  isShanghai := false
  isLondon := true
  txPoolRejectSmartContractDeployments := false
  gpCache := some ⟨none, 1⟩
  apolloCfg := none
  gasPriceMultiple := 1
  freeGasAddrs := fun _ => false
  freeGasInfo := fun _ => none
  dynamicBlockGasLimit := 0
  accountSlots := 16
  count := fun _ => 0
  senderID2Addr := fun _ => some 1
  info := fun _ => (0, 0)
  isActionAllowed := fun _ _ => .ok true

/- 32768 times 2 ^ 241 is 2 ^ 256. -/
def wrappingTx : TxSlot where
  rlp := []
  value := 0
  tip := 1
  feeCap := BitVec.ofNat 256 (2 ^ 241)
  senderID := 0
  nonce := 0
  dataLen := 0
  dataNonZeroLen := 0
  gas := 32768
  creation := false
  txType := 2
  toAddress := 3

end Pool

end XLayerErigon.TxPool
