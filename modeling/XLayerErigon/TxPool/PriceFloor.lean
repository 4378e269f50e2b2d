import XLayerErigon.Core.Fees
import XLayerErigon.TxPool.ValidateTx

/-
  From the price in the pool to the price that is charged.

  The pool compares the whole price with its minimum.  The execution scales it with a percentage,
  and the product is cut to 256 bits before it is divided.

  Main results:
    * `scaled_exact_iff`
    * `priceFloor_iff`
-/

namespace XLayerErigon.TxPool

open XLayerErigon.Core State

def typeOf :
    TxKind → Byte
  | .legacy _ => 0
  | .accessList _ _ => 1
  | .dynamicFee _ _ _ => 2
  | .blob _ _ _ _ _ => 3

/- What the pool's parser reads of a transaction. -/
def slotOf (tx : Transaction) (senderID : Nat) (rlp : Bytes) : TxSlot where
  rlp := rlp
  value := tx.value
  tip := tx.kind.tip
  feeCap := tx.kind.feeCap
  senderID := senderID
  nonce := tx.nonce
  dataLen := tx.data.length
  dataNonZeroLen := nonZeroLen tx.data
  gas := tx.gas
  creation := tx.toAddress.isNone
  txType := typeOf tx.kind
  toAddress := tx.toAddress.getD 0

/-
  The price that is charged is the given share of the price, and at least that share of the pool's
  minimum.
-/
structure PriceFloor
    (p : Pool) (gasPrice : Uint256) (percentage : BitVec 8) (charged : Uint256) : Prop where
  exact : charged.toNat = gasPrice.toNat * (percentage.toNat + 1) / 256
  floor : p.minGasPrice * (percentage.toNat + 1) / 256 ≤ charged.toNat

/- A product that is cut is far from what it should be. -/
theorem scaled_exact_iff (price : Uint256) (percentage : BitVec 8) :
    (calculateEffectiveGas price percentage).toNat =
        price.toNat * (percentage.toNat + 1) / 256 ↔
      price.toNat * (percentage.toNat + 1) < 2 ^ 256 := by
  rw [toNat_calculateEffectiveGas]
  generalize price.toNat * (percentage.toNat + 1) = product
  constructor
  · intro hExact
    by_contra hLarge
    have hLess : product % 2 ^ 256 < 2 ^ 256 := Nat.mod_lt _ (by decide)
    omega
  · intro hFits
    rw [Nat.mod_eq_of_lt hFits]

theorem charged_eq {env : Env} {tx : Transaction} {gasPrice : Uint256} {percentage : BitVec 8}
    {msg : Message} (hLegacy : tx.kind = .legacy gasPrice)
    (hFork : env.rules.isForkID5Dragonfruit = true)
    (hContext : getTxContext env tx percentage = .ok msg) :
    msg.gasPrice = calculateEffectiveGas gasPrice percentage := by
  have hPrice := (getTxContext_eq_ok hContext).gasPrice
  rw [hPrice, hLegacy]
  simp [effective, hFork, TxKind.gasPrice]

theorem priceFloor_of_exact {p : Pool} {gasPrice : Uint256} {percentage : BitVec 8}
    {charged : Uint256} (hMinimum : p.minGasPrice ≤ gasPrice.toNat)
    (hExact : charged.toNat = gasPrice.toNat * (percentage.toNat + 1) / 256) :
    PriceFloor p gasPrice percentage charged := by
  refine ⟨hExact, ?_⟩
  rw [hExact]
  exact Nat.div_le_div_right (Nat.mul_le_mul_right _ hMinimum)

/- The floor holds exactly if the product of the price and the percentage fits into 256 bits. -/
theorem priceFloor_iff {σ : Type} {ops : StateOps σ} {p : Pool} {env : Env} {tx : Transaction}
    {gasPrice : Uint256} {senderID : Nat} {rlp : Bytes} {sender : Address} {percentage : BitVec 8}
    {evm : Message → Evm σ} {w w' : World σ} {r : ExecutionResult}
    (hLegacy : tx.kind = .legacy gasPrice)
    (hAccepted : p.validateTx (slotOf tx senderID rlp) sender = .ok none)
    (hPays : p.isFreeGasXLayer senderID (slotOf tx senderID rlp) = false)
    (hFork : env.rules.isForkID5Dragonfruit = true)
    (hApplied : applyTransaction ops env tx percentage evm w = (.ok r, w')) :
    (∀ msg, getTxContext env tx percentage = .ok msg →
      PriceFloor p gasPrice percentage msg.gasPrice) ↔
    gasPrice.toNat * (percentage.toNat + 1) < 2 ^ 256 := by
  have hMinimum : p.minGasPrice ≤ gasPrice.toNat := by
    have hChecked := Pool.check_eq_ok (Pool.validateTx_success hAccepted)
    simpa [slotOf, hLegacy, TxKind.feeCap] using hChecked.1 hPays
  simp only [applyTransaction] at hApplied
  rw [Result.bind_eq_ok] at hApplied
  rcases hApplied with ⟨msg, w1, hMsg, _⟩
  have hContext : getTxContext env tx percentage = .ok msg := (Prod.ext_iff.1 hMsg).1
  constructor
  · intro hFloor
    have hExact := (hFloor msg hContext).exact
    rw [charged_eq hLegacy hFork hContext] at hExact
    exact (scaled_exact_iff gasPrice percentage).1 hExact
  · intro hFits other hOther
    refine priceFloor_of_exact hMinimum ?_
    rw [charged_eq hLegacy hFork hOther]
    exact (scaled_exact_iff gasPrice percentage).2 hFits

-- A price that wraps around

/- Nothing is free, and the least price is one. -/
def samplePool : Pool where
  isShanghai := false
  isLondon := false
  txPoolRejectSmartContractDeployments := false
  gpCache := some ⟨none, 1⟩
  apolloCfg := none
  gasPriceMultiple := 1
  freeGasAddrs := fun _ => false
  freeGasInfo := fun _ => none
  dynamicBlockGasLimit := 0
  accountSlots := 16
  count := fun _ => 0
  senderID2Addr := fun _ => some 1
  info := fun _ => (0, 0)
  isActionAllowed := fun _ _ => .ok true

def londonOff : Env := { sampleEnv with
    rules := { sampleEnv.rules with
      isBerlin := false
      isLondon := false } }

def sampleLegacy (gasPrice : Uint256) : Transaction where
  kind := .legacy gasPrice
  nonce := 0
  gas := 21248
  toAddress := some 3
  value := 0
  data := []
  sender := .ok 1
  hash := 7

def legacyMsg (gasPrice tip : Uint256) : Message where
  sender := 1
  toAddress := some 3
  nonce := 0
  value := 0
  gas := 21248
  gasPrice := gasPrice
  feeCap := gasPrice
  tip := tip
  data := []
  accessList := none
  maxFeePerBlobGas := 0
  blobHashes := []
  checkNonce := true
  isFree := false

def richPool : Pool := { samplePool with info := fun _ => (0, 100000000) }

theorem priceFloor_iff_cheap :
    (∀ msg, getTxContext londonOff (sampleLegacy 10) 127 =
        .ok msg →
      PriceFloor richPool 10 127 msg.gasPrice) ↔
    (10 : Uint256).toNat * ((127 : BitVec 8).toNat + 1) < 2 ^ 256 := by
  have hLegacy : (sampleLegacy 10).kind = .legacy 10 := rfl
  have hAccepted : richPool.validateTx (slotOf (sampleLegacy 10) 0 []) 1 = .ok none := rfl
  have hApplied : ∃ r w', applyTransaction Ledger.ops
      londonOff (sampleLegacy 10) 127 (fun _ => sampleEvm) sampleWorld = (.ok r, w') := ⟨_, _, rfl⟩
  rcases hApplied with ⟨r, w', hApplied⟩
  exact priceFloor_iff hLegacy hAccepted rfl rfl hApplied

def hugePrice : Uint256 := BitVec.ofNat 256 (2 ^ 248)

/- The price is 2 ^ 248, which the pool takes for a cost of zero, and nothing is charged. -/
theorem wrapped_price_charged :
    samplePool.validateTx (slotOf (sampleLegacy hugePrice) 0 []) 1 = .ok none ∧
    samplePool.isFreeGasXLayer 0 (slotOf (sampleLegacy hugePrice) 0 []) = false ∧
    getTxContext londonOff (sampleLegacy hugePrice) 255 = .ok (legacyMsg 0 hugePrice) ∧
    (applyTransaction Ledger.ops londonOff
      (sampleLegacy hugePrice) 255 (fun _ => sampleEvm) sampleWorld).1 = .ok ⟨21248, none, []⟩ ∧
    hugePrice.toNat * ((255 : BitVec 8).toNat + 1) / 256 = 2 ^ 248 :=
  ⟨rfl, rfl, rfl, rfl, by decide⟩

end XLayerErigon.TxPool
