import XLayerErigon.State.IntraBlockState

/-
  Applying one transaction.

  The message of a transaction carries three prices: the gas price the sender pays, the cap on it
  and the tip.  The gas is bought first, the machine runs, the rest of the gas is bought back, and
  what was used is paid to the coinbase and to the burnt contract.

  The accounts are used through an interface, as in the source; what is known of a state when a
  check fails is kept with the error.

  Main results:
    * `le_intrinsicGas`
-/

namespace XLayerErigon.Core

open State

-- Messages

structure Rules where
  isHomestead : Bool
  isSpuriousDragon : Bool
  isIstanbul : Bool
  isBerlin : Bool
  isLondon : Bool
  isCancun : Bool
  isAura : Bool
  isForkID5Dragonfruit : Bool

abbrev AccessList := List (Address × List Hash)

inductive TxKind where
  | legacy (gasPrice : Uint256)
  | accessList (gasPrice : Uint256) (list : AccessList)
  | dynamicFee (feeCap tip : Uint256) (list : AccessList)
  | blob (feeCap tip maxFeePerBlobGas : Uint256) (list : AccessList) (blobHashes : List Hash)

/- The sender is recovered from the signature. -/
structure Transaction where
  kind : TxKind
  nonce : Uint64
  gas : Uint64
  toAddress : Option Address
  value : Uint256
  data : Bytes
  sender : Except Failure Address
  hash : Hash

structure Message where
  sender : Address
  toAddress : Option Address
  nonce : Uint64
  value : Uint256
  gas : Uint64
  gasPrice : Uint256
  feeCap : Uint256
  tip : Uint256
  data : Bytes
  accessList : Option AccessList
  maxFeePerBlobGas : Uint256
  blobHashes : List Hash
  checkNonce : Bool
  isFree : Bool

/-
  What a block and its chain say.  The base fee of the header may be missing; the machine then
  uses zero.  The blob gas price is missing if the excess blob gas is.
-/
structure Env where
  rules : Rules
  coinbase : Address
  headerBaseFee : Option Uint256
  blobGasPrice : Option (Except Failure Uint256)
  burntContract : Option Address
  hasEip3860 : Bool
  statelessExec : Bool
  isServiceTransaction : Option (Address → Bool)

def Env.baseFee (env : Env) : Uint256 := env.headerBaseFee.getD 0

/- The share of a price that is really asked for. -/
def calculateEffectiveGas (gas : Uint256) (percentage : BitVec 8) : Uint256 :=
  gas * (percentage.setWidth 256 + 1) / 256

/- Base fee and tip, up to the cap. -/
def cappedPrice (baseFee : Option Uint256) (feeCap tip : Uint256) : Uint256 :=
  let price := baseFee.getD feeCap + tip
  if feeCap < price then feeCap else price

namespace TxKind

def gasPrice (baseFee : Option Uint256) :
    TxKind → Uint256
  | legacy gasPrice => gasPrice
  | accessList gasPrice _ => gasPrice
  | dynamicFee feeCap tip _ => cappedPrice baseFee feeCap tip
  | blob feeCap tip _ _ _ => cappedPrice baseFee feeCap tip

def feeCap :
    TxKind → Uint256
  | legacy gasPrice => gasPrice
  | accessList gasPrice _ => gasPrice
  | dynamicFee feeCap _ _ => feeCap
  | blob feeCap _ _ _ _ => feeCap

def tip :
    TxKind → Uint256
  | legacy gasPrice => gasPrice
  | accessList gasPrice _ => gasPrice
  | dynamicFee _ tip _ => tip
  | blob _ tip _ _ _ => tip

def list :
    TxKind → Option AccessList
  | legacy _ => none
  | accessList _ list => some list
  | dynamicFee _ _ list => some list
  | blob _ _ _ list _ => some list

def maxFeePerBlobGas :
    TxKind → Uint256
  | blob _ _ maxFeePerBlobGas _ _ => maxFeePerBlobGas
  | _ => 0

def blobHashes :
    TxKind → List Hash
  | blob _ _ _ _ blobHashes => blobHashes
  | _ => []

/- The fork that brought the kind has to be active. -/
def supported (rules : Rules) :
    TxKind → Except Failure Unit
  | legacy _ => .ok ()
  | accessList _ _ =>
      if rules.isBerlin then .ok ()
      else .error (.error "eip-2930 transactions require Berlin")
  | dynamicFee _ _ _ =>
      if rules.isLondon then .ok ()
      else .error (.error "eip-1559 transactions require London")
  | blob _ _ _ _ _ =>
      if rules.isCancun then .ok ()
      else .error (.error "BlobTx transactions require Cancun")

end TxKind

def Transaction.asMessage (tx : Transaction) (baseFee : Option Uint256)
    (rules : Rules) : Except Failure Message :=
  tx.kind.supported rules >>= fun _ =>
  tx.sender >>= fun sender =>
  .ok {
    sender := sender
    toAddress := tx.toAddress
    nonce := tx.nonce
    value := tx.value
    gas := tx.gas
    gasPrice := tx.kind.gasPrice baseFee
    feeCap := tx.kind.feeCap
    tip := tx.kind.tip
    data := tx.data
    accessList := tx.kind.list
    maxFeePerBlobGas := tx.kind.maxFeePerBlobGas
    blobHashes := tx.kind.blobHashes
    checkNonce := true
    isFree := false }

/- The tip keeps its value. -/
def Message.applyPercentage (msg : Message) (rules : Rules) (percentage : BitVec 8) : Message :=
  if rules.isForkID5Dragonfruit then
    { msg with
      gasPrice :=
        calculateEffectiveGas msg.gasPrice percentage
      feeCap := calculateEffectiveGas msg.feeCap percentage }
  else msg

/- Only transactions without a price may be free. -/
def Message.markFree (msg : Message) (isServiceTransaction : Option (Address → Bool)) :
    Message :=
  if msg.feeCap = 0 then
    isServiceTransaction.elim msg (fun isService => { msg with isFree := isService msg.sender })
  else msg

def getTxContext (env : Env) (tx : Transaction) (percentage : BitVec 8) : Except Failure Message :=
  tx.asMessage env.headerBaseFee env.rules >>= fun msg =>
  .ok (({ msg with checkNonce := !env.statelessExec }
    |>.applyPercentage env.rules percentage)
    |>.markFree env.isServiceTransaction)

def blobGasPerBlob : Nat := 0x20000

def Message.blobGas (msg : Message) : Uint64 :=
  BitVec.ofNat 64 (blobGasPerBlob * msg.blobHashes.length)

-- The gas pool and the state

structure GasPool where
  gas : Uint64
  blobGas : Uint64
deriving DecidableEq

def errGasLimitReached : Failure := .error "gas limit reached"

/- The part of the accounts' interface that is used here. -/
structure StateOps (σ : Type) where
  getBalance : σ → Address → Uint256 × σ
  getNonce : σ → Address → Uint64 × σ
  getCodeHash : σ → Address → Hash × σ
  getRefund : σ → Uint64
  addBalance : σ → Address → Uint256 → σ
  subBalance : σ → Address → Uint256 → σ
  setNonce : σ → Address → Uint64 → σ

structure World (σ : Type) where
  state : σ
  pool : GasPool

/- A failure keeps the world it left behind. -/
abbrev Result (σ α : Type) := Except Failure α × World σ

def Result.bind {σ α β : Type} (r : Result σ α) (next : α → World σ → Result σ β) : Result σ β :=
  match r with
  | (.ok value, w) => next value w
  | (.error e, w) => (.error e, w)

theorem Result.bind_eq_ok {σ α β : Type} {r : Result σ α} {next : α → World σ → Result σ β}
    {value : β} {w' : World σ} :
    r.bind next = (.ok value, w') ↔ ∃ a w, r = (.ok a, w) ∧ next a w = (.ok value, w') := by
  rcases r with ⟨r, w⟩
  cases r with
  | ok a =>
    constructor
    · exact fun hNext => ⟨a, w, rfl, hNext⟩
    · rintro ⟨a', w'', hEq, hNext⟩
      cases hEq
      exact hNext
  | error e => simp [Result.bind]

def reject {σ : Type} (bad : Bool) (e : Failure) (w : World σ) : Result σ Unit :=
  (if bad then .error e else .ok (), w)

theorem reject_eq_ok {σ : Type} {bad : Bool} {e : Failure} {w w' : World σ} {u : Unit}
    (hOk : reject bad e w = (.ok u, w')) : bad = false ∧ w' = w := by
  cases bad with
  | false =>
    simp only [reject, Prod.mk.injEq] at hOk
    exact ⟨rfl, hOk.2.symm⟩
  | true => simp [reject] at hOk

def World.subBlobGas {σ : Type} (w : World σ) (amount : Uint64) : Result σ Unit :=
  if w.pool.blobGas < amount then (.error (.error "blob gas limit reached"), w)
  else (.ok (), { w with pool := { w.pool with blobGas := w.pool.blobGas - amount } })

def World.subGas {σ : Type} (w : World σ) (amount : Uint64) : Result σ Unit :=
  if w.pool.gas < amount then (.error errGasLimitReached, w)
  else (.ok (), { w with pool := { w.pool with gas := w.pool.gas - amount } })

def World.addGas {σ : Type} (w : World σ) (amount : Nat) : Result σ Unit :=
  if w.pool.gas.toNat + amount < 2 ^ 64
  then (.ok (), { w with pool := { w.pool with gas := w.pool.gas + BitVec.ofNat 64 amount } })
  else (.error .panic, w)

-- Buying the gas

section

variable {σ : Type} (ops : StateOps σ) (env : Env) (msg : Message)

def insufficientFunds : Failure := .error "insufficient funds for gas * price + value: address %v"

def blobFeeOverflow : Failure :=
  .error "insufficient funds for gas * price + value: overflow converting blob gas: %v"

def noExcessBlobGas : Failure :=
  .error "internal failure: Cancun is active but ExcessBlobGas is nil"

def mulOverflow (x y : Uint256) (e : Failure) : Except Failure Uint256 :=
  if x.toNat * y.toNat < 2 ^ 256 then .ok (x * y)
  else .error e

def addOverflow (x y : Uint256) (e : Failure) : Except Failure Uint256 :=
  if x.toNat + y.toNat < 2 ^ 256 then .ok (x + y)
  else .error e

def lift {α : Type} (r : Except Failure α) (w : World σ) : Result σ α := (r, w)

/- What the blobs cost; nothing before Cancun. -/
def blobFee (w : World σ) : Result σ Uint256 :=
  if env.rules.isCancun then
    match env.blobGasPrice with
    | none => (.error noExcessBlobGas, w)
    | some price =>
      (lift price w).bind fun price w =>
      (lift (mulOverflow price (msg.blobGas.setWidth 256) blobFeeOverflow) w).bind fun fee w =>
      (w.subBlobGas msg.blobGas).bind fun _ w => (.ok fee, w)
  else (.ok 0, w)

/- The most a transaction may cost. -/
def balanceCheck : Except Failure Uint256 :=
  mulOverflow (msg.gas.setWidth 256) msg.feeCap insufficientFunds >>= fun fee =>
  addOverflow fee msg.value insufficientFunds >>= fun total =>
  if env.rules.isCancun then
    mulOverflow msg.maxFeePerBlobGas
      (msg.blobGas.setWidth 256) insufficientFunds >>= fun maxBlobFee =>
    addOverflow total maxBlobFee insufficientFunds
  else .ok total

def buyGas (w : World σ) : Result σ Unit :=
  (lift (mulOverflow (msg.gas.setWidth 256) msg.gasPrice insufficientFunds) w).bind fun gasVal w =>
  (blobFee env msg w).bind fun blobGasVal w =>
  (lift (balanceCheck env msg) w).bind fun want w =>
  let balance := ops.getBalance w.state msg.sender
  let w := { w with state := balance.2 }
  (reject (balance.1 < want) (.error
    "insufficient funds for gas * price + value: address %v have %v want %v") w).bind fun _ w =>
  (w.subGas msg.gas).bind fun _ w =>
  let state := ops.subBalance w.state msg.sender gasVal
  (.ok (), { w with state := ops.subBalance state msg.sender blobGasVal })

def checkNonce (w : World σ) : Result σ Unit :=
  if msg.checkNonce then
    let nonce := ops.getNonce w.state msg.sender
    let w := { w with state := nonce.2 }
    (reject (nonce.1 < msg.nonce) (.error
      "nonce too high: address %v, tx: %d state: %d") w).bind fun _ w =>
    (reject (msg.nonce < nonce.1) (.error
      "nonce too low: address %v, tx: %d state: %d") w).bind fun _ w =>
    (reject (nonce.1 + 1 < nonce.1) (.error
      "nonce has max value: address %v, nonce: %d") w).bind fun _ w =>
    let codeHash := ops.getCodeHash w.state msg.sender
    let w := { w with state := codeHash.2 }
    reject (codeHash.1 ≠ emptyCodeHash ∧ codeHash.1 ≠ 0)
      (.error "sender not an eoa: address %v, codehash: %s") w
  else (.ok (), w)

def checkEip1559TxGasFeeCap (w : World σ) : Result σ Unit := (reject (msg.feeCap < msg.tip) (.error
    "tip higher than fee cap: address %v, tip: %s, gasFeeCap: %s") w).bind fun _ w =>
  reject (msg.feeCap < env.baseFee ∧ ¬ msg.isFree)
    (.error "fee cap less than block base fee: address %v, gasFeeCap: %s baseFee: %s") w

def checkBlobPrice (w : World σ) : Result σ Unit :=
  match env.blobGasPrice with
  | none => (.error noExcessBlobGas, w)
  | some price =>
    (lift price w).bind fun price w =>
    reject (msg.maxFeePerBlobGas < price) (.error
      "max fee per blob gas too low: address %v, maxFeePerBlobGas: %v blobGasPrice: %v, excessBlobGas: %v")
      w

def preCheck (w : World σ) : Result σ Unit :=
  (checkNonce ops msg w).bind fun _ w =>
  (if env.rules.isLondon then checkEip1559TxGasFeeCap env msg w
    else (.ok (), w)).bind fun _ w =>
  (if 0 < msg.blobGas ∧ env.rules.isCancun then checkBlobPrice env msg w
    else (.ok (), w)).bind fun _ w =>
  buyGas ops env msg w

end

-- Intrinsic gas

def safeAdd (x y : Nat) : Option Nat :=
  if x + y < 2 ^ 64 then some (x + y) else none

def safeMul (x y : Nat) : Option Nat :=
  if x * y < 2 ^ 64 then some (x * y) else none

def addItems (gas items price : Nat) : Option Nat := (safeMul items price).bind (safeAdd gas)

def toWordSize (size : Nat) : Nat :=
  if 2 ^ 64 - 1 - 31 < size then (2 ^ 64 - 1) / 32 + 1
  else (size + 31) / 32

def nonZeroLen (data : Bytes) : Nat := (data.filter (fun byte => byte ≠ 0)).length

def storageKeys (accessList : AccessList) : Nat :=
  (accessList.map (fun tuple => tuple.2.length)).sum

def dataGas (data : Bytes) (isContractCreation isEIP2028 isEIP3860 : Bool)
    (gas : Nat) : Option Nat :=
  if data = [] then some gas
  else
    (addItems gas (nonZeroLen data) (if isEIP2028 then 16 else 68)).bind fun gas =>
    (addItems gas (data.length - nonZeroLen data) 4).bind fun gas =>
    if isContractCreation && isEIP3860 then addItems gas (toWordSize data.length) 2
    else some gas

def accessListGas (accessList : Option AccessList) (gas : Nat) : Option Nat :=
  accessList.elim (some gas) (fun accessList =>
    (addItems gas accessList.length 2400).bind fun gas =>
    addItems gas (storageKeys accessList) 1900)

def intrinsicGas (data : Bytes) (accessList : Option AccessList)
    (isContractCreation isHomestead isEIP2028 isEIP3860 : Bool) : Option Nat :=
  (dataGas data isContractCreation isEIP2028 isEIP3860
    (if isContractCreation && isHomestead then 53000
      else 21000)).bind (accessListGas accessList)

theorem le_of_addItems {gas items price total : Nat}
    (hAdd : addItems gas items price = some total) : gas ≤ total := by
  rcases Option.bind_eq_some_iff.1 hAdd with ⟨product, _, hSum⟩
  simp only [safeAdd] at hSum
  split at hSum
  · cases hSum
    exact Nat.le_add_right gas product
  · cases hSum

theorem le_of_dataGas {data : Bytes} {isContractCreation isEIP2028 isEIP3860 : Bool}
    {gas total : Nat}
    (hData : dataGas data isContractCreation isEIP2028 isEIP3860 gas = some total) :
    gas ≤ total := by
  simp only [dataGas] at hData
  split at hData
  · cases hData
    exact Nat.le_refl gas
  · rcases Option.bind_eq_some_iff.1 hData with ⟨first, hFirst, hRest⟩
    rcases Option.bind_eq_some_iff.1 hRest with ⟨second, hSecond, hLast⟩
    have hFirstLe := le_of_addItems hFirst
    have hSecondLe := le_of_addItems hSecond
    split at hLast
    · have hLastLe := le_of_addItems hLast
      omega
    · cases hLast
      omega

theorem le_of_accessListGas {accessList : Option AccessList} {gas total : Nat}
    (hList : accessListGas accessList gas = some total) : gas ≤ total := by
  cases accessList with
  | none =>
    cases hList
    exact Nat.le_refl gas
  | some accessList =>
    rcases Option.bind_eq_some_iff.1 hList with ⟨first, hFirst, hLast⟩
    exact (le_of_addItems hFirst).trans (le_of_addItems hLast)

/- No transaction is done for less than 21000 gas. -/
theorem le_intrinsicGas {data : Bytes} {accessList : Option AccessList}
    {isContractCreation isHomestead isEIP2028 isEIP3860 :
      Bool} {total : Nat}
    (hTotal : intrinsicGas data accessList isContractCreation
      isHomestead isEIP2028 isEIP3860 = some total) : 21000 ≤ total := by
  rcases Option.bind_eq_some_iff.1 hTotal with ⟨gas, hData, hList⟩
  have hDataLe := le_of_dataGas hData
  have hListLe := le_of_accessListGas hList
  split at hDataLe <;> omega

-- Running the machine

/- The machine never gives back more gas than it got. -/
structure EvmResult (σ : Type) (gas : Nat) where
  state : σ
  gasLeft : Nat
  gasLeft_le : gasLeft ≤ gas
  vmerr : Option String
  ret : Bytes

structure Evm (σ : Type) where
  deploy : σ → (gas : Nat) → Except Failure (EvmResult σ gas)
  call : σ → (gas : Nat) → Except Failure (EvmResult σ gas)

structure ExecutionResult where
  usedGas : Nat
  err : Option String
  returnData : Bytes

section

variable {σ : Type} (ops : StateOps σ) (env : Env) (msg : Message) (evm : Evm σ)

def maxInitCodeSize : Nat := 2 * 24576

/- The gas that has to be there before anything is run. -/
def requiredGas : Option Nat := intrinsicGas msg.data msg.accessList msg.toAddress.isNone
    env.rules.isHomestead env.rules.isIstanbul env.hasEip3860

/- The checks after the gas was bought. -/
def gasChecks : Except Failure Nat :=
  match requiredGas env msg with
  | none => .error (.error "gas uint64 overflow")
  | some required =>
    if msg.gas.toNat < required then
      .error (.error "intrinsic gas too low: have %d, want %d")
    else if env.hasEip3860 && msg.toAddress.isNone &&
        decide (maxInitCodeSize < msg.data.length) then
      .error (.error "max initcode size exceeded: code size %v limit %v")
    else .ok (msg.gas.toNat - required)

/- The sender's nonce is counted up here for calls only. -/
def execute (gas : Nat) (state : σ) : Except Failure (EvmResult σ gas) :=
  if msg.toAddress.isNone then evm.deploy state gas
  else
    let nonce := ops.getNonce state msg.sender
    evm.call (ops.setNonce nonce.2 msg.sender (nonce.1 + 1)) gas

def refundQuotient : Nat :=
  if env.rules.isLondon then 5 else 2

def remainingGas (gasLeft : Nat) (refund : Uint64) : Nat :=
  gasLeft + min ((msg.gas.toNat - gasLeft) / refundQuotient env) refund.toNat

def refundGas (gasLeft : Nat) (w : World σ) : Result σ Nat :=
  let remaining := remainingGas env msg gasLeft (ops.getRefund w.state)
  ({ w with
    state := ops.addBalance w.state msg.sender (BitVec.ofNat 256 remaining * msg.gasPrice) }.addGas
    remaining).bind fun _ w => (.ok remaining, w)

/- What the coinbase gets for each unit of gas. -/
def effectiveTip : Uint256 :=
  if env.rules.isLondon then
    if env.baseFee < msg.feeCap then
      if msg.tip < msg.feeCap - env.baseFee then msg.tip
      else msg.feeCap - env.baseFee
    else 0
  else msg.gasPrice

/- Who gets the base fee, if anybody does. -/
def burnt : Option Address :=
  if !msg.isFree && env.rules.isLondon then env.burntContract
  else none

def payFees (used : Nat) (state : σ) : σ :=
  let state := ops.addBalance state env.coinbase (BitVec.ofNat 256 used * effectiveTip env msg)
  (burnt env msg).elim state (fun address =>
    ops.addBalance state address (BitVec.ofNat 256 used * env.baseFee))

def transitionDb (w : World σ) : Result σ ExecutionResult :=
  (preCheck ops env msg w).bind fun _ w =>
  (lift (gasChecks env msg) w).bind fun gas w =>
  (lift (execute ops msg evm gas w.state) w).bind fun result w =>
  let w := { w with state := result.state }
  (refundGas ops env msg result.gasLeft w).bind fun remaining w =>
  let used := msg.gas.toNat - remaining
  (.ok ⟨used, result.vmerr, result.ret⟩, { w with state := payFees ops env msg used w.state })

/- The source's ApplyTransaction_zkevm, up to the receipt. The machine is given the message. -/
def applyTransaction (tx : Transaction) (percentage : BitVec 8) (evm : Message → Evm σ)
    (w : World σ) : Result σ ExecutionResult :=
  (lift (getTxContext env tx percentage) w).bind fun msg w => transitionDb ops env msg (evm msg) w

end

end XLayerErigon.Core
