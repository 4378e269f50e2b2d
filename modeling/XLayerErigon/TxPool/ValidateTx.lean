import XLayerErigon.Core.Transition
import XLayerErigon.Tx.L2TxHash

/-
  How the pool takes a transaction in.

  The pool compares the price of a transaction with its own minimum, unless the transaction is
  free, and its cost with the balance of its sender.  Both are numbers of 256 bits.

  Main results:
    * `TxPool.validateTx_success`
-/

namespace XLayerErigon.TxPool

open State

-- Transactions and the pool

/- The fields of a transaction that the pool looks at. -/
structure TxSlot where
  rlp : Bytes
  value : Uint256
  tip : Uint256
  feeCap : Uint256
  senderID : Nat
  nonce : Uint64
  dataLen : Nat
  dataNonZeroLen : Nat
  gas : Uint64
  creation : Bool
  txType : Byte
  toAddress : Address

/- What a transaction may cost, in 256 bits. -/
def TxSlot.cost (txn : TxSlot) : Uint256 := txn.gas.setWidth 256 * txn.feeCap + txn.value

/- Success is no reason. -/
inductive DiscardReason where
  | underPriced
  | spammer
  | gasUintOverflow
  | intrinsicGas
  | nonceTooLow
  | insufficientFunds
  | initCodeTooLarge
  | unsupportedTx
  | senderDisallowedSendTx
  | senderDisallowedDeploy
  | smartContractDeploymentDisabled
  | gasLimitTooHigh
  | receiverDisallowedReceiveTx
  | noWhiteListedSender
deriving DecidableEq

inductive FreeType where
  | notFree
  | claim
  | freeByNonce
  | specificProject
deriving DecidableEq

inductive Policy where
  | sendTx
  | deploy
deriving DecidableEq

def Policy.disallowed :
    Policy → DiscardReason
  | .sendTx => .senderDisallowedSendTx
  | .deploy => .senderDisallowedDeploy

/- A project whose transactions are free. -/
structure FreeGasInfo where
  toList : List Address
  methodSigs : List (List Char)
  gasPriceMultiple : Uint64

/- The answers of the configuration service. -/
structure ApolloConfig where
  checkBlockedAddr : Address → Bool
  enableWhitelist : Bool
  checkWhitelistAddr : Address → Bool
  checkFreeClaimAddr : Address → Bool
  enableFreeGasList : Bool

structure GPCache where
  latestPrice : Option Nat
  latestRawGP : Nat

/-
  What the pool knows.  The project of a sender is looked up in two maps, of which `freeGasInfo`
  is the composition.
-/
structure Pool where
  isShanghai : Bool
  isLondon : Bool
  txPoolRejectSmartContractDeployments : Bool
  gpCache : Option GPCache
  apolloCfg : Option ApolloConfig
  gasPriceMultiple : Uint64
  freeGasAddrs : Address → Bool
  freeGasInfo : Address → Option FreeGasInfo
  dynamicBlockGasLimit : Uint64
  accountSlots : Nat
  count : Nat → Nat
  senderID2Addr : Nat → Option Address
  info : Nat → Uint64 × Uint256
  isActionAllowed : Address → Policy → Except Failure Bool

namespace Pool

variable (p : Pool)

def containsMethod (data : List Char) (methods : List (List Char)) : Bool :=
  methods.any (fun m => decide (m <:+: data))

def checkFreeClaim (addr : Address) : Bool :=
  p.apolloCfg.elim false (fun apollo => apollo.checkFreeClaimAddr addr)

def checkFreeGasSenderXLayer (senderID : Nat) : Option Address × FreeType × Uint64 :=
  match p.senderID2Addr senderID with
  | none => (none, .notFree, 0)
  | some addr =>
    if p.checkFreeClaim addr then
      (some addr, .claim, p.gasPriceMultiple)
    else if p.freeGasAddrs addr then
      (some addr, .freeByNonce, 1)
    else (some addr, .notFree, 0)

def checkFreeGasTxXLayer (addr : Address) (tx : TxSlot) : FreeType × Uint64 :=
  if p.apolloCfg.elim false ApolloConfig.enableFreeGasList then
    match p.freeGasInfo addr with
    | none => (.notFree, 0)
    | some info =>
      if info.toList.contains tx.toAddress &&
          containsMethod (Tx.encodeToString tx.rlp) info.methodSigs
      then (.specificProject, info.gasPriceMultiple)
      else (.notFree, 0)
  else (.notFree, 0)

/- The zero address counts as no sender. -/
def checkFreeGasAddrXLayer (senderID : Nat) (tx : TxSlot) : FreeType × Uint64 :=
  let sender := p.checkFreeGasSenderXLayer senderID
  if sender.1.getD 0 = 0 then sender.2
  else if sender.2.1 ≠ .notFree then sender.2
  else p.checkFreeGasTxXLayer (sender.1.getD 0) tx

def isFreeGasXLayer (senderID : Nat) (tx : TxSlot) : Bool :=
  (p.checkFreeGasAddrXLayer senderID tx).1 ≠ .notFree

def defaultXLayerPrice : Nat := 1000000000

/- The least price, cut to 64 bits. -/
def minGasPrice : Nat := p.gpCache.elim defaultXLayerPrice GPCache.latestRawGP % 2 ^ 64

def transactionGasLimit : Uint64 := 30000000

def getDynamicBlockGasLimit : Uint64 :=
  if p.dynamicBlockGasLimit = 0 then transactionGasLimit
  else p.dynamicBlockGasLimit

def calcIntrinsicGas (dataLen dataNonZeroLen : Nat)
    (isContractCreation isHomestead isEIP2028 isShanghai : Bool) : Option Nat :=
  let gas :=
    if isContractCreation && isHomestead then 53000
    else 21000
  if 0 < dataLen then
    (Core.addItems gas dataNonZeroLen (if isEIP2028 then 16 else 68)).bind fun gas =>
    (Core.addItems gas ((2 ^ 64 + dataLen - dataNonZeroLen) % 2 ^ 64) 4).bind fun gas =>
    if isContractCreation && isShanghai then Core.addItems gas (Core.toWordSize dataLen) 2
    else some gas
  else some gas

-- Validation

def discardIf (bad : Bool) (reason : DiscardReason) : Except DiscardReason Unit :=
  if bad then .error reason else .ok ()

def checkIntrinsicGas (txn : TxSlot) : Except DiscardReason Unit :=
  match calcIntrinsicGas txn.dataLen txn.dataNonZeroLen txn.creation true true p.isShanghai with
  | none => .error .gasUintOverflow
  | some gas =>
    discardIf (txn.gas.toNat < gas) .intrinsicGas

def checkLists (txn : TxSlot) (sender : Address) : Except DiscardReason Unit :=
  p.apolloCfg.elim (.ok ()) fun apollo =>
  discardIf (apollo.checkBlockedAddr sender) .senderDisallowedSendTx >>= fun _ =>
  discardIf (!txn.creation && apollo.checkBlockedAddr txn.toAddress)
    .receiverDisallowedReceiveTx >>= fun _ =>
  discardIf (apollo.enableWhitelist && !apollo.checkWhitelistAddr sender) .noWhiteListedSender

/- The checks before the policies, in the source's order. -/
def check (txn : TxSlot) (sender : Address) : Except DiscardReason Unit :=
  discardIf (p.isShanghai && txn.creation && decide (Core.maxInitCodeSize < txn.dataLen))
    .initCodeTooLarge >>= fun _ =>
  discardIf (p.txPoolRejectSmartContractDeployments && decide (txn.toAddress = 0))
    .smartContractDeploymentDisabled >>= fun _ =>
  discardIf (!p.isLondon && decide (txn.txType = 2)) .unsupportedTx >>= fun _ =>
  discardIf (!p.isFreeGasXLayer txn.senderID txn && decide (txn.feeCap.toNat < p.minGasPrice))
    .underPriced >>= fun _ =>
  p.checkIntrinsicGas txn >>= fun _ =>
  discardIf (p.getDynamicBlockGasLimit < txn.gas) .gasLimitTooHigh >>= fun _ =>
  discardIf (p.accountSlots < p.count txn.senderID) .spammer >>= fun _ =>
  discardIf (txn.nonce < (p.info txn.senderID).1) .nonceTooLow >>= fun _ =>
  discardIf ((p.info txn.senderID).2 < txn.cost) .insufficientFunds >>= fun _ =>
  p.checkLists txn sender

def resolvePolicy (txn : TxSlot) : Policy :=
  if txn.creation then .deploy else .sendTx

/- A policy that cannot be read is a panic. -/
def validateTx (txn : TxSlot) (sender : Address) : Except Failure (Option DiscardReason) :=
  match p.check txn sender with
  | .error reason => .ok (some reason)
  | .ok _ =>
    match p.isActionAllowed sender (resolvePolicy txn) with
    | .error _ => .error .panic
    | .ok true => .ok none
    | .ok false => .ok (some (resolvePolicy txn).disallowed)

variable {next : Unit → Except DiscardReason Unit}

theorem discardIf_bind_eq_ok {bad : Bool} {reason : DiscardReason}
    (hOk : discardIf bad reason >>= next = .ok ()) : bad = false ∧ next () = .ok () := by
  cases bad with
  | false => exact ⟨rfl, hOk⟩
  | true => cases hOk

theorem except_bind_unit_eq_ok {r : Except DiscardReason Unit} (hOk : r >>= next = .ok ()) :
    next () = .ok () := by
  cases r with
  | ok u => exact hOk
  | error reason => cases hOk

/- The price and the cost of a transaction are checked. -/
theorem check_eq_ok {p : Pool} {txn : TxSlot} {sender : Address}
    (hOk : p.check txn sender = .ok ()) :
    (p.isFreeGasXLayer txn.senderID txn = false → p.minGasPrice ≤ txn.feeCap.toNat) ∧
    txn.cost.toNat ≤ (p.info txn.senderID).2.toNat := by
  rcases discardIf_bind_eq_ok hOk with ⟨_, hOk⟩
  rcases discardIf_bind_eq_ok hOk with ⟨_, hOk⟩
  rcases discardIf_bind_eq_ok hOk with ⟨_, hOk⟩
  rcases discardIf_bind_eq_ok hOk with ⟨hPrice, hOk⟩
  have hOk := except_bind_unit_eq_ok hOk
  rcases discardIf_bind_eq_ok hOk with ⟨_, hOk⟩
  rcases discardIf_bind_eq_ok hOk with ⟨_, hOk⟩
  rcases discardIf_bind_eq_ok hOk with ⟨_, hOk⟩
  rcases discardIf_bind_eq_ok hOk with ⟨hFunds, _⟩
  constructor
  · intro hPays
    simpa [hPays] using hPrice
  · simpa [BitVec.lt_def] using hFunds

theorem validateTx_success {p : Pool} {txn : TxSlot} {sender : Address}
    (hSuccess : p.validateTx txn sender = .ok none) : p.check txn sender = .ok () := by
  simp only [validateTx] at hSuccess
  split at hSuccess
  · cases hSuccess
  · next u hOk => exact hOk

end Pool

end XLayerErigon.TxPool
