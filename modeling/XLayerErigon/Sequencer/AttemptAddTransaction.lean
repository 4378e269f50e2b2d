import XLayerErigon.Core.Applied
import XLayerErigon.State.Ready
import XLayerErigon.Sequencer.ExtractTransactions

/-
  Adding a transaction to the block that is being built.

  The transaction is executed on the accounts of the block. It may then be rejected, and only some
  of the ways out undo what it did: one that fails before it is run keeps the gas it bought, and
  no way out gives the gas back to the pool of the block.

  Main results:
    * `attempt_failed`
    * `attempt_refused`
    * `attempt_accepted`
-/

namespace XLayerErigon.Sequencer

open XLayerErigon.Core State IntraBlockState

-- Bridge events

/- The Keccak hash of the event's signature. -/
def bridgeEventSignature : Hash :=
  0x501781209a1f8899323b96b4ef08b168df93e0a90c673d1e4cce39366cb62f9b

structure BridgeInterceptConfig where
  bridgeContractAddress : Address
  targetTokenAddress : Address
  maxBridgeAmount : Int
  whitelistEnabled : Bool
  whitelistAddresses : List Address

structure BridgeEventData where
  originAddress : Address
  amount : Nat

def parseBridgeEvent (logData : Bytes) (topics : List Hash) : Except Failure BridgeEventData :=
  if topics.head? ≠ some bridgeEventSignature then
    .error (.error "not a bridge event")
  else if logData.length < 256 then
    .error (.error "insufficient log data length")
  else
    .ok {
      originAddress := BitVec.ofNat 160 (Bytes.toNat ((logData.drop 76).take 20))
      amount := Bytes.toNat ((logData.drop 160).take 32) }

def validateBridgeEvent (event : BridgeEventData) (txSender : Address)
    (config : BridgeInterceptConfig) : Except Failure Unit :=
  if event.originAddress ≠ config.targetTokenAddress then
    .ok ()
  else if config.maxBridgeAmount < event.amount then
    .error (.error "bridge amount %s exceeds maximum %s for token %s")
  else if config.whitelistEnabled && !config.whitelistAddresses.contains txSender then
    .error (.error "sender %s not in whitelist for token %s")
  else .ok ()

/- What a valid event takes from the maximum. -/
def BridgeInterceptConfig.spend (config : BridgeInterceptConfig)
    (event : BridgeEventData) : BridgeInterceptConfig :=
  if event.originAddress = config.targetTokenAddress then
    { config with maxBridgeAmount := config.maxBridgeAmount - event.amount }
  else config

def bridgeEvent (config : BridgeInterceptConfig) (entry : Log) : Option BridgeEventData :=
  if entry.address ≠ config.bridgeContractAddress then none
  else (parseBridgeEvent entry.data entry.topics).toOption

/- The maximum goes down event by event.  What was taken before an event is refused stays taken. -/
def checkBridgeEventInReceipt (txSender : Address) :
    List Log → BridgeInterceptConfig → Except Failure Unit × BridgeInterceptConfig
  | [], config => (.ok (), config)
  | entry :: rest, config =>
      match bridgeEvent config entry with
      | none => checkBridgeEventInReceipt txSender rest config
      | some event =>
          match validateBridgeEvent event txSender config with
          | .error e =>
              (.error (e.wrap "bridge event validation failed"), config)
          | .ok _ =>
              checkBridgeEventInReceipt txSender rest (config.spend event)

/- Looking at an account may put it into memory. -/
def ibsOps : StateOps IntraBlockState where
  getBalance s a := (s.getBalance a, s.getStateObject a)
  getNonce s a := (s.getNonce a, s.getStateObject a)
  getCodeHash s a := (s.getCodeHash a, s.getStateObject a)
  getRefund s := s.refund
  addBalance s a amount := s.addBalance a amount
  subBalance s a amount := s.subBalance a amount
  setNonce s a nonce := s.setNonce a nonce

/- What the machine does with the accounts and the gas. -/
structure Execution (gas : Nat) where
  trace : Trace
  gasLeft : Nat
  gasLeft_le : gasLeft ≤ gas
  vmerr : Option String
  ret : Bytes

abbrev Machine := Message → IntraBlockState → (gas : Nat) → Execution gas

def Execution.run {gas : Nat} (e : Execution gas) (s : IntraBlockState) :
    Except Failure (EvmResult IntraBlockState gas) :=
  e.trace.run s >>= fun s' =>
  .ok ⟨s', e.gasLeft, e.gasLeft_le, e.vmerr, e.ret⟩

def Machine.evm (machine : Machine) (msg : Message) : Evm IntraBlockState where
  deploy s gas := (machine msg s gas).run s
  call s gas := (machine msg s gas).run s

-- The attempt

structure SequenceBlockCfg where
  isNormalcy : Bool
  dynamicBlockGasLimit : Uint64

structure Header where
  gasLimit : Uint64
  gasUsed : Uint64

/- What an attempt may change. -/
structure Building where
  ibs : IntraBlockState
  header : Header
  ethBlockGasPool : GasPool
  bridgeIntercept : BridgeInterceptConfig

/-
  What an attempt is given.  The last field is how the write of the percentage to the database
  ends.
-/
structure Attempt where
  env : Env
  transaction : Transaction
  effectiveGasPrice : BitVec 8
  machine : Machine
  txIndex : Nat
  written : Except Failure Unit

inductive OverflowType where
  | overflowNone
  | overflowCounters
  | overflowGas
deriving DecidableEq

structure Receipt where
  gasUsed : Nat
  cumulativeGasUsed : Uint64
  logs : List Log

abbrev Outcome := Except Failure (Option Receipt × OverflowType)

def overflows : Outcome := .ok (none, .overflowGas)

/- In normalcy the transactions of a block share one pool. Otherwise each has its own. -/
def gasPool (cfg : SequenceBlockCfg) (b : Building) : GasPool :=
  if cfg.isNormalcy then b.ethBlockGasPool
  else ⟨cfg.dynamicBlockGasLimit, 0⟩

/- The accounts when the execution starts. -/
def started (a : Attempt) (s : IntraBlockState) : IntraBlockState :=
  s.snapshot.init a.transaction.hash a.txIndex

def startWorld (cfg : SequenceBlockCfg) (a : Attempt) (b : Building) : World IntraBlockState :=
  ⟨started a b.ibs, gasPool cfg b⟩

def applied (cfg : SequenceBlockCfg) (a : Attempt) (b : Building) :
    XLayerErigon.Core.Result IntraBlockState ExecutionResult :=
  applyTransaction ibsOps a.env a.transaction a.effectiveGasPrice a.machine.evm (startWorld cfg a b)

def Building.after (b : Building) (cfg : SequenceBlockCfg) (w : World IntraBlockState) : Building :=
  { b with
    ibs := w.state
    ethBlockGasPool :=
      if cfg.isNormalcy then w.pool else b.ethBlockGasPool }

def txSender (a : Attempt) : Address := a.transaction.sender.toOption.getD 0

/- Why a transaction that was executed is rejected. -/
def refusal (cfg : SequenceBlockCfg) (a : Attempt) (b : Building) (gasUsed : Uint64)
    (logs : List Log) : Option Outcome × BridgeInterceptConfig :=
  if b.header.gasLimit < gasUsed then
    (some overflows, b.bridgeIntercept)
  else if cfg.dynamicBlockGasLimit < gasUsed then
    (some overflows, b.bridgeIntercept)
  else
    let checked := checkBridgeEventInReceipt (txSender a) logs b.bridgeIntercept
    match checked.1 with
    | .error e => (some (.error e), checked.2)
    | .ok _ => (none, checked.2)

/- Goes back to the snapshot; the pool stays as it is. -/
def Building.revert (b : Building) (snapshot : Nat) (outcome : Outcome) : Outcome × Building :=
  match b.ibs.revertToSnapshot snapshot with
  | .error e => (.error e, b)
  | .ok ibs => (outcome, { b with ibs := ibs })

/- The end of a transaction that is not rejected. -/
def Building.accept (b : Building) (a : Attempt) (receipt : Receipt) : Outcome × Building :=
  let used := { b with header := { b.header with gasUsed := receipt.cumulativeGasUsed } }
  match a.written with
  | .error e => (.error e, used)
  | .ok _ =>
    (.ok (some receipt, .overflowNone), { used with
      ibs := b.ibs.finalizeTx a.env.rules.isSpuriousDragon a.env.rules.isAura })

def receiptOf (a : Attempt) (b : Building) (result : ExecutionResult)
    (s : IntraBlockState) : Receipt where
  gasUsed := result.usedGas
  cumulativeGasUsed := b.header.gasUsed + BitVec.ofNat 64 result.usedGas
  logs := s.getLogs a.transaction.hash

def attemptAddTransaction (cfg : SequenceBlockCfg) (a : Attempt)
    (b : Building) : Outcome × Building :=
  let w := (applied cfg a b).2
  match (applied cfg a b).1 with
  | .error e =>
    (if e = errGasLimitReached then overflows else .error e, b.after cfg w)
  | .ok result =>
    let receipt := receiptOf a b result w.state
    let verdict := refusal cfg a b receipt.cumulativeGasUsed receipt.logs
    let after := { b.after cfg w with bridgeIntercept := verdict.2 }
    match verdict.1 with
    | some outcome => after.revert b.ibs.nextRevisionID outcome
    | none => after.accept a receipt

-- The ways out

section

variable {cfg : SequenceBlockCfg} {a : Attempt} {b : Building}

theorem attempt_failed {e : Failure} (hFailed : (applied cfg a b).1 = .error e) :
    attemptAddTransaction cfg a b =
      (if e = errGasLimitReached then overflows
        else .error e, b.after cfg (applied cfg a b).2) := by
  simp only [attemptAddTransaction, hFailed]

theorem attempt_refused {result : ExecutionResult} {receipt : Receipt} {outcome : Outcome}
    {config : BridgeInterceptConfig} (hOk : (applied cfg a b).1 = .ok result)
    (hReceipt : receiptOf a b result (applied cfg a b).2.state = receipt)
    (hRefused : refusal cfg a b receipt.cumulativeGasUsed receipt.logs = (some outcome, config)) :
    attemptAddTransaction cfg a b =
      { b.after cfg (applied cfg a b).2 with
        bridgeIntercept := config }.revert b.ibs.nextRevisionID outcome := by
  simp only [attemptAddTransaction, hOk, hReceipt, hRefused]

theorem attempt_accepted {result : ExecutionResult} {receipt : Receipt}
    {config : BridgeInterceptConfig} (hOk : (applied cfg a b).1 = .ok result)
    (hReceipt : receiptOf a b result (applied cfg a b).2.state = receipt)
    (hRefused : refusal cfg a b receipt.cumulativeGasUsed receipt.logs = (none, config)) :
    attemptAddTransaction cfg a b =
      { b.after cfg (applied cfg a b).2 with bridgeIntercept := config }.accept a receipt := by
  simp only [attemptAddTransaction, hOk, hReceipt, hRefused]

end

/- The gas is within both limits. -/
def fits (cfg : SequenceBlockCfg) (header : Header) (gasUsed : Uint64) : Bool :=
  !decide (header.gasLimit < gasUsed) && !decide (cfg.dynamicBlockGasLimit < gasUsed)

variable {cfg : SequenceBlockCfg} {a : Attempt} {b : Building} {gasUsed : Uint64} {logs : List Log}

theorem refusal_overflows (hOver : fits cfg b.header gasUsed = false) :
    refusal cfg a b gasUsed logs = (some overflows, b.bridgeIntercept) := by
  simp only [refusal]
  split
  · rfl
  · next hHeader =>
    rw [if_pos]
    simpa [fits, hHeader] using hOver

theorem refusal_intercepted {e : Failure} (hFits : fits cfg b.header gasUsed = true)
    (hCheck : (checkBridgeEventInReceipt (txSender a) logs b.bridgeIntercept).1 = .error e) :
    refusal cfg a b gasUsed logs =
      (some (.error e), (checkBridgeEventInReceipt (txSender a) logs b.bridgeIntercept).2) := by
  simp only [fits, Bool.and_eq_true, Bool.not_eq_true', decide_eq_false_iff_not] at hFits
  simp only [refusal, if_neg hFits.1, if_neg hFits.2, hCheck]

theorem refusal_none {u : Unit} (hFits : fits cfg b.header gasUsed = true)
    (hCheck : (checkBridgeEventInReceipt (txSender a) logs b.bridgeIntercept).1 = .ok u) :
    refusal cfg a b gasUsed logs =
      (none, (checkBridgeEventInReceipt (txSender a) logs b.bridgeIntercept).2) := by
  simp only [fits, Bool.and_eq_true, Bool.not_eq_true', decide_eq_false_iff_not] at hFits
  simp only [refusal, if_neg hFits.1, if_neg hFits.2, hCheck]

def Rejected (outcome : Outcome) : Prop := ∀ receipt, outcome ≠ .ok (some receipt, .overflowNone)

theorem rejected_overflows : Rejected overflows := by
  intro receipt hOk
  cases hOk

theorem rejected_error (e : Failure) : Rejected (.error e) := by
  intro receipt hOk
  cases hOk

theorem revert_rejected (b : Building) (snapshot : Nat) {outcome : Outcome}
    (hRejected : Rejected outcome) : Rejected (b.revert snapshot outcome).1 := by
  simp only [Building.revert]
  split
  · exact rejected_error _
  · exact hRejected

/- A block before all forks, without a base fee. -/
def plainEnv : Env where
  rules := ⟨false, false, false, false, false, false, false, false⟩
  coinbase := 2
  headerBaseFee := none
  blobGasPrice := none
  burntContract := none
  hasEip3860 := false
  statelessExec := false
  isServiceTransaction := none

end XLayerErigon.Sequencer
