import XLayerErigon.Sequencer.AttemptAddTransaction

/-
  What is left of the amount that may be bridged.

  Every valid event takes its amount from the maximum at once.  A transaction that is refused at a
  later event does not give back what its earlier events took.

  Main results:
    * `checkBridgeEventInReceipt_quota`
    * `Tried.quota_next`
    * `accounting_iff`
-/

namespace XLayerErigon.Sequencer

open XLayerErigon.Core State

-- One receipt

/- The part of an event that counts. -/
def targetAmount (config : BridgeInterceptConfig) (event : BridgeEventData) : Nat :=
  if event.originAddress = config.targetTokenAddress then event.amount else 0

/- The target tokens that the logs of a receipt bridge. -/
def bridged (config : BridgeInterceptConfig) (logs : List Log) : Nat :=
  ((logs.filterMap (bridgeEvent config)).map (targetAmount config)).sum

/- The target tokens of the events up to a refused one. -/
def passed (txSender : Address) :
    List Log → BridgeInterceptConfig → Nat
  | [], _ => 0
  | entry :: rest, config =>
      match bridgeEvent config entry with
      | none => passed txSender rest config
      | some event =>
          match validateBridgeEvent event txSender config with
          | .error _ => 0
          | .ok _ =>
              targetAmount config event + passed txSender rest (config.spend event)

def BridgeInterceptConfig.minus (config : BridgeInterceptConfig)
    (amount : Nat) : BridgeInterceptConfig :=
  { config with maxBridgeAmount := config.maxBridgeAmount - amount }

variable {config : BridgeInterceptConfig}

theorem minus_minus (config : BridgeInterceptConfig) (first second : Nat) :
    (config.minus first).minus second = config.minus (first + second) := by
  simp only [BridgeInterceptConfig.minus]
  congr 1
  omega

theorem spend_eq (config : BridgeInterceptConfig) (event : BridgeEventData) :
    config.spend event = config.minus (targetAmount config event) := by
  simp only [BridgeInterceptConfig.spend, targetAmount]
  split
  · rfl
  · simp [BridgeInterceptConfig.minus]

/- The addresses stay the same, so do the events. -/
theorem bridged_minus (config : BridgeInterceptConfig) (amount : Nat) (logs : List Log) :
    bridged (config.minus amount) logs = bridged config logs :=
  rfl

theorem bridged_cons_none {entry : Log} (hNone : bridgeEvent config entry = none)
    (rest : List Log) : bridged config (entry :: rest) = bridged config rest := by
  simp [bridged, hNone]

theorem bridged_cons_some {entry : Log} {event : BridgeEventData}
    (hSome : bridgeEvent config entry = some event) (rest : List Log) :
    bridged config (entry :: rest) = targetAmount config event + bridged config rest := by
  simp [bridged, hSome]

theorem checkBridgeEventInReceipt_quota (txSender : Address) (logs : List Log)
    (config : BridgeInterceptConfig) :
    (checkBridgeEventInReceipt txSender logs config).2 =
      config.minus (passed txSender logs config) := by
  fun_induction checkBridgeEventInReceipt txSender logs config with
  | case1 config => simp [passed, BridgeInterceptConfig.minus]
  | case2 entry rest config hEvent ih => rw [ih, passed, hEvent]
  | case3 entry rest config event hEvent e hValid =>
    simp [passed, hEvent, hValid, BridgeInterceptConfig.minus]
  | case4 entry rest config event hEvent u hValid ih =>
    simp only [passed, hEvent, hValid]
    rw [ih, spend_eq, minus_minus]

/- Without a refused event everything is counted. -/
theorem passed_of_ok {txSender : Address} {logs : List Log} {u : Unit}
    (hOk : (checkBridgeEventInReceipt txSender logs config).1 = .ok u) :
    passed txSender logs config = bridged config logs := by
  revert hOk
  fun_induction checkBridgeEventInReceipt txSender logs config with
  | case1 config => exact fun _ => rfl
  | case2 entry rest config hEvent ih =>
    intro hOk
    rw [passed, hEvent, bridged_cons_none hEvent]
    exact ih hOk
  | case3 => rintro ⟨⟩
  | case4 entry rest config event hEvent v hValid ih =>
    intro hOk
    simp only [passed, hEvent, hValid]
    rw [bridged_cons_some hEvent, ih hOk, spend_eq, bridged_minus]

theorem targetAmount_le {event : BridgeEventData} {txSender : Address} {u : Unit}
    (hValid : validateBridgeEvent event txSender config = .ok u)
    (hPositive : 0 ≤ config.maxBridgeAmount) :
    (targetAmount config event : Int) ≤ config.maxBridgeAmount := by
  simp only [targetAmount]
  split
  · next hTarget =>
    simp only [validateBridgeEvent, hTarget, ne_eq, not_true_eq_false, if_false] at hValid
    split at hValid
    · cases hValid
    · next hLess => omega
  · simpa using hPositive

/- Only what is there is taken. -/
theorem passed_le (txSender : Address) (logs : List Log) (hPositive : 0 ≤ config.maxBridgeAmount) :
    (passed txSender logs config : Int) ≤ config.maxBridgeAmount := by
  fun_induction passed txSender logs config with
  | case2 entry rest config hEvent ih => exact ih hPositive
  | case4 entry rest config event hEvent u hValid ih =>
    have hLe := targetAmount_le hValid hPositive
    rw [spend_eq] at ih ⊢
    simp only [BridgeInterceptConfig.minus] at ih ⊢
    omega
  | _ => exact hPositive

-- One attempt

/- An attempt on some block, whatever the maximum is then. -/
structure Tried where
  cfg : SequenceBlockCfg
  attempt : Attempt
  building : Building

namespace Tried

def onto (t : Tried) (config : BridgeInterceptConfig) : Building :=
  { t.building with bridgeIntercept := config }

def result (t : Tried) (config : BridgeInterceptConfig) : Outcome × Building :=
  attemptAddTransaction t.cfg t.attempt (t.onto config)

def next (config : BridgeInterceptConfig) (t : Tried) : BridgeInterceptConfig :=
  (t.result config).2.bridgeIntercept

/- The receipt of an execution within the limits. -/
def executed (t : Tried) (config : BridgeInterceptConfig) : Option Receipt :=
  ((applied t.cfg t.attempt (t.onto config)).1.toOption.map
    (fun result => receiptOf t.attempt (t.onto config) result
      (applied t.cfg t.attempt (t.onto config)).2.state)).filter
    (fun receipt => fits t.cfg t.building.header receipt.cumulativeGasUsed)

/- The target tokens of a transaction that is included. -/
def included (t : Tried) (config : BridgeInterceptConfig) : Nat :=
  match (t.result config).1 with
  | .ok (some receipt, .overflowNone) =>
    bridged config receipt.logs
  | _ => 0

/-
  The target tokens that are taken for a transaction that is not included: those before a refused
  event, or all of them if the percentage cannot be written.
-/
def leaked (t : Tried) (config : BridgeInterceptConfig) : Nat :=
  (t.executed config).elim 0 (fun receipt =>
    match (checkBridgeEventInReceipt (txSender t.attempt)
        receipt.logs config).1, t.attempt.written with
    | .error _, _ =>
      passed (txSender t.attempt) receipt.logs config
    | .ok _, .error _ => bridged config receipt.logs
    | .ok _, .ok _ => 0)

theorem minus_zero (config : BridgeInterceptConfig) : config.minus 0 = config := by
  simp [BridgeInterceptConfig.minus]

theorem revert_quota (b : Building) (snapshot : Nat) (outcome : Outcome) :
    (b.revert snapshot outcome).2.bridgeIntercept = b.bridgeIntercept := by
  simp only [Building.revert]
  split <;> rfl

theorem included_of_rejected {t : Tried} {config : BridgeInterceptConfig}
    (hRejected : Rejected (t.result config).1) : t.included config = 0 := by
  simp only [included]
  split
  · next receipt hOk => exact absurd hOk (hRejected receipt)
  · rfl

/-
  What is left after an attempt is what was there, minus what was included and what leaked, which
  are the amounts of events that were allowed.
-/
structure Accounted (t : Tried) (config : BridgeInterceptConfig) : Prop where
  next_eq : t.next config = config.minus (t.included config + t.leaked config)
  allowed : ∃ logs, t.included config + t.leaked config = passed (txSender t.attempt) logs config

section

variable {t : Tried} {config : BridgeInterceptConfig}

theorem accounted_nothing (hRejected : Rejected (t.result config).1)
    (hNone : t.executed config = none) (hSame : t.next config = config) : t.Accounted config := by
  have hNothing : t.included config + t.leaked config = 0 := by
    rw [included_of_rejected hRejected, leaked, hNone]
    rfl
  refine ⟨?_, [], hNothing⟩
  rw [hNothing, hSame, minus_zero]

/- An execution that fails takes nothing. -/
theorem accounted_failed {e : Failure}
    (hFailed : (applied t.cfg t.attempt (t.onto config)).1 = .error e) : t.Accounted config := by
  have hRejected : Rejected (t.result config).1 := by
    simp only [result, attempt_failed hFailed]
    split
    · exact rejected_overflows
    · exact rejected_error e
  have hNone : t.executed config = none := by simp [executed, hFailed, Except.toOption]
  have hSame : t.next config = config := by
    simp only [next, result, attempt_failed hFailed]
    rfl
  exact accounted_nothing hRejected hNone hSame

variable {r : ExecutionResult} {receipt : Receipt}
  (hOk : (applied t.cfg t.attempt (t.onto config)).1 = .ok r)
  (hReceipt : receiptOf t.attempt (t.onto config) r
    (applied t.cfg t.attempt (t.onto config)).2.state = receipt)
include hOk hReceipt

theorem accounted_overflow
    (hOver : fits t.cfg t.building.header receipt.cumulativeGasUsed = false) :
    t.Accounted config := by
  have hAttempt := attempt_refused hOk hReceipt (refusal_overflows hOver)
  have hRejected : Rejected (t.result config).1 := by
    rw [result, hAttempt]
    exact revert_rejected _ _ rejected_overflows
  have hNone : t.executed config = none := by simp [executed, hOk, Except.toOption, hReceipt, hOver]
  have hSame : t.next config = config := by
    rw [next, result, hAttempt, revert_quota]
    rfl
  exact accounted_nothing hRejected hNone hSame

/- A refused transaction leaks what its first events took. -/
theorem accounted_checked
    (hFits : fits t.cfg t.building.header receipt.cumulativeGasUsed = true) :
    t.Accounted config := by
  have hQuota := checkBridgeEventInReceipt_quota (txSender t.attempt) receipt.logs config
  have hSome : t.executed config = some receipt := by
    simp [executed, hOk, Except.toOption, hReceipt, hFits, Option.filter]
  cases hCheck : (checkBridgeEventInReceipt (txSender t.attempt) receipt.logs config).1 with
  | error e =>
    have hAttempt := attempt_refused hOk hReceipt (refusal_intercepted hFits hCheck)
    have hRejected : Rejected (t.result config).1 := by
      rw [result, hAttempt]
      exact revert_rejected _ _ (rejected_error e)
    have hTaken : t.included config + t.leaked config =
        passed (txSender t.attempt) receipt.logs config := by
      rw [included_of_rejected hRejected, leaked, hSome]
      simp [hCheck]
    refine ⟨?_, receipt.logs, hTaken⟩
    rw [hTaken, next, result, hAttempt, revert_quota]
    exact hQuota
  | ok u =>
    rw [passed_of_ok hCheck] at hQuota
    have hAttempt := attempt_accepted hOk hReceipt (refusal_none hFits hCheck)
    have hTaken : t.included config + t.leaked config = bridged config receipt.logs := by
      simp only [leaked, hSome, included, result, hAttempt, Building.accept, Option.elim_some,
        hCheck]
      cases t.attempt.written with
      | error e => simp
      | ok v => simp
    refine ⟨?_, receipt.logs, hTaken.trans (passed_of_ok hCheck).symm⟩
    rw [hTaken, next, result, hAttempt, Building.accept, ← hQuota]
    cases t.attempt.written with
    | error e => rfl
    | ok v => rfl

end

theorem accounted (t : Tried) (config : BridgeInterceptConfig) : t.Accounted config := by
  cases hApplied : (applied t.cfg t.attempt (t.onto config)).1 with
  | error e => exact accounted_failed hApplied
  | ok r =>
    cases hFits : fits t.cfg t.building.header
      (receiptOf t.attempt (t.onto config) r
        (applied t.cfg t.attempt (t.onto config)).2.state).cumulativeGasUsed with
    | false => exact accounted_overflow hApplied rfl hFits
    | true => exact accounted_checked hApplied rfl hFits

end Tried

-- Many attempts

def configAfter (config : BridgeInterceptConfig) (ts : List Tried) : BridgeInterceptConfig :=
  ts.foldl Tried.next config

/- The target tokens of all that were included. -/
def includedSum :
    BridgeInterceptConfig → List Tried → Nat
  | _, [] => 0
  | config, t :: rest =>
      t.included config + includedSum (t.next config) rest

def leakedSum :
    BridgeInterceptConfig → List Tried → Nat
  | _, [] => 0
  | config, t :: rest =>
      t.leaked config + leakedSum (t.next config) rest

variable (config : BridgeInterceptConfig)

theorem configAfter_eq (ts : List Tried) :
    configAfter config ts = config.minus (includedSum config ts + leakedSum config ts) := by
  induction ts generalizing config with
  | nil => exact (Tried.minus_zero config).symm
  | cons t rest ih =>
    simp only [configAfter, List.foldl_cons, includedSum, leakedSum]
    rw [← configAfter, ih]
    have hNext := (t.accounted config).next_eq
    generalize t.next config = after at hNext ⊢
    rw [hNext, minus_minus]
    congr 1
    omega

theorem leakedSum_eq_zero_iff (ts : List Tried) :
    leakedSum config ts = 0 ↔
      ∀ before t after, ts = before ++ t :: after → t.leaked (configAfter config before) = 0 := by
  induction ts generalizing config with
  | nil => simp [leakedSum]
  | cons t rest ih =>
    simp only [leakedSum, Nat.add_eq_zero_iff, ih]
    constructor
    · rintro ⟨hFirst, hRest⟩ before other after hSplit
      cases before with
      | nil =>
        simp only [List.nil_append, List.cons.injEq] at hSplit
        rw [← hSplit.1]
        exact hFirst
      | cons head before =>
        simp only [List.cons_append, List.cons.injEq] at hSplit
        rw [← hSplit.1]
        exact hRest before other after hSplit.2
    · intro hAll
      refine ⟨hAll [] t rest rfl, ?_⟩
      intro before other after hSplit
      exact hAll (t :: before) other after (by simp [hSplit])

/- One attempt never takes more than there is. -/
theorem next_nonneg (t : Tried) {config : BridgeInterceptConfig}
    (hPositive : 0 ≤ config.maxBridgeAmount) : 0 ≤ (t.next config).maxBridgeAmount := by
  have hAccounted := t.accounted config
  rcases hAccounted.allowed with ⟨logs, hTaken⟩
  have hLe := passed_le (txSender t.attempt) logs hPositive
  rw [hAccounted.next_eq, hTaken]
  simp only [BridgeInterceptConfig.minus]
  omega

theorem configAfter_nonneg (ts : List Tried) {config : BridgeInterceptConfig}
    (hPositive : 0 ≤ config.maxBridgeAmount) : 0 ≤ (configAfter config ts).maxBridgeAmount := by
  induction ts generalizing config with
  | nil => exact hPositive
  | cons t rest ih => exact ih (next_nonneg t hPositive)

/-
  After every attempt what is left is the first maximum minus the target tokens of what was
  included, and it is not negative.
-/
structure Accounting (config : BridgeInterceptConfig) (ts : List Tried) : Prop where
  exact : ∀ done, done <+: ts →
    (configAfter config done).maxBridgeAmount = config.maxBridgeAmount - includedSum config done
  nonneg : 0 ≤ config.maxBridgeAmount → ∀ done, done <+: ts →
    0 ≤ (configAfter config done).maxBridgeAmount

theorem leakedSum_append (first second : List Tried) :
    leakedSum config (first ++ second) =
      leakedSum config first + leakedSum (configAfter config first) second := by
  induction first generalizing config with
  | nil => simp [leakedSum, configAfter]
  | cons t rest ih =>
    simp only [List.cons_append, leakedSum, ih, configAfter, List.foldl_cons]
    omega

/-
  The accounts are right exactly if nothing leaks: what a refused transaction bridged before the
  refused event, and what a transaction bridged that is lost when its percentage is written, is
  nothing.
-/
theorem accounting_iff (config : BridgeInterceptConfig) (ts : List Tried) :
    Accounting config ts ↔
      ∀ before t after, ts = before ++ t :: after → t.leaked (configAfter config before) = 0 := by
  rw [← leakedSum_eq_zero_iff]
  constructor
  · intro hAccounting
    have hExact := hAccounting.exact ts (List.prefix_refl ts)
    rw [configAfter_eq] at hExact
    simp only [BridgeInterceptConfig.minus] at hExact
    omega
  · intro hNothing
    refine ⟨?_, ?_⟩
    · rintro done ⟨rest, rfl⟩
      rw [leakedSum_append] at hNothing
      rw [configAfter_eq]
      simp only [BridgeInterceptConfig.minus]
      omega
    · intro hPositive done _
      exact configAfter_nonneg done hPositive

/- An event that bridges an amount of the token zero. -/
def bridgeData (amount : Byte) : Bytes := List.replicate 191 0 ++ amount :: List.replicate 64 0

/- Two events, of which the second is too large. -/
def twoEvents : Trace := .step (.addLog 5 [bridgeEventSignature] (bridgeData 60))
    (.step (.addLog 5 [bridgeEventSignature] (bridgeData 50)) .done)

def twoEventsTried : Tried where
  cfg := ⟨false, 30000000⟩
  attempt := {
    env := plainEnv
    transaction := {
      kind := .legacy 0
      nonce := 0
      gas := 21000
      toAddress := some 5
      value := 0
      data := []
      sender := .ok 1
      hash := 7 }
    effectiveGasPrice := 255
    machine := fun _ _ _ => ⟨twoEvents, 0, Nat.zero_le _, none, []⟩
    txIndex := 0
    written := .ok () }
  building := {
    ibs := IntraBlockState.new ⟨fun _ => none, fun _ _ => 0, fun _ _ => []⟩
    header := ⟨30000000, 0⟩
    ethBlockGasPool := ⟨0, 0⟩
    bridgeIntercept := ⟨5, 0, 0, false, []⟩ }

set_option maxRecDepth 20000 in
/- The first event took 60 of 100, the second is 50. -/
theorem refused_transaction_spends :
    (twoEventsTried.result ⟨5, 0, 100, false, []⟩).1 =
      .error ((Failure.error
        "bridge amount %s exceeds maximum %s for token %s").wrap "bridge event validation failed") ∧
    twoEventsTried.included ⟨5, 0, 100, false, []⟩ = 0 ∧
    (twoEventsTried.next ⟨5, 0, 100, false, []⟩).maxBridgeAmount = 40 := by
  refine ⟨?_, ?_, ?_⟩
  · rfl
  · rfl
  · rfl

end XLayerErigon.Sequencer
