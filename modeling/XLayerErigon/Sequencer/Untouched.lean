import XLayerErigon.Sequencer.AttemptAddTransaction

/-
  What is left of a transaction that is rejected.

  The checks before the gas is bought only look at the sender.  A transaction that has too little
  gas for its data is rejected after the gas was bought, and nobody gives it back.  One that was
  executed is undone from the journal, but a pool that is shared stays without the gas.

  Main results:
    * `preCheck_error`
    * `applied_ran`
    * `untouched_iff`
    * `revert_after_attempts`
-/

namespace XLayerErigon.Sequencer

open XLayerErigon.Core State IntraBlockState

-- Only looking

/- Nothing happened but that an account was looked at. -/
structure Looked (a : Address) (w w' : World IntraBlockState) : Prop where
  state : w'.state = w.state ∨ w'.state = w.state.getStateObject a
  gas : w'.pool.gas = w.pool.gas

theorem Looked.refl (a : Address) (w : World IntraBlockState) : Looked a w w := ⟨.inl rfl, rfl⟩

theorem Looked.look {a : Address} {w w' : World IntraBlockState} (hLooked : Looked a w w') :
    Looked a w { w' with state := w'.state.getStateObject a } := by
  refine ⟨.inr ?_, hLooked.gas⟩
  rcases hLooked.state with hSame | hSame
  · simp only [hSame]
  · simp only [hSame, getStateObject_idem]

theorem Looked.bind {α β : Type} {a : Address} {w : World IntraBlockState}
    {r : XLayerErigon.Core.Result IntraBlockState α} {next : α → World IntraBlockState →
      XLayerErigon.Core.Result IntraBlockState β} (hFirst : Looked a w r.2)
    (hNext : ∀ v w', Looked a w w' → Looked a w (next v w').2) : Looked a w (r.bind next).2 := by
  rcases r with ⟨r, w'⟩
  cases r with
  | error e => exact hFirst
  | ok v => exact hNext v w' hFirst

/- A failure of the first part or of the second one. -/
theorem Looked.bind_error {α β : Type} {a : Address} {w w' : World IntraBlockState}
    {r : XLayerErigon.Core.Result IntraBlockState α}
    {next : α → World IntraBlockState → XLayerErigon.Core.Result IntraBlockState β} {e : Failure}
    (hError : r.bind next = (.error e, w')) (hFirst : Looked a w r.2)
    (hNext : ∀ v w1, Looked a w w1 → next v w1 = (.error e, w') → Looked a w w') :
    Looked a w w' := by
  rcases r with ⟨r, w1⟩
  cases r with
  | error e' =>
    cases hError
    exact hFirst
  | ok v => exact hNext v w1 hFirst hError

section

variable {env : Env} {msg : Message} {w w' : World IntraBlockState}

theorem looked_checkNonce (hLooked : Looked msg.sender w w') :
    Looked msg.sender w (checkNonce ibsOps msg w').2 := by
  simp only [checkNonce]
  split
  · refine Looked.bind hLooked.look ?_
    intro _ w1 h1
    refine Looked.bind h1 ?_
    intro _ w2 h2
    refine Looked.bind h2 ?_
    intro _ w3 h3
    exact h3.look
  · exact hLooked

theorem looked_checkEip1559TxGasFeeCap (hLooked : Looked msg.sender w w') :
    Looked msg.sender w (checkEip1559TxGasFeeCap env msg w').2 := by
  refine Looked.bind hLooked ?_
  exact fun _ _ h1 => h1

theorem looked_checkBlobPrice (hLooked : Looked msg.sender w w') :
    Looked msg.sender w (checkBlobPrice env msg w').2 := by
  simp only [checkBlobPrice]
  split
  · exact hLooked
  · refine Looked.bind hLooked ?_
    exact fun _ _ h1 => h1

theorem looked_subBlobGas (amount : Uint64) (hLooked : Looked msg.sender w w') :
    Looked msg.sender w (w'.subBlobGas amount).2 := by
  simp only [World.subBlobGas]
  split
  · exact hLooked
  · exact ⟨hLooked.state, hLooked.gas⟩

theorem looked_blobFee (hLooked : Looked msg.sender w w') :
    Looked msg.sender w (blobFee env msg w').2 := by
  simp only [blobFee]
  split
  · split
    · exact hLooked
    · refine Looked.bind hLooked ?_
      intro price w1 h1
      refine Looked.bind h1 ?_
      intro fee w2 h2
      refine Looked.bind (looked_subBlobGas _ h2) ?_
      exact fun _ _ h3 => h3
  · exact hLooked

theorem looked_buyGas {w1 : World IntraBlockState} {e : Failure} (hLooked : Looked msg.sender w w1)
    (hError : buyGas ibsOps env msg w1 = (.error e, w')) : Looked msg.sender w w' := by
  refine Looked.bind_error hError hLooked ?_
  intro gasVal w2 h2 hError
  refine Looked.bind_error hError (looked_blobFee h2) ?_
  intro blobGasVal w3 h3 hError
  refine Looked.bind_error hError h3 ?_
  intro want w4 h4 hError
  refine Looked.bind_error hError h4.look ?_
  intro _ w5 h5 hError
  simp only [World.subGas] at hError
  split at hError
  · cases hError
    exact h5
  · simp [Result.bind] at hError

/- A check that fails has only looked at the sender. -/
theorem preCheck_error {e : Failure} (hError : preCheck ibsOps env msg w = (.error e, w')) :
    Looked msg.sender w w' := by
  refine Looked.bind_error hError (looked_checkNonce (Looked.refl _ w)) ?_
  intro _ w1 h1 hError
  refine Looked.bind_error hError ?_ ?_
  · split
    · exact looked_checkEip1559TxGasFeeCap h1
    · exact h1
  intro _ w2 h2 hError
  refine Looked.bind_error hError ?_ ?_
  · split
    · exact looked_checkBlobPrice h2
    · exact h2
  intro _ w3 h3 hError
  exact looked_buyGas h3 hError

end

variable {a : Address} {msg : Message} {s : IntraBlockState} {w w' : World IntraBlockState}

theorem Looked.ready (hLooked : Looked a w w') (hReady : w.state.Ready) : w'.state.Ready := by
  rcases hLooked.state with hSame | hSame <;> rw [hSame]
  · exact hReady
  · exact hReady.getStateObject a

theorem Looked.object (hLooked : Looked a w w') (b : Address) :
    w'.state.object b = w.state.object b := by
  rcases hLooked.state with hSame | hSame <;> simp [hSame, object_getStateObject]

theorem Looked.logs (hLooked : Looked a w w') : w'.state.logs = w.state.logs := by
  rcases hLooked.state with hSame | hSame <;> simp [hSame, (local_getStateObject w.state a).logs]

theorem started_object (a : Attempt) (s : IntraBlockState) (address : Address) :
    (started a s).object address = s.object address := by
  rw [object_eq, object_eq]
  rfl

theorem ran_started (a : Attempt) (hReady : s.Ready) :
    Ran s.snapshot (started a s) where
  wellFormed := hReady.wellFormed
  restores := ⟨[], rfl, fun _ hBack => ⟨hBack.stateReader, hBack.refund, hBack.logs, hBack.account⟩⟩
  stateReader := rfl
  known := (ran_snapshot hReady.wellFormed hReady.known).known
  revisions := ⟨[], by simp [started, IntraBlockState.init]⟩
  nextRevisionID := Nat.le_refl _

theorem ready_started (a : Attempt) (hReady : s.Ready) : (started a s).Ready :=
  ⟨hReady.wellFormed, (ran_started a hReady).known, hReady.readable⟩

/- The accounts look as they did when the attempt started. -/
theorem sameAccounts_of_started {a : Attempt} {s s' : IntraBlockState}
    (hObject : ∀ address, s'.object address = (started a s).object address)
    (hLogs : s'.logs = (started a s).logs) : SameAccounts s s' := by
  refine sameAccounts_of_object ?_ hLogs
  intro address
  rw [hObject, started_object]

-- The gas is bought

theorem Holds.of_look {s s' : IntraBlockState} {balance : Uint256}
    (hHolds : Holds (s.getStateObject a) a balance s') : Holds s a balance s' := by
  have hObject := object_getStateObject s a a
  refine ⟨(local_getStateObject s a).trans hHolds.localTo, ?_⟩
  simpa [IntraBlockState.getNonce, IntraBlockState.getCode,
    IntraBlockState.getState, hObject] using hHolds.object

theorem getStateObject_checked (msg : Message) (s : IntraBlockState) :
    (checked ibsOps msg s).getStateObject msg.sender = s.getStateObject msg.sender := by
  simp only [checked]
  split
  · simp [ibsOps, getStateObject_idem]
  · rfl

/- The state after the sender was looked at and paid. -/
theorem bought_state {env : Env} (hBought : Bought ibsOps env msg w w') :
    ∃ gasVal blobGasVal : Uint256,
      gasVal.toNat = msg.gas.toNat * msg.gasPrice.toNat ∧ blobGasVal.toNat = blobCost env msg ∧
      w'.state = ((w.state.getStateObject
        msg.sender).subBalance msg.sender gasVal).subBalance msg.sender blobGasVal := by
  rcases hBought.state with ⟨gasVal, blobGasVal, hGas, hBlob, hState⟩
  refine ⟨gasVal, blobGasVal, hGas, hBlob, ?_⟩
  rw [hState]
  simp only [ibsOps]
  rw [← getStateObject_checked msg w.state]
  rfl

theorem ready_bought {env : Env} (hReady : w.state.Ready) (hBought : Bought ibsOps env msg w w') :
    w'.state.Ready := by
  rcases bought_state hBought with ⟨gasVal, blobVal, _, _, hEq⟩
  rw [hEq]
  exact ((hReady.getStateObject _).subBalance _ _).subBalance _ _

theorem ran_bought {env : Env} (hReady : w.state.Ready) (hBought : Bought ibsOps env msg w w') :
    Ran w.state w'.state := by
  rcases bought_state hBought with ⟨gasVal, blobVal, _, _, hEq⟩
  have hLooked := hReady.getStateObject msg.sender
  have hPaid := hLooked.subBalance msg.sender gasVal
  have hLook := step_getStateObject hReady.wellFormed (hReady.readable msg.sender)
  have hFirst := step_subBalance hLooked.wellFormed (hLooked.readable msg.sender) gasVal
  have hSecond := step_subBalance hPaid.wellFormed (hPaid.readable msg.sender) blobVal
  rw [hEq]
  exact ((hLook.trans hFirst).trans hSecond).ran hReady.known

theorem holds_bought {env : Env} (hReady : w.state.Ready) (hBought : Bought ibsOps env msg w w') :
    ∃ cost : Uint256, cost.toNat = purchase env msg % 2 ^ 256 ∧
      Holds w.state msg.sender (w.state.getBalance msg.sender - cost) w'.state := by
  rcases bought_state hBought with ⟨gasVal, blobVal, hGas, hBlob, hEq⟩
  have hLooked := hReady.getStateObject msg.sender
  have hFirst := holds_subBalance hLooked msg.sender gasVal
  have hSecond := holds_subBalance (hLooked.subBalance msg.sender gasVal) msg.sender blobVal
  refine ⟨gasVal + blobVal, ?_, ?_⟩
  · rw [BitVec.toNat_add, hGas, hBlob]
    rfl
  · have hHolds := Holds.of_look (hFirst.trans hSecond)
    rw [hFirst.getBalance] at hHolds
    have hBalance : (w.state.getStateObject
        msg.sender).getBalance msg.sender = w.state.getBalance msg.sender := by
      simp only [IntraBlockState.getBalance, object_getStateObject]
    rw [hBalance, BitVec.sub_sub] at hHolds
    rw [hEq]
    exact hHolds

/- The purchase cannot be seen only if it costs nothing. -/
theorem sub_eq_self_iff {balance cost : Uint256} {amount : Nat}
    (hCost : cost.toNat = amount % 2 ^ 256) : balance - cost = balance ↔ amount % 2 ^ 256 = 0 := by
  rw [← hCost, sub_eq_self, ← BitVec.toNat_inj]
  rfl

-- The execution

/- The accounts when the machine starts. -/
def startOf (msg : Message) (s : IntraBlockState) : IntraBlockState :=
  if msg.toAddress.isNone then s
  else (s.getStateObject msg.sender).setNonce msg.sender (s.getNonce msg.sender + 1)

/- The refund and the fees, as operations. -/
def closing (env : Env) (msg : Message) (gasLeft : Nat) (refund : Uint64) : Trace :=
  let remaining := remainingGas env msg gasLeft refund
  let used := msg.gas.toNat - remaining
  .step (.addBalance msg.sender (BitVec.ofNat 256 remaining * msg.gasPrice))
    (.step (.addBalance env.coinbase (BitVec.ofNat 256 used * effectiveTip env msg))
      ((burnt env msg).elim .done (fun address =>
        .step (.addBalance address (BitVec.ofNat 256 used * env.baseFee)) .done)))

/-
  No account is read while an amount waits for it, neither by the machine nor when the fees are
  paid.
-/
def CarefulExecution (a : Attempt) (msg : Message) (s : IntraBlockState) : Prop :=
  ∀ gas, gasChecks a.env msg = .ok gas →
    (a.machine msg (startOf msg s) gas).trace.Careful (startOf msg s) ∧
    ∀ s', (a.machine msg (startOf msg s) gas).trace.run (startOf msg s) = .ok s' →
      (closing a.env msg (a.machine msg (startOf msg s) gas).gasLeft s'.refund).Careful s'

theorem execute_eq (machine : Machine) (msg : Message) (gas : Nat) (s : IntraBlockState) :
    execute ibsOps msg (machine.evm msg) gas s =
      (machine msg (startOf msg s) gas).run (startOf msg s) := by
  simp only [execute, startOf]
  split <;> rfl

theorem closing_run (env : Env) (msg : Message) (gasLeft : Nat) (s : IntraBlockState) :
    (closing env msg gasLeft s.refund).run s = .ok (settled ibsOps env msg gasLeft s) := by
  simp only [closing, settled, Trace.run, Op.run, payFees]
  cases burnt env msg with
  | none => rfl
  | some address => rfl

theorem ran_startOf (msg : Message) (hReady : s.Ready) : Ran s (startOf msg s) := by
  simp only [startOf]
  split
  · exact (Step.refl hReady.wellFormed).ran hReady.known
  · have hLooked := hReady.getStateObject msg.sender
    have hLook := step_getStateObject hReady.wellFormed (hReady.readable msg.sender)
    have hNonce := step_setNonce hLooked.wellFormed (hLooked.readable msg.sender)
      (s.getNonce msg.sender + 1)
    exact (hLook.trans hNonce).ran hReady.known

/- A careful execution ends, and it can be undone from the state before. -/
theorem execute_ran {a : Attempt} {gas : Nat} (hReady : s.Ready)
    (hGas : gasChecks a.env msg = .ok gas) (hCareful : CarefulExecution a msg s) :
    ∃ result, execute ibsOps msg (a.machine.evm msg) gas s =
        .ok result ∧
      Ran s (settled ibsOps a.env msg result.gasLeft result.state) := by
  have hStart := ran_startOf msg hReady
  rcases hCareful gas hGas with ⟨hTrace, hClosing⟩
  rcases Trace.run_restores _ hStart.wellFormed hStart.known hTrace with ⟨s', hRun, hRan⟩
  rcases Trace.run_restores _ hRan.wellFormed hRan.known (hClosing s' hRun) with ⟨s'', hRun', hRan'⟩
  rw [closing_run] at hRun'
  cases hRun'
  refine ⟨⟨s',
    (a.machine msg (startOf msg s) gas).gasLeft, (a.machine msg (startOf msg s) gas).gasLeft_le,
    (a.machine msg (startOf msg s) gas).vmerr, (a.machine msg (startOf msg s) gas).ret⟩, ?_, ?_⟩
  · rw [execute_eq, Execution.run, hRun]
    rfl
  · exact (hStart.trans hRan).trans hRan'

def CarefulAttempt (cfg : SequenceBlockCfg) (a : Attempt) (b : Building) : Prop :=
  ∀ msg w, getTxContext a.env a.transaction a.effectiveGasPrice = .ok msg →
    preCheck ibsOps a.env msg (startWorld cfg a b) = (.ok (), w) → CarefulExecution a msg w.state

-- What the call leaves behind

/- Nothing can be seen of the transaction. -/
structure Untouched (cfg : SequenceBlockCfg) (b b' : Building) : Prop where
  accounts : SameAccounts b.ibs b'.ibs
  gasUsed : b'.header.gasUsed = b.header.gasUsed
  pool : cfg.isNormalcy = true → b'.ethBlockGasPool.gas = b.ethBlockGasPool.gas

/-
  If the gas is bought, it costs nothing or is undone with the execution, and nothing is taken
  from a shared pool.
-/
def Traceless (cfg : SequenceBlockCfg) (a : Attempt) (b : Building) : Prop :=
  ∀ msg, getTxContext a.env a.transaction a.effectiveGasPrice = .ok msg →
    (preCheck ibsOps a.env msg (startWorld cfg a b)).1 = .ok () →
    (∀ e, gasChecks a.env msg = .error e →
      purchase a.env msg % 2 ^ 256 = 0 ∧ (cfg.isNormalcy = true → msg.gas = 0)) ∧
    (∀ gas, gasChecks a.env msg = .ok gas → cfg.isNormalcy = false)

section

variable {cfg : SequenceBlockCfg} {a : Attempt} {b : Building}

variable {e : Failure} {msg : Message} {w : World IntraBlockState}

theorem applied_noContext
    (hContext : getTxContext a.env a.transaction a.effectiveGasPrice = .error e) :
    applied cfg a b = (.error e, startWorld cfg a b) := by
  simp [applied, applyTransaction, hContext, lift, Result.bind]

section

variable (hContext : getTxContext a.env a.transaction a.effectiveGasPrice = .ok msg)

include hContext

theorem applied_context :
    applied cfg a b = transitionDb ibsOps a.env msg (a.machine.evm msg) (startWorld cfg a b) := by
  simp [applied, applyTransaction, hContext, lift, Result.bind]

omit hContext in
theorem attempt_failed_building (hApplied : applied cfg a b = (.error e, w)) :
    (attemptAddTransaction cfg a b).2 = b.after cfg w := by
  have hFailed : (applied cfg a b).1 = .error e := by rw [hApplied]
  rw [attempt_failed hFailed, hApplied]

omit hContext in
theorem gasPool_normalcy (hNormalcy : cfg.isNormalcy = true) :
    gasPool cfg b = b.ethBlockGasPool := by
  simp [gasPool, hNormalcy]

/- A way out before the gas is bought. -/
omit hContext in
theorem untouched_looked {address : Address} (hApplied : applied cfg a b = (.error e, w))
    (hLooked : Looked address (startWorld cfg a b) w) :
    Untouched cfg b (attemptAddTransaction cfg a b).2 := by
  rw [attempt_failed_building hApplied]
  refine ⟨sameAccounts_of_started hLooked.object hLooked.logs, rfl, ?_⟩
  intro hNormalcy
  have hGas := hLooked.gas
  simp only [startWorld, gasPool_normalcy hNormalcy] at hGas
  simpa [Building.after, hNormalcy] using hGas

/- Too little gas is found out after it was bought. -/
theorem untouched_tooLittle_iff {u : Unit} (hReady : b.ibs.Ready)
    (hCheck : preCheck ibsOps a.env msg (startWorld cfg a b) = (.ok u, w))
    (hGas : gasChecks a.env msg = .error e) : Untouched cfg b (attemptAddTransaction cfg a b).2 ↔
      purchase a.env msg % 2 ^ 256 = 0 ∧ (cfg.isNormalcy = true → msg.gas = 0) := by
  have hBought := preCheck_eq_ok hCheck
  rcases holds_bought (ready_started a hReady) hBought with ⟨cost, hCost, hHolds⟩
  have hAccounts : SameAccounts b.ibs w.state ↔ purchase a.env msg % 2 ^ 256 = 0 := by
    have hStart : SameAccounts b.ibs (started a b.ibs) := sameAccounts_of_started (fun _ => rfl) rfl
    rw [← sub_eq_self_iff hCost, ← hHolds.sameAccounts_iff]
    exact ⟨hStart.symm.trans, hStart.trans⟩
  have hPool : cfg.isNormalcy = true → (w.pool.gas = b.ethBlockGasPool.gas ↔ msg.gas = 0) := by
    intro hNormalcy
    have hSum := hBought.pool
    simp only [startWorld, gasPool_normalcy hNormalcy] at hSum
    simp only [← BitVec.toNat_inj, BitVec.ofNat_eq_ofNat, BitVec.toNat_ofNat]
    omega
  have hApplied := (applied_context hContext).trans (transitionDb_tooLittle hCheck hGas)
  rw [attempt_failed_building hApplied, ← hAccounts]
  constructor
  · intro hUntouched
    refine ⟨hUntouched.accounts, ?_⟩
    intro hNormalcy
    refine (hPool hNormalcy).1 ?_
    simpa [Building.after, hNormalcy] using hUntouched.pool hNormalcy
  · rintro ⟨hSame, hZero⟩
    refine ⟨hSame, rfl, ?_⟩
    intro hNormalcy
    simpa [Building.after, hNormalcy] using (hPool hNormalcy).2 (hZero hNormalcy)

/- How a careful transaction with enough gas ends. -/
theorem applied_ran {u : Unit} {gas : Nat} (hReady : b.ibs.Ready)
    (hCareful : CarefulAttempt cfg a b)
    (hCheck : preCheck ibsOps a.env msg (startWorld cfg a b) = (.ok u, w))
    (hGas : gasChecks a.env msg = .ok gas) : ∃ result w', applied cfg a b = (.ok result, w') ∧
      Ran b.ibs.snapshot w'.state ∧ w'.pool.gas.toNat < (startWorld cfg a b).pool.gas.toNat := by
  have hBought := preCheck_eq_ok hCheck
  have hStarted := ready_started a hReady
  rcases execute_ran (ready_bought hStarted hBought) hGas (hCareful msg w hContext hCheck) with
    ⟨result, hRun, hRan⟩
  rcases transitionDb_done hCheck hGas hRun with ⟨remaining, _, hLess, hDone⟩
  rw [← applied_context hContext] at hDone
  refine ⟨_, _, hDone, ?_, ?_⟩
  · exact ((ran_started a hReady).trans (ran_bought hStarted hBought)).trans hRan
  · have hSum := hBought.pool
    have hFits := (startWorld cfg a b).pool.gas.isLt
    rw [BitVec.toNat_add, BitVec.toNat_ofNat]
    omega

/- Going back from the end of an execution. -/
omit hContext in
theorem revert_of_ran {b' : Building} (outcome : Outcome) (hReady : b.ibs.Ready)
    (hRan : Ran b.ibs.snapshot b'.ibs) :
    ∃ ibs, b'.revert b.ibs.nextRevisionID outcome = (outcome, { b' with ibs := ibs }) ∧
      Back b.ibs ibs ∧ ibs.Ready := by
  rcases revertToSnapshot_of_ran hReady.known hRan with ⟨ibs, hRevert, hBack, hRanBack⟩
  refine ⟨ibs, ?_, hBack, hBack.ready hReady hRanBack.known⟩
  simp [Building.revert, hRevert]

/- An executed transaction is accepted, or the accounts go back. -/
theorem executed_cases {u : Unit} {gas : Nat} (hReady : b.ibs.Ready)
    (hCareful : CarefulAttempt cfg a b) (hWritten : a.written = .ok ())
    (hCheck : preCheck ibsOps a.env msg (startWorld cfg a b) = (.ok u, w))
    (hGas : gasChecks a.env msg = .ok gas) : (¬ Rejected (attemptAddTransaction cfg a b).1 ∧
        (attemptAddTransaction cfg a b).2.ibs.Ready) ∨
      ∃ outcome w' config ibs, attemptAddTransaction cfg a b =
          (outcome, { b.after cfg w' with bridgeIntercept := config, ibs := ibs }) ∧
        Back b.ibs ibs ∧ ibs.Ready ∧
        w'.pool.gas.toNat < (startWorld cfg a b).pool.gas.toNat := by
  rcases applied_ran hContext hReady hCareful hCheck hGas with ⟨result, w', hApplied, hRan, hLess⟩
  have hOk : (applied cfg a b).1 = .ok result := by rw [hApplied]
  generalize hReceipt : receiptOf a b result (applied cfg a b).2.state = receipt
  rcases hVerdict : refusal cfg a b receipt.cumulativeGasUsed receipt.logs with
    ⟨_ | outcome, config⟩
  · left
    rw [attempt_accepted hOk hReceipt hVerdict, Building.accept, hWritten, hApplied]
    exact ⟨fun hRejected => hRejected receipt rfl, ready_finalizeTx hRan.wellFormed _ _⟩
  · right
    rw [attempt_refused hOk hReceipt hVerdict, hApplied]
    rcases @revert_of_ran b { b.after cfg w' with bridgeIntercept := config } outcome hReady hRan
      with ⟨ibs, hRevert, hBack, hReadyBack⟩
    exact ⟨outcome, w', config, ibs, hRevert, hBack, hReadyBack, hLess⟩

theorem untouched_executed_iff {u : Unit} {gas : Nat} (hReady : b.ibs.Ready)
    (hCareful : CarefulAttempt cfg a b) (hWritten : a.written = .ok ())
    (hRejected : Rejected (attemptAddTransaction cfg a b).1)
    (hCheck : preCheck ibsOps a.env msg (startWorld cfg a b) = (.ok u, w))
    (hGas : gasChecks a.env msg = .ok gas) :
    Untouched cfg b (attemptAddTransaction cfg a b).2 ↔ cfg.isNormalcy = false := by
  rcases executed_cases hContext hReady hCareful hWritten hCheck hGas with
    ⟨hAccepted, -⟩ | ⟨outcome, w', config, ibs, hAttempt, hBack, -, hLess⟩
  · exact absurd hRejected hAccepted
  rw [hAttempt]
  constructor
  · intro hUntouched
    cases hNormalcy : cfg.isNormalcy with
    | false => rfl
    | true =>
      have hSame := hUntouched.pool hNormalcy
      simp only [startWorld, gasPool_normalcy hNormalcy] at hLess
      simp only [Building.after, hNormalcy, if_true] at hSame
      rw [hSame] at hLess
      exact absurd hLess (Nat.lt_irrefl _)
  · intro hOwn
    refine ⟨hBack.sameAccounts, rfl, fun hNormalcy => ?_⟩
    cases hOwn.symm.trans hNormalcy

end

end

/- The next transaction can read every account as well. -/
theorem ready_attemptAddTransaction {cfg : SequenceBlockCfg} {a : Attempt} {b : Building}
    (hReady : b.ibs.Ready) (hCareful : CarefulAttempt cfg a b) (hWritten : a.written = .ok ()) :
    (attemptAddTransaction cfg a b).2.ibs.Ready := by
  have hStarted := ready_started a hReady
  cases hContext : getTxContext a.env a.transaction a.effectiveGasPrice with
  | error e =>
    rw [attempt_failed_building (applied_noContext hContext)]
    exact hStarted
  | ok msg =>
  cases hCheck : preCheck ibsOps a.env msg (startWorld cfg a b) with
  | mk outcome w =>
  cases outcome with
  | error e =>
    have hApplied := (applied_context hContext).trans (transitionDb_unchecked hCheck)
    rw [attempt_failed_building hApplied]
    exact (preCheck_error hCheck).ready hStarted
  | ok u =>
  cases hGas : gasChecks a.env msg with
  | error e =>
    have hApplied := (applied_context hContext).trans (transitionDb_tooLittle hCheck hGas)
    rw [attempt_failed_building hApplied]
    exact ready_bought hStarted (preCheck_eq_ok hCheck)
  | ok gas =>
    rcases executed_cases hContext hReady hCareful hWritten hCheck hGas with
      ⟨-, hAccepted⟩ | ⟨outcome, w', config, ibs, hAttempt, -, hBack, -⟩
    · exact hAccepted
    · rw [hAttempt]
      exact hBack

/- Attempts one after the other, each on what the one before left. -/
inductive Attempted (cfg : SequenceBlockCfg) (b : Building) : Building → Prop where
  | none : Attempted cfg b b
  | next {b' : Building} (a : Attempt) (hBefore : Attempted cfg b b')
      (hCareful : CarefulAttempt cfg a b') (hWritten : a.written = .ok ()) :
      Attempted cfg b (attemptAddTransaction cfg a b').2

theorem Attempted.ready {cfg : SequenceBlockCfg} {b b' : Building} (hRun : Attempted cfg b b')
    (hReady : b.ibs.Ready) : b'.ibs.Ready := by
  induction hRun with
  | none => exact hReady
  | next a _ hCareful hWritten ih => exact ready_attemptAddTransaction ih hCareful hWritten

-- Gas that is not given back

def tooLittleGas : Attempt where
  env := plainEnv
  transaction := {
    kind := .legacy 1
    nonce := 0
    gas := 20000
    toAddress := some 5
    value := 0
    data := []
    sender := .ok 1
    hash := 7 }
  effectiveGasPrice := 255
  machine := fun _ _ _ => ⟨.done, 0, Nat.zero_le _, none, []⟩
  txIndex := 0
  written := .ok ()

def millionaires : Building where
  ibs := IntraBlockState.new
    ⟨fun _ => some ⟨0, 1000000, emptyCodeHash⟩, fun _ _ => 0, fun _ _ => []⟩
  header := ⟨30000000, 0⟩
  ethBlockGasPool := ⟨30000000, 0⟩
  bridgeIntercept := ⟨5, 0, 0, false, []⟩

theorem tooLittleGas_outcome : (attemptAddTransaction ⟨true, 30000000⟩ tooLittleGas
      millionaires).1 = .error (.error "intrinsic gas too low: have %d, want %d") := by
  rfl

theorem careful_tooLittleGas : CarefulAttempt ⟨true, 30000000⟩ tooLittleGas millionaires := by
  intro msg w hContext _ gas hGas
  have hMsg : getTxContext tooLittleGas.env
      tooLittleGas.transaction tooLittleGas.effectiveGasPrice = .ok msg := hContext
  have hLeast := gasChecks_eq_ok hGas
  have hPrices : msg.gas = 20000 := by
    cases hMsg
    rfl
  rw [hPrices] at hLeast
  simp at hLeast

end XLayerErigon.Sequencer
