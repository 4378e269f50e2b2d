import XLayerErigon.Core.Transition

/-
  What is known of a message that is applied.

  The checks only look at the sender.  Then the gas is bought: the sender pays for all of it, and
  the pool gives it away.  Nothing that fails later gives it back; only a message that is executed
  gets back what it did not use.

  Main results:
    * `preCheck_eq_ok`
    * `transitionDb_done`
    * `transitionDb_eq_ok`
-/

namespace XLayerErigon.Core

open State

def blobCost (env : Env) (msg : Message) : Nat :=
  if env.rules.isCancun then
    (env.blobGasPrice.elim 0 (fun price => price.toOption.elim 0 BitVec.toNat)) * msg.blobGas.toNat
  else 0

/- What is paid before the machine runs. -/
def purchase (env : Env) (msg : Message) : Nat :=
  msg.gas.toNat * msg.gasPrice.toNat + blobCost env msg

theorem toNat_setWidth_gas (gas : Uint64) : (gas.setWidth 256).toNat = gas.toNat := by
  have hLess := gas.isLt
  rw [BitVec.toNat_setWidth]
  exact Nat.mod_eq_of_lt (by omega)

theorem mulOverflow_eq_ok {x y z : Uint256} {e : Failure} (hOk : mulOverflow x y e = .ok z) :
    x.toNat * y.toNat < 2 ^ 256 ∧ z.toNat = x.toNat * y.toNat := by
  simp only [mulOverflow] at hOk
  split at hOk
  · next hFits =>
    cases hOk
    refine ⟨hFits, ?_⟩
    rw [BitVec.toNat_mul]
    exact Nat.mod_eq_of_lt hFits
  · cases hOk

section

variable {σ : Type} {ops : StateOps σ} {env : Env} {msg : Message} {w w' : World σ}

variable {u : Unit}

theorem blobFee_eq_ok {fee : Uint256} (hOk : blobFee env msg w = (.ok fee, w')) :
    fee.toNat = blobCost env msg ∧ w'.state = w.state ∧ w'.pool.gas = w.pool.gas := by
  simp only [blobFee] at hOk
  simp only [blobCost]
  split at hOk
  · next hCancun =>
    rw [if_pos hCancun]
    split at hOk
    · cases hOk
    · next price hPrice =>
      rw [Result.bind_eq_ok] at hOk
      rcases hOk with ⟨price', w1, hLift, hRest⟩
      cases hLift
      rw [Result.bind_eq_ok] at hRest
      rcases hRest with ⟨product, w2, hProduct, hRest⟩
      have hValue := (mulOverflow_eq_ok (Prod.ext_iff.1 hProduct).1).2
      have hSame : w = w2 := (Prod.ext_iff.1 hProduct).2
      rw [Result.bind_eq_ok] at hRest
      rcases hRest with ⟨_, w3, hPool, hDone⟩
      cases hDone
      rw [toNat_setWidth_gas] at hValue
      refine ⟨?_, ?_⟩
      · simp [hPrice, Except.toOption, hValue]
      · simp only [World.subBlobGas] at hPool
        split at hPool
        · cases hPool
        · cases hPool
          rw [hSame]
          exact ⟨rfl, rfl⟩
  · next hCancun =>
    cases hOk
    simp [hCancun]

theorem subGas_eq_ok {amount : Uint64} (hOk : w.subGas amount = (.ok u, w')) :
    w'.state = w.state ∧ w'.pool.gas.toNat + amount.toNat = w.pool.gas.toNat := by
  simp only [World.subGas] at hOk
  split at hOk
  · cases hOk
  · next hEnough =>
    cases hOk
    refine ⟨rfl, ?_⟩
    have hLe : amount.toNat ≤ w.pool.gas.toNat := by simpa [BitVec.lt_def] using hEnough
    simp only [BitVec.toNat_sub_of_le hLe]
    omega

/- The state after the sender's nonce was looked at. -/
def checked (ops : StateOps σ) (msg : Message) (state : σ) : σ :=
  if msg.checkNonce then
    (ops.getCodeHash (ops.getNonce state msg.sender).2 msg.sender).2
  else state

/- What is known once the gas is bought. -/
structure Bought (ops : StateOps σ) (env : Env) (msg : Message) (w w' : World σ) : Prop where
  tip_le : env.rules.isLondon = true → msg.tip.toNat ≤ msg.feeCap.toNat
  baseFee_le : env.rules.isLondon = true → msg.isFree = false → env.baseFee.toNat ≤ msg.feeCap.toNat
  price_fits : msg.gas.toNat * msg.gasPrice.toNat < 2 ^ 256
  cap_fits : msg.gas.toNat * msg.feeCap.toNat < 2 ^ 256
  pool : w'.pool.gas.toNat + msg.gas.toNat = w.pool.gas.toNat
  state : ∃ gasVal blobGasVal : Uint256,
    gasVal.toNat = msg.gas.toNat * msg.gasPrice.toNat ∧ blobGasVal.toNat = blobCost env msg ∧
    w'.state = ops.subBalance
      (ops.subBalance (ops.getBalance (checked ops msg w.state) msg.sender).2 msg.sender gasVal)
      msg.sender blobGasVal

theorem checkNonce_eq_ok (hOk : checkNonce ops msg w = (.ok u, w')) :
    w' = { w with state := checked ops msg w.state } := by
  simp only [checkNonce] at hOk
  simp only [checked]
  split at hOk
  · next hCheck =>
    rw [Result.bind_eq_ok] at hOk
    rcases hOk with ⟨_, w1, h1, hOk⟩
    rw [Result.bind_eq_ok] at hOk
    rcases hOk with ⟨_, w2, h2, hOk⟩
    rw [Result.bind_eq_ok] at hOk
    rcases hOk with ⟨_, w3, h3, hOk⟩
    rw [(reject_eq_ok hOk).2, (reject_eq_ok h3).2, (reject_eq_ok h2).2, (reject_eq_ok h1).2,
      if_pos hCheck]
  · next hCheck =>
    cases hOk
    rw [if_neg hCheck]

theorem checkBlobPrice_eq_ok (hOk : checkBlobPrice env msg w = (.ok u, w')) : w' = w := by
  simp only [checkBlobPrice] at hOk
  split at hOk
  · cases hOk
  · rw [Result.bind_eq_ok] at hOk
    rcases hOk with ⟨price, w1, hLift, hOk⟩
    rw [(reject_eq_ok hOk).2]
    exact (Prod.ext_iff.1 hLift).2.symm

theorem buyGas_eq_ok (hOk : buyGas ops env msg w = (.ok u, w')) :
    msg.gas.toNat * msg.gasPrice.toNat < 2 ^ 256 ∧
      msg.gas.toNat * msg.feeCap.toNat < 2 ^ 256 ∧
      w'.pool.gas.toNat + msg.gas.toNat = w.pool.gas.toNat ∧
      ∃ gasVal blobGasVal : Uint256,
        gasVal.toNat = msg.gas.toNat * msg.gasPrice.toNat ∧ blobGasVal.toNat = blobCost env msg ∧
        w'.state = ops.subBalance
          (ops.subBalance (ops.getBalance w.state msg.sender).2 msg.sender gasVal)
          msg.sender blobGasVal := by
  simp only [buyGas] at hOk
  rw [Result.bind_eq_ok] at hOk
  rcases hOk with ⟨gasVal, w1, hGas, hOk⟩
  rw [Result.bind_eq_ok] at hOk
  rcases hOk with ⟨blobGasVal, w2, hBlob, hOk⟩
  rw [Result.bind_eq_ok] at hOk
  rcases hOk with ⟨want, w3, hWant, hOk⟩
  rw [Result.bind_eq_ok] at hOk
  rcases hOk with ⟨_, w4, hFunds, hOk⟩
  rw [Result.bind_eq_ok] at hOk
  rcases hOk with ⟨_, w5, hPool, hDone⟩
  have hGasFits := mulOverflow_eq_ok (Prod.ext_iff.1 hGas).1
  rcases blobFee_eq_ok hBlob with ⟨hFee, hState2, hPool2⟩
  rcases except_bind_eq_ok (Prod.ext_iff.1 hWant).1 with ⟨fee, hCap, _⟩
  have hCapFits := mulOverflow_eq_ok hCap
  rw [toNat_setWidth_gas] at hGasFits hCapFits
  rcases subGas_eq_ok hPool with ⟨hState5, hPool5⟩
  have hState4 := (reject_eq_ok hFunds).2
  have hState3 : w2 = w3 := (Prod.ext_iff.1 hWant).2
  have hState1 : w = w1 := (Prod.ext_iff.1 hGas).2
  cases hDone
  refine ⟨hGasFits.1, hCapFits.1, ?_, gasVal, blobGasVal, hGasFits.2, hFee, ?_⟩
  · rw [hPool5, hState4, ← hState3, hPool2, ← hState1]
  · simp only
    rw [hState5, hState4, ← hState3, hState2, ← hState1]

theorem preCheck_eq_ok (hOk : preCheck ops env msg w = (.ok u, w')) : Bought ops env msg w w' := by
  simp only [preCheck] at hOk
  rw [Result.bind_eq_ok] at hOk
  rcases hOk with ⟨_, w1, hNonce, hOk⟩
  rw [Result.bind_eq_ok] at hOk
  rcases hOk with ⟨_, w2, hCaps, hOk⟩
  rw [Result.bind_eq_ok] at hOk
  rcases hOk with ⟨_, w3, hBlob, hBuy⟩
  have hState1 := checkNonce_eq_ok hNonce
  have hState3 : w3 = w2 := by
    split at hBlob
    · exact checkBlobPrice_eq_ok hBlob
    · cases hBlob
      rfl
  have hLondon : w2 = w1 ∧ (env.rules.isLondon = true →
      msg.tip.toNat ≤ msg.feeCap.toNat ∧
      (msg.isFree = false → env.baseFee.toNat ≤ msg.feeCap.toNat)) := by
    split at hCaps
    · simp only [checkEip1559TxGasFeeCap] at hCaps
      rw [Result.bind_eq_ok] at hCaps
      rcases hCaps with ⟨_, w4, hTip, hFee⟩
      rcases reject_eq_ok hTip with ⟨hTipLe, rfl⟩
      rcases reject_eq_ok hFee with ⟨hFeeLe, rfl⟩
      refine ⟨rfl, fun _ => ⟨?_, ?_⟩⟩
      · simpa [BitVec.lt_def] using hTipLe
      · intro hPays
        simpa [BitVec.lt_def, hPays] using hFeeLe
    · next hNot =>
      cases hCaps
      exact ⟨rfl, fun hLondon => absurd hLondon hNot⟩
  have hBought := buyGas_eq_ok hBuy
  rw [hState3, hLondon.1, hState1] at hBought
  exact ⟨fun h => (hLondon.2 h).1, fun h => (hLondon.2 h).2,
    hBought.1, hBought.2.1, hBought.2.2.1, hBought.2.2.2⟩

theorem gasChecks_eq_ok {gas : Nat} (hOk : gasChecks env msg = .ok gas) :
    gas + 21000 ≤ msg.gas.toNat := by
  simp only [gasChecks] at hOk
  split at hOk
  · cases hOk
  · next required hRequired =>
    have hLeast := le_intrinsicGas hRequired
    split at hOk
    · cases hOk
    · split at hOk
      · cases hOk
      · cases hOk
        omega

/- Not all the gas comes back. -/
theorem remainingGas_lt {gasLeft : Nat} (refund : Uint64)
    (hUsed : gasLeft + 21000 ≤ msg.gas.toNat) :
    remainingGas env msg gasLeft refund < msg.gas.toNat := by
  have hHalf : (msg.gas.toNat - gasLeft) / refundQuotient env ≤ (msg.gas.toNat - gasLeft) / 2 := by
    refine Nat.div_le_div_left ?_ (by omega)
    simp only [refundQuotient]
    split <;> omega
  have hMin := Nat.min_le_left ((msg.gas.toNat - gasLeft) / refundQuotient env) refund.toNat
  simp only [remainingGas]
  omega

-- How a message ends

variable {evm : Evm σ}

theorem transitionDb_unchecked {e : Failure} (hCheck : preCheck ops env msg w = (.error e, w')) :
    transitionDb ops env msg evm w = (.error e, w') := by
  simp [transitionDb, hCheck, Result.bind]

/- The gas is bought, and nothing is run. -/
theorem transitionDb_tooLittle {u : Unit} {e : Failure}
    (hCheck : preCheck ops env msg w = (.ok u, w')) (hGas : gasChecks env msg = .error e) :
    transitionDb ops env msg evm w = (.error e, w') := by
  simp [transitionDb, hCheck, hGas, Result.bind, lift]

def settled (ops : StateOps σ) (env : Env) (msg : Message) (gasLeft : Nat) (state : σ) : σ :=
  let remaining := remainingGas env msg gasLeft (ops.getRefund state)
  payFees ops env msg (msg.gas.toNat - remaining)
    (ops.addBalance state msg.sender (BitVec.ofNat 256 remaining * msg.gasPrice))

theorem transitionDb_done {u : Unit} {bought : World σ} {gas : Nat} {result : EvmResult σ gas}
    (hCheck : preCheck ops env msg w = (.ok u, bought)) (hGas : gasChecks env msg = .ok gas)
    (hRun : execute ops msg evm gas bought.state = .ok result) :
    ∃ remaining, remaining = remainingGas env msg result.gasLeft (ops.getRefund result.state) ∧
      remaining < msg.gas.toNat ∧
      transitionDb ops env msg evm w =
        (.ok ⟨msg.gas.toNat - remaining, result.vmerr,
            result.ret⟩,
          ⟨settled ops env msg result.gasLeft result.state,
            { bought.pool with gas := bought.pool.gas + BitVec.ofNat 64 remaining }⟩) := by
  have hLess : remainingGas env msg result.gasLeft
      (ops.getRefund result.state) < msg.gas.toNat := by
    have hLeft := result.gasLeft_le
    have hLeast := gasChecks_eq_ok hGas
    exact remainingGas_lt _ (by omega)
  -- The pool gets back less than it gave away.
  have hRoom : bought.pool.gas.toNat +
      remainingGas env msg result.gasLeft (ops.getRefund result.state) < 2 ^ 64 := by
    have hPool := (preCheck_eq_ok hCheck).pool
    have hFits := w.pool.gas.isLt
    omega
  refine ⟨_, rfl, hLess, ?_⟩
  simp only [transitionDb, hCheck, hGas, Result.bind, lift,
    hRun, refundGas, World.addGas, if_pos hRoom, settled]

theorem transitionDb_eq_ok {r : ExecutionResult}
    (hOk : transitionDb ops env msg evm w = (.ok r, w')) :
    ∃ bought gas result, Bought ops env msg w bought ∧
      gas + 21000 ≤ msg.gas.toNat ∧ execute ops msg evm gas bought.state = .ok result ∧
      r.usedGas + remainingGas env msg result.gasLeft (ops.getRefund result.state) = msg.gas.toNat ∧
      0 < r.usedGas ∧ w'.state = settled ops env msg result.gasLeft result.state := by
  cases hCheck : preCheck ops env msg w with
  | mk outcome bought =>
  cases outcome with
  | error e =>
    rw [transitionDb_unchecked hCheck] at hOk
    cases hOk
  | ok u =>
    cases hGas : gasChecks env msg with
    | error e =>
      rw [transitionDb_tooLittle hCheck hGas] at hOk
      cases hOk
    | ok gas =>
      cases hRun : execute ops msg evm gas bought.state with
      | error e => simp [transitionDb, hCheck, hGas, Result.bind, lift, hRun] at hOk
      | ok result =>
        rcases transitionDb_done hCheck hGas hRun with ⟨remaining, hEq, hLess, hDone⟩
        rw [hDone] at hOk
        cases hOk
        refine ⟨bought, gas, result, preCheck_eq_ok hCheck, gasChecks_eq_ok hGas, hRun, ?_, ?_, rfl⟩
        · rw [← hEq]
          exact Nat.sub_add_cancel hLess.le
        · exact Nat.sub_pos_of_lt hLess

end

end XLayerErigon.Core
