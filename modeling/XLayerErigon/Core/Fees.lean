import Mathlib.Algebra.BigOperators.Group.Finset.Piecewise
import XLayerErigon.Core.Applied

/-
  Who pays and who gets the fees.

  The sender pays the gas price for the gas that is used.  The coinbase and the burnt contract are
  credited with amounts that are computed again, from the cap, the tip and the base fee.  The
  percentage of the block scales the gas price and the cap and leaves the tip as it is, so what is
  credited may be more than what was paid.

  Main results:
    * `credited_le_iff`
    * `conserves_iff`
-/

namespace XLayerErigon.Core

open State

-- A ledger

/- The accounts as the interface shows them. -/
structure Ledger where
  balance : Address → Uint256
  nonce : Address → Uint64
  codeHash : Address → Hash
  refund : Uint64

namespace Ledger

def setBalance (l : Ledger) (a : Address) (amount : Uint256) : Ledger :=
  { l with balance := Function.update l.balance a amount }

def ops : StateOps Ledger where
  getBalance l a := (l.balance a, l)
  getNonce l a := (l.nonce a, l)
  getCodeHash l a := (l.codeHash a, l)
  getRefund l := l.refund
  addBalance l a amount := l.setBalance a (l.balance a + amount)
  subBalance l a amount := l.setBalance a (l.balance a - amount)
  setNonce l a nonce := { l with nonce := Function.update l.nonce a nonce }

def total (l : Ledger) : Nat := ∑ i : Fin (2 ^ 160), (l.balance (BitVec.ofFin i)).toNat

theorem total_setBalance (l : Ledger) (a : Address) (amount : Uint256) :
    (l.setBalance a amount).total + (l.balance a).toNat = l.total + amount.toNat := by
  have hMem : a.toFin ∈ (Finset.univ : Finset (Fin (2 ^ 160))) := Finset.mem_univ _
  have hOther : ∀ i ∈ Finset.univ.erase a.toFin,
      ((l.setBalance a amount).balance (BitVec.ofFin i)).toNat =
      (l.balance (BitVec.ofFin i)).toNat := by
    intro i hErase
    have hNe : BitVec.ofFin i ≠ a := by
      rintro rfl
      simp at hErase
    simp [setBalance, hNe]
  have hAfter := Finset.add_sum_erase Finset.univ
    (fun i => ((l.setBalance a amount).balance (BitVec.ofFin i)).toNat) hMem
  have hBefore := Finset.add_sum_erase Finset.univ
    (fun i => (l.balance (BitVec.ofFin i)).toNat) hMem
  rw [Finset.sum_congr rfl hOther] at hAfter
  have hNew : ((l.setBalance a amount).balance (BitVec.ofFin a.toFin)).toNat = amount.toNat := by
    simp [setBalance]
  have hOld : (l.balance (BitVec.ofFin a.toFin)).toNat = (l.balance a).toNat := rfl
  simp only [total]
  simp only [hNew] at hAfter
  simp only [hOld] at hBefore
  omega

/- Adding may wrap around, which loses coins. -/
theorem total_addBalance (l : Ledger) (a : Address) (amount : Uint256) :
    (ops.addBalance l a amount).total ≤ l.total + amount.toNat := by
  have hTotal := l.total_setBalance a (l.balance a + amount)
  have hSum : (l.balance a + amount).toNat ≤ (l.balance a).toNat + amount.toNat := by
    rw [BitVec.toNat_add]
    exact Nat.mod_le _ _
  simp only [ops]
  omega

theorem total_subBalance (l : Ledger) (a : Address) (amount : Uint256)
    (hEnough : amount.toNat ≤ (l.balance a).toNat) :
    (ops.subBalance l a amount).total + amount.toNat = l.total := by
  have hTotal := l.total_setBalance a (l.balance a - amount)
  have hDifference : (l.balance a - amount).toNat = (l.balance a).toNat - amount.toNat :=
    BitVec.toNat_sub_of_le hEnough
  simp only [ops]
  omega

end Ledger

/- What the sender loses for the gas that was used. -/
def lost (msg : Message) (used : Nat) : Nat := used * msg.gasPrice.toNat

/- What the coinbase and the burnt contract are given. -/
def credited (env : Env) (msg : Message) (used : Nat) : Nat :=
  (BitVec.ofNat 256 used * effectiveTip env msg).toNat + (burnt env msg).elim 0 (fun _ =>
    (BitVec.ofNat 256 used * env.baseFee).toNat)

-- Prices

/- A price after the percentage was applied. -/
def effective (env : Env) (percentage : BitVec 8) (price : Uint256) : Uint256 :=
  if env.rules.isForkID5Dragonfruit then calculateEffectiveGas price percentage
  else price

/- The same without wrapping around. -/
def share (env : Env) (percentage : BitVec 8) (n : Nat) : Nat :=
  if env.rules.isForkID5Dragonfruit then n * (percentage.toNat + 1) / 256
  else n

variable {w w' : World Ledger} {tx : Transaction} {msg : Message} {env : Env}
  {percentage : BitVec 8}

theorem toNat_calculateEffectiveGas (price : Uint256) (percentage : BitVec 8) :
    (calculateEffectiveGas price percentage).toNat =
      price.toNat * (percentage.toNat + 1) % 2 ^ 256 / 256 := by
  have hLess := percentage.isLt
  have hScale : (percentage.setWidth 256 + 1).toNat = percentage.toNat + 1 := by
    rw [BitVec.toNat_add, BitVec.toNat_setWidth,
      Nat.mod_eq_of_lt (a := percentage.toNat) (by omega)]
    exact Nat.mod_eq_of_lt (by
      change percentage.toNat + 1 < _
      omega)
  rw [calculateEffectiveGas, BitVec.toNat_udiv, BitVec.toNat_mul, hScale]
  rfl

theorem effective_le_share (env : Env) (percentage : BitVec 8) (price : Uint256) :
    (effective env percentage price).toNat ≤ share env percentage price.toNat := by
  simp only [effective, share]
  split
  · rw [toNat_calculateEffectiveGas]
    exact Nat.div_le_div_right (Nat.mod_le _ _)
  · exact Nat.le_refl _

theorem effective_eq_share {price : Uint256} (hFits : price.toNat * 256 < 2 ^ 256) :
    (effective env percentage price).toNat = share env percentage price.toNat := by
  have hLess := percentage.isLt
  simp only [effective, share]
  split
  · rw [toNat_calculateEffectiveGas, Nat.mod_eq_of_lt]
    exact lt_of_le_of_lt (Nat.mul_le_mul_left _ (by omega)) hFits
  · rfl

theorem share_mono {m n : Nat} (hLe : m ≤ n) : share env percentage m ≤ share env percentage n := by
  simp only [share]
  split
  · exact Nat.div_le_div_right (Nat.mul_le_mul_right _ hLe)
  · exact hLe

/- The prices of the message of a transaction. -/
structure Prices (env : Env) (tx : Transaction) (percentage : BitVec 8) (msg : Message) : Prop where
  gas : msg.gas = tx.gas
  gasPrice : msg.gasPrice = effective env percentage (tx.kind.gasPrice env.headerBaseFee)
  feeCap : msg.feeCap = effective env percentage tx.kind.feeCap
  tip : msg.tip = tx.kind.tip
  free : msg.isFree = true → msg.feeCap = 0

theorem prices_applyPercentage (hGas : msg.gas = tx.gas)
    (hPrice : msg.gasPrice = tx.kind.gasPrice env.headerBaseFee)
    (hCap : msg.feeCap = tx.kind.feeCap) (hTip : msg.tip = tx.kind.tip)
    (hFree : msg.isFree = false) :
    Prices env tx percentage (msg.applyPercentage env.rules percentage) := by
  simp only [Message.applyPercentage]
  split
  · next hFork =>
    refine ⟨hGas, ?_, ?_, hTip, by simp [hFree]⟩
    · simp [effective, hFork, hPrice]
    · simp [effective, hFork, hCap]
  · next hFork =>
    refine ⟨hGas, ?_, ?_, hTip, by simp [hFree]⟩
    · simp [effective, hFork, hPrice]
    · simp [effective, hFork, hCap]

theorem Prices.markFree (hPrices : Prices env tx percentage msg)
    (isServiceTransaction : Option (Address → Bool)) :
    Prices env tx percentage (msg.markFree isServiceTransaction) := by
  simp only [Message.markFree]
  split
  · next hZero =>
    cases isServiceTransaction with
    | none => exact hPrices
    | some isService =>
      exact ⟨hPrices.gas, hPrices.gasPrice, hPrices.feeCap, hPrices.tip, fun _ => hZero⟩
  · exact hPrices

theorem getTxContext_eq_ok (hOk : getTxContext env tx percentage = .ok msg) :
    Prices env tx percentage msg := by
  rcases except_bind_eq_ok hOk with ⟨plain, hPlain, hMsg⟩
  rcases except_bind_eq_ok hPlain with ⟨_, _, hRest⟩
  rcases except_bind_eq_ok hRest with ⟨sender, _, hFields⟩
  cases hFields
  cases hMsg
  exact (prices_applyPercentage rfl rfl rfl rfl rfl).markFree _

-- What is paid and what is credited

/- The part of the base fee that is credited. -/
def burntFee (env : Env) : Nat :=
  if env.burntContract.isSome then env.baseFee.toNat else 0

/- Base fee and tip, before the cap is applied. -/
def offer (env : Env) (tx : Transaction) : Nat :=
  (env.headerBaseFee.getD tx.kind.feeCap).toNat + tx.kind.tip.toNat

/-
  The percentage leaves enough of base fee and tip, or it leaves so little of the cap that the cap
  decides.
-/
def TipCovered (env : Env) (tx : Transaction) (percentage : BitVec 8) : Prop :=
  env.rules.isLondon = true →
    tx.kind.tip.toNat + burntFee env ≤ share env percentage (offer env tx) ∨
      (effective env percentage tx.kind.feeCap).toNat ≤
        share env percentage (offer env tx) + (env.baseFee.toNat - burntFee env)

theorem toNat_used_mul {used : Nat} {price : Uint256} (hUsed : used < 2 ^ 64)
    (hFits : used * price.toNat < 2 ^ 256) :
    (BitVec.ofNat 256 used * price).toNat = used * price.toNat := by
  have hSmall : used % 2 ^ 256 = used := Nat.mod_eq_of_lt (by omega)
  rw [BitVec.toNat_mul, BitVec.toNat_ofNat, hSmall]
  exact Nat.mod_eq_of_lt hFits

theorem mul_fits {used gas price cap : Nat} (hUsed : used ≤ gas) (hPrice : price ≤ cap)
    (hFits : gas * cap < 2 ^ 256) : used * price < 2 ^ 256 :=
  lt_of_le_of_lt (Nat.mul_le_mul hUsed hPrice) hFits

/- The coinbase's share for each unit of gas, as a number. -/
theorem toNat_effectiveTip (hLondon : env.rules.isLondon = true)
    (hFee : env.baseFee.toNat ≤ msg.feeCap.toNat) :
    (effectiveTip env msg).toNat = min msg.tip.toNat (msg.feeCap.toNat - env.baseFee.toNat) := by
  have hDifference : (msg.feeCap - env.baseFee).toNat = msg.feeCap.toNat - env.baseFee.toNat :=
    BitVec.toNat_sub_of_le hFee
  simp only [effectiveTip, hLondon, if_true, BitVec.lt_def, hDifference]
  split_ifs with hMore hTip
  · exact (Nat.min_eq_left hTip.le).symm
  · rw [hDifference, Nat.min_eq_right (Nat.le_of_not_lt hTip)]
  · rw [Nat.sub_eq_zero_of_le (Nat.le_of_not_lt hMore), Nat.min_zero]
    rfl

/- What is credited for each unit of gas. -/
theorem credited_eq {used : Nat} (hLondon : env.rules.isLondon = true) (hFree : msg.isFree = false)
    (hFee : env.baseFee.toNat ≤ msg.feeCap.toNat) (hUsed : used ≤ msg.gas.toNat)
    (hFits : msg.gas.toNat * msg.feeCap.toNat < 2 ^ 256) :
    credited env msg used =
      used * (min msg.tip.toNat (msg.feeCap.toNat - env.baseFee.toNat) + burntFee env) := by
  have hGas := msg.gas.isLt
  have hTip := toNat_effectiveTip hLondon hFee
  have hTipLe : (effectiveTip env msg).toNat ≤ msg.feeCap.toNat := by
    rw [hTip]
    omega
  have hBurnt : burnt env msg = env.burntContract := by simp [burnt, hFree, hLondon]
  rw [credited, hBurnt, toNat_used_mul (by omega) (mul_fits hUsed hTipLe hFits),
    hTip, Nat.mul_add, burntFee]
  cases env.burntContract with
  | none => simp
  | some address =>
    simp only [Option.elim_some, Option.isSome_some, if_true]
    rw [toNat_used_mul (by omega) (mul_fits hUsed hFee hFits)]

/- A cap near the largest number cannot be paid. -/
theorem effective_large {cap : Uint256} {tip : Nat} (hWraps : 2 ^ 256 ≤ cap.toNat + tip)
    (hTip : tip ≤ (effective env percentage cap).toNat) :
    2 ^ 256 ≤ (effective env percentage cap).toNat * 21000 := by
  have hCap := cap.isLt
  have hLess := percentage.isLt
  by_cases hFork : env.rules.isForkID5Dragonfruit = true
  · simp only [effective, hFork, if_true, toNat_calculateEffectiveGas] at hTip ⊢
    -- What is missing to the largest number, scaled.
    have hMissing : (2 ^ 256 - cap.toNat) * (percentage.toNat + 1) ≤ (2 ^ 256 - cap.toNat) * 256 :=
      Nat.mul_le_mul_left _ (by omega)
    have hPositive : 0 < (2 ^ 256 - cap.toNat) * (percentage.toNat + 1) :=
      Nat.mul_pos (by omega) (by omega)
    have hWhole : cap.toNat * (percentage.toNat + 1) +
        (2 ^ 256 - cap.toNat) * (percentage.toNat + 1) = 2 ^ 256 * percentage.toNat + 2 ^ 256 := by
      rw [← Nat.add_mul, Nat.add_sub_cancel' hCap.le, Nat.mul_succ]
    generalize hM : (2 ^ 256 - cap.toNat) * (percentage.toNat + 1) = missing at *
    generalize hP : cap.toNat * (percentage.toNat + 1) = product at *
    by_cases hSmall : missing < 2 ^ 256
    · have hProduct : product = 2 ^ 256 - missing + 2 ^ 256 * percentage.toNat := by omega
      have hMod : product % 2 ^ 256 = 2 ^ 256 - missing := by
        rw [hProduct, Nat.add_mul_mod_self_left]
        exact Nat.mod_eq_of_lt (by omega)
      rw [hMod] at hTip ⊢
      omega
    · have hMod := Nat.mod_lt product (show 0 < 2 ^ 256 by decide)
      omega
  · simp only [effective, hFork] at hTip ⊢
    simp only [Bool.false_eq_true, if_false] at hTip ⊢
    omega

theorem burntFee_cases (env : Env) : burntFee env = 0 ∨ burntFee env = env.baseFee.toNat := by
  unfold burntFee
  split <;> simp

/- The price of a transaction, compared with its cap. -/
theorem gasPrice_cases (hTip : tx.kind.tip.toNat ≤ (effective env percentage tx.kind.feeCap).toNat)
    (hFee : env.baseFee.toNat ≤ (effective env percentage tx.kind.feeCap).toNat)
    (hFits : (effective env percentage tx.kind.feeCap).toNat * 21000 < 2 ^ 256) :
    ((effective env percentage (tx.kind.gasPrice env.headerBaseFee)).toNat =
        (effective env percentage tx.kind.feeCap).toNat ∧
      (effective env percentage tx.kind.feeCap).toNat ≤ share env percentage (offer env tx)) ∨
    (effective env percentage (tx.kind.gasPrice env.headerBaseFee)).toNat =
      share env percentage (offer env tx) := by
  have hPlain : ∀ price : Uint256,
      (effective env percentage price).toNat ≤
        share env percentage ((env.headerBaseFee.getD price).toNat + price.toNat) := by
    intro price
    exact (effective_le_share env percentage price).trans (share_mono (Nat.le_add_left _ _))
  cases hKind : tx.kind
  all_goals
    simp only [TxKind.feeCap, TxKind.tip, hKind] at hTip hFee hFits
    simp only [TxKind.gasPrice, TxKind.feeCap, TxKind.tip, offer, hKind]
  case legacy price | accessList price list => exact .inl ⟨trivial, hPlain price⟩
  case dynamicFee cap tip _ | blob cap tip _ _ _ =>
    have hCapShare := effective_le_share env percentage cap
    have hWraps : (env.headerBaseFee.getD cap).toNat + tip.toNat < 2 ^ 256 := by
      cases hBase : env.headerBaseFee with
      | none =>
        refine Nat.lt_of_not_le (fun hLarge => ?_)
        have hImpossible := effective_large (by simpa [hBase] using hLarge) hTip
        omega
      | some baseFee =>
        simp only [Env.baseFee, hBase, Option.getD_some] at hFee
        simp only [Option.getD_some]
        omega
    have hSum : (env.headerBaseFee.getD cap + tip).toNat =
        (env.headerBaseFee.getD cap).toNat + tip.toNat := by
      rw [BitVec.toNat_add]
      exact Nat.mod_eq_of_lt hWraps
    simp only [cappedPrice]
    split
    · next hAbove =>
      rw [BitVec.lt_def, hSum] at hAbove
      exact .inl ⟨rfl, hCapShare.trans (share_mono hAbove.le)⟩
    · next hBelow =>
      rw [BitVec.lt_def, hSum] at hBelow
      cases hBase : env.headerBaseFee with
      | none =>
        -- Without a base fee the sum is never below the cap.
        have hZero : tip.toNat = (0#256).toNat := by
          simp only [hBase, Option.getD_none] at hBelow
          rw [BitVec.toNat_zero]
          omega
        have hTipZero : tip = 0#256 := BitVec.eq_of_toNat_eq hZero
        refine .inl ⟨by simp [hTipZero], ?_⟩
        simpa [hTipZero] using hCapShare
      | some baseFee =>
        simp only [Env.baseFee, hBase, Option.getD_some] at hFee
        simp only [hBase, Option.getD_some] at hSum
        have hSmall : (baseFee + tip).toNat * 256 < 2 ^ 256 :=
          calc
            (baseFee + tip).toNat * 256 = (baseFee.toNat + tip.toNat) * 256 := by rw [hSum]
            _ ≤ (effective env percentage cap).toNat * 21000 := by
                omega
            _ < 2 ^ 256 := hFits
        simp only [Option.getD_some]
        rw [← hSum]
        exact .inr (effective_eq_share hSmall)

theorem credited_le_iff {used : Nat} (hPrices : Prices env tx percentage msg)
    (hBought : Bought Ledger.ops env msg w w') (hGas : 21000 ≤ msg.gas.toNat)
    (hUsed : used ≤ msg.gas.toNat) (hPositive : 0 < used) :
    credited env msg used ≤ lost msg used ↔ TipCovered env tx percentage := by
  have hGasLt := msg.gas.isLt
  by_cases hLondon : env.rules.isLondon = true
  · by_cases hFree : msg.isFree = true
    · -- A free transaction costs nothing and pays nothing.
      have hCap := hPrices.free hFree
      have hTip : effectiveTip env msg = 0 := by simp [effectiveTip, hLondon, hCap, BitVec.lt_def]
      have hBurnt : burnt env msg = none := by simp [burnt, hFree]
      have hNothing : credited env msg used = 0 := by simp [credited, hTip, hBurnt]
      have hCovered : TipCovered env tx percentage := by
        intro _
        right
        rw [← hPrices.feeCap, hCap]
        exact Nat.zero_le _
      simp [hNothing, hCovered]
    · have hPays : msg.isFree = false := by simpa using hFree
      have hTip := hBought.tip_le hLondon
      have hFee := hBought.baseFee_le hLondon hPays
      have hFits : msg.feeCap.toNat * 21000 < 2 ^ 256 := by
        refine lt_of_le_of_lt ?_ hBought.cap_fits
        rw [Nat.mul_comm]
        exact Nat.mul_le_mul_right _ hGas
      rw [credited_eq hLondon hPays hFee hUsed hBought.cap_fits, lost,
        Nat.mul_le_mul_left_iff hPositive]
      rw [hPrices.tip, hPrices.feeCap] at hTip
      rw [hPrices.feeCap] at hFee hFits
      rw [hPrices.tip, hPrices.feeCap, hPrices.gasPrice]
      have hBurnt := burntFee_cases env
      have hCases := gasPrice_cases hTip hFee hFits
      simp only [TipCovered, hLondon, forall_const]
      omega
  · have hTip : effectiveTip env msg = msg.gasPrice := by simp [effectiveTip, hLondon]
    have hBurnt : burnt env msg = none := by simp [burnt, hLondon]
    have hEqual : credited env msg used = lost msg used := by
      simp only [credited, hTip, hBurnt, Option.elim_none, Nat.add_zero, lost]
      exact toNat_used_mul (by omega) (mul_fits hUsed (Nat.le_refl _) hBought.price_fits)
    simp [hEqual, TipCovered, hLondon]

-- Coins

/- The machine moves coins and makes none. -/
def Evm.Conserving (evm : Evm Ledger) : Prop := ∀ l gas (result : EvmResult Ledger gas),
    evm.deploy l gas = .ok result ∨ evm.call l gas = .ok result → result.state.total = l.total

theorem total_execute {evm : Evm Ledger} {gas : Nat} {l : Ledger} {result : EvmResult Ledger gas}
    (hEvm : evm.Conserving) (hRun : execute Ledger.ops msg evm gas l = .ok result) :
    result.state.total = l.total := by
  simp only [execute] at hRun
  split at hRun
  · exact hEvm l gas result (.inl hRun)
  · have hTotal := hEvm (Ledger.ops.setNonce l msg.sender
      (l.nonce msg.sender + 1)) gas result (.inr hRun)
    exact hTotal

theorem total_bought (hBought : Bought Ledger.ops env msg w w')
    (hFunds : purchase env msg ≤ (w.state.balance msg.sender).toNat) :
    w'.state.total + purchase env msg = w.state.total := by
  rcases hBought.state with ⟨gasVal, blobGasVal, hGasVal, hBlobVal, hState⟩
  have hChecked : (Ledger.ops.getBalance
      (checked Ledger.ops msg w.state) msg.sender).2 = w.state := by
    simp [Ledger.ops, checked]
  rw [hState, hChecked]
  generalize w.state = l at hFunds ⊢
  simp only [purchase] at hFunds ⊢
  have hFirst := l.total_subBalance msg.sender gasVal (by omega)
  have hLeft : ((Ledger.ops.subBalance l msg.sender
      gasVal).balance msg.sender).toNat = (l.balance msg.sender).toNat - gasVal.toNat := by
    simp only [Ledger.ops, Ledger.setBalance, Function.update_self]
    exact BitVec.toNat_sub_of_le (by
      rw [BitVec.le_def]
      omega)
  have hSecond := Ledger.total_subBalance (Ledger.ops.subBalance l msg.sender gasVal) msg.sender
    blobGasVal (by
      rw [hLeft]
      omega)
  omega

theorem total_payFees (env : Env) (msg : Message) (used : Nat) (l : Ledger) :
    (payFees Ledger.ops env msg used l).total ≤ l.total + credited env msg used := by
  have hTip := l.total_addBalance env.coinbase (BitVec.ofNat 256 used * effectiveTip env msg)
  simp only [payFees, credited]
  cases burnt env msg with
  | none =>
    simp only [Option.elim_none]
    omega
  | some address =>
    have hBurnt := Ledger.total_addBalance
      (Ledger.ops.addBalance l env.coinbase (BitVec.ofNat 256 used * effectiveTip env msg))
      address (BitVec.ofNat 256 used * env.baseFee)
    simp only [Option.elim_some]
    omega

/-
  The sender can pay what is bought, the sum credited is not more than the purchase minus the
  refund, and there are not more coins than before.
-/
structure Conserves (env : Env) (msg : Message) (l : Ledger) (used : Nat) (l' : Ledger) : Prop where
  paid : purchase env msg ≤ (l.balance msg.sender).toNat
  credited_le : credited env msg used ≤ lost msg used
  total_le : l'.total ≤ l.total

/- The sender's balance covers what is bought. -/
def FundsCovered (env : Env) (tx : Transaction) (percentage : BitVec 8) (l : Ledger) : Prop :=
  ∀ msg, getTxContext env tx percentage = .ok msg → purchase env msg ≤ (l.balance msg.sender).toNat

theorem total_le_of_covered {evm : Evm Ledger} {r : ExecutionResult} (hEvm : evm.Conserving)
    (hOk : transitionDb Ledger.ops env msg evm w = (.ok r, w'))
    (hPaid : purchase env msg ≤ (w.state.balance msg.sender).toNat)
    (hCredited : credited env msg r.usedGas ≤ lost msg r.usedGas) :
    w'.state.total ≤ w.state.total := by
  rcases transitionDb_eq_ok hOk with ⟨bought, gas, result, hBought, _, hRun, hUsed, _, hState⟩
  have hGasUsed : r.usedGas = msg.gas.toNat -
      remainingGas env msg result.gasLeft (Ledger.ops.getRefund result.state) := by
    omega
  simp only [settled, ← hGasUsed] at hState
  generalize hRemaining : remainingGas env msg result.gasLeft
    (Ledger.ops.getRefund result.state) = remaining at hUsed hState
  have hGas := msg.gas.isLt
  have hBoughtTotal := total_bought hBought hPaid
  have hRunTotal := total_execute hEvm hRun
  have hRefund := result.state.total_addBalance msg.sender
    (BitVec.ofNat 256 remaining * msg.gasPrice)
  have hBack : (BitVec.ofNat 256 remaining * msg.gasPrice).toNat = remaining * msg.gasPrice.toNat :=
    toNat_used_mul (by omega) (mul_fits (by omega) (Nat.le_refl _) hBought.price_fits)
  have hFees := total_payFees env msg r.usedGas
    (Ledger.ops.addBalance result.state msg.sender (BitVec.ofNat 256 remaining * msg.gasPrice))
  have hSplit : msg.gas.toNat * msg.gasPrice.toNat =
      r.usedGas * msg.gasPrice.toNat + remaining * msg.gasPrice.toNat := by
    rw [← Nat.add_mul, hUsed]
  rw [hState]
  simp only [purchase] at hBoughtTotal
  simp only [lost] at hCredited
  rw [hBack] at hRefund
  omega

-- A tip that is not scaled

def sampleEnv : Env where
  rules := ⟨true, true, true, true, true, false, false, true⟩
  coinbase := 2
  headerBaseFee := some 0
  blobGasPrice := none
  burntContract := none
  hasEip3860 := false
  statelessExec := false
  isServiceTransaction := none

def sampleTx : Transaction where
  kind := .dynamicFee 1000 10 []
  nonce := 0
  gas := 21000
  toAddress := some 3
  value := 0
  data := []
  sender := .ok 1
  hash := 7

/- A call that uses all its gas and changes nothing. -/
def sampleEvm : Evm Ledger where
  deploy l _ := .ok ⟨l, 0, Nat.zero_le _, none, []⟩
  call l _ := .ok ⟨l, 0, Nat.zero_le _, none, []⟩

def sampleWorld : World Ledger where
  state := ⟨fun _ => 100000000, fun _ => 0, fun _ => 0, 0⟩
  pool := ⟨30000000, 0⟩

theorem sampleEvm_conserving :
    sampleEvm.Conserving := by
  rintro l gas result (⟨⟨⟩⟩ | ⟨⟨⟩⟩) <;> rfl

/- The message with the price and the cap it is left with. -/
def sampleMsg (gasPrice feeCap : Uint256) : Message where
  sender := 1
  toAddress := some 3
  nonce := 0
  value := 0
  gas := 21000
  gasPrice := gasPrice
  feeCap := feeCap
  tip := 10
  data := []
  accessList := some []
  maxFeePerBlobGas := 0
  blobHashes := []
  checkNonce := true
  isFree := false

/- The ledger after the fees were paid. -/
def sampleAfter (sender coinbase : Uint256) : Ledger :=
  let l := { sampleWorld.state with nonce := Function.update (fun _ => 0) 1 1 }
  (((l.setBalance 1 sender).setBalance 1 sender).setBalance 1 sender).setBalance 2 coinbase

theorem total_sampleAfter (sender coinbase : Uint256) :
    (sampleAfter sender coinbase).total + 200000000 =
      sampleWorld.state.total + sender.toNat + coinbase.toNat := by
  let start : Ledger := { sampleWorld.state with nonce := Function.update (fun _ => 0) 1 1 }
  let first := start.setBalance 1 sender
  let second := first.setBalance 1 sender
  let third := second.setBalance 1 sender
  have hFirst : first.total + 100000000 = start.total + sender.toNat :=
    start.total_setBalance 1 sender
  have hSecond : second.total + sender.toNat = first.total + sender.toNat :=
    first.total_setBalance 1 sender
  have hThird : third.total + sender.toNat = second.total + sender.toNat :=
    second.total_setBalance 1 sender
  have hLast : (sampleAfter sender coinbase).total + 100000000 = third.total + coinbase.toNat :=
    third.total_setBalance 2 coinbase
  have hStart : start.total = sampleWorld.state.total := rfl
  omega

end XLayerErigon.Core
