import XLayerErigon.Tx.L2TxHashInput
import XLayerErigon.TxPool.Solvency

/-
  Which transactions of a sender are taken for free.

  The kind of a transaction is kept in variables outside the loop over the sender's transactions,
  and it is found by the bytes of the transaction, which a flush clears.

  The loop also keeps the cache of the addresses that an exchange sends to.  A key of the cache is
  a text; what is meant for the receiver of tokens is cut out of the bytes of the transaction, which
  do not begin with the input.

  Main results:
    * `Pool.freeTypes_alone_iff`
    * `Pool.recipient_free_iff`
-/

namespace XLayerErigon.TxPool

open State

/- The bytes of a transaction go to the database when the pool is flushed. -/
def MetaTx.flushed (mt : MetaTx) : MetaTx := { mt with tx := { mt.tx with rlp := [] } }

/- A transaction of the pool, of which the original content may be flushed. -/
structure Pooled where
  original : MetaTx
  isFlushed : Bool

def Pooled.current (t : Pooled) : MetaTx := if t.isFlushed then t.original.flushed else t.original

namespace Pool

variable (p : Pool)

-- The Kind of Every Transaction

/- The kind and the multiplier that the loop goes on with at every transaction. -/
def freeTypes (sender : Address) (senderNonce protocolBaseFee : Uint64) (senderBalance : Uint256) :
    Visit → List MetaTx → List (FreeType × Uint64)
  | _, [] => []
  | v, mt :: rest =>
      let next := (p.visit sender senderNonce protocolBaseFee senderBalance v mt).1
      (next.pricing.freeType, next.pricing.gpMul) ::
        freeTypes sender senderNonce protocolBaseFee senderBalance next rest

/- Those that `onSenderStateChange` finds. -/
def freeTypesOf (senderID : Nat) (senderNonce : Uint64) (senderBalance : Uint256)
    (protocolBaseFee : Uint64) (byNonce : List MetaTx) : List (FreeType × Uint64) :=
  p.freeTypes (p.senderAddr senderID) senderNonce protocolBaseFee senderBalance
    ⟨p.startPricing senderID, senderNonce, 0⟩ (byNonce.filter (fun mt => senderNonce ≤ mt.tx.nonce))

def isProject (sender : Address) (mt : MetaTx) : Bool :=
  (p.checkFreeGasTxXLayer sender mt.tx).1 ≠ .notFree

/-
  From the first transaction of a project on, all are of it, and the first one still has the bytes
  that show it.
-/
def FreeBehind (sender : Address) : List Pooled → Prop
  | [] => True
  | t :: rest =>
    if p.isProject sender t.original then
      p.isProject sender t.current ∧ ∀ u ∈ rest, p.isProject sender u.original
    else FreeBehind sender rest

-- One Transaction

variable {p} {sender : Address} {senderNonce protocolBaseFee : Uint64} {senderBalance : Uint256}

/- All transactions of a sender that are of a project are of the same one. -/
theorem checkFreeGasTxXLayer_eq (p : Pool) (sender : Address) (mt : MetaTx) :
    p.checkFreeGasTxXLayer sender mt.tx =
      if p.isProject sender mt then
        (.specificProject, (p.freeGasInfo sender).elim 0 FreeGasInfo.gasPriceMultiple)
      else (.notFree, 0) := by
  unfold isProject checkFreeGasTxXLayer
  grind

/- Flushed bytes show nothing that the original ones do not. -/
theorem isProject_of_current {t : Pooled} (hCurrent : p.isProject sender t.current = true) :
    p.isProject sender t.original = true := by
  have hMethods : ∀ methods data, containsMethod [] methods = true →
      containsMethod data methods = true := by
    intro methods data hEmpty
    simp only [containsMethod, List.any_eq_true, decide_eq_true_eq, List.infix_nil] at hEmpty ⊢
    rcases hEmpty with ⟨m, hMem, rfl⟩
    exact ⟨[], hMem, List.nil_infix⟩
  rcases t with ⟨original, _ | _⟩
  · exact hCurrent
  · have hFlushed : p.isProject sender original.flushed = true := hCurrent
    have hEmpty : Tx.encodeToString original.flushed.tx.rlp = [] := rfl
    unfold isProject checkFreeGasTxXLayer at hFlushed ⊢
    rw [hEmpty] at hFlushed
    have hTo : original.flushed.tx.toAddress = original.tx.toAddress := rfl
    grind

theorem freeTypes_cons (v : Visit) (mt : MetaTx) (rest : List MetaTx) :
    p.freeTypes sender senderNonce protocolBaseFee senderBalance v (mt :: rest) =
      p.nextFreeType sender v.pricing mt.tx ::
        p.freeTypes sender senderNonce protocolBaseFee senderBalance
          (p.visit sender senderNonce protocolBaseFee senderBalance v mt).1 rest := by
  rw [freeTypes, visit_pricing]
  rfl

-- The Loop

/- Once a transaction is free, so are all that follow. -/
theorem freeTypes_of_free {v : Visit} (hFree : sender = 0 ∨ v.pricing.freeType ≠ .notFree)
    (mts : List MetaTx) :
    p.freeTypes sender senderNonce protocolBaseFee senderBalance v mts =
      mts.map fun _ => (v.pricing.freeType, v.pricing.gpMul) := by
  induction mts generalizing v with
  | nil => rfl
  | cons mt rest ih =>
    have hKept : p.nextFreeType sender v.pricing mt.tx =
        (v.pricing.freeType, v.pricing.gpMul) := by
      rw [nextFreeType, if_neg (by tauto)]
    rw [freeTypes_cons, hKept, ih, visit_pricing, nextPricing, hKept, List.map_cons]
    rw [visit_pricing, nextPricing, hKept]
    exact hFree

/- A sender that is not free itself has its transactions taken for what they are. -/
theorem freeTypes_eq_iff {v : Visit} (hSender : sender ≠ 0) (hPaid : v.pricing.freeType = .notFree)
    (ts : List Pooled) :
    p.freeTypes sender senderNonce protocolBaseFee senderBalance v (ts.map Pooled.current) =
        ts.map (fun t => p.checkFreeGasTxXLayer sender t.original.tx) ↔
      p.FreeBehind sender ts := by
  induction ts generalizing v with
  | nil => exact iff_of_true rfl trivial
  | cons t rest ih =>
    have hNext : p.nextFreeType sender v.pricing t.current.tx =
        p.checkFreeGasTxXLayer sender t.current.tx := by
      rw [nextFreeType, if_pos ⟨hSender, hPaid⟩]
    rw [List.map_cons, List.map_cons, freeTypes_cons, hNext, List.cons.injEq, FreeBehind]
    generalize hVisit : (p.visit sender senderNonce protocolBaseFee senderBalance v t.current).1 = w
    have hKind : (w.pricing.freeType, w.pricing.gpMul) =
        p.checkFreeGasTxXLayer sender t.current.tx := by
      rw [← hVisit, visit_pricing, nextPricing, hNext]
    have hAll := checkFreeGasTxXLayer_eq p sender
    by_cases hOriginal : p.isProject sender t.original = true
    · rw [if_pos hOriginal]
      by_cases hCurrent : p.isProject sender t.current = true
      · have hFree : w.pricing.freeType ≠ .notFree := by grind
        rw [freeTypes_of_free (Or.inr hFree), hKind, List.map_map, List.map_inj_left]
        grind
      · grind
    · have hCurrent : ¬ p.isProject sender t.current = true := mt isProject_of_current hOriginal
      rw [if_neg hOriginal, ih (by grind)]
      grind

/-
  Every transaction is taken for what it is on its own exactly if the sender itself is free, or not
  known, or all transactions from the first one of a project on are of the project and that one has
  its bytes.
-/
theorem freeTypes_alone_iff (p : Pool) (senderID : Nat) (senderNonce : Uint64)
    (senderBalance : Uint256) (protocolBaseFee : Uint64) (byNonce : List Pooled) :
    p.freeTypesOf senderID senderNonce senderBalance protocolBaseFee
          (byNonce.map Pooled.current) =
        (byNonce.filter (fun t => senderNonce ≤ t.original.tx.nonce)).map
          (fun t => p.checkFreeGasAddrXLayer senderID t.original.tx) ↔
      p.senderAddr senderID = 0 ∨ (p.checkFreeGasSenderXLayer senderID).2.1 ≠ .notFree ∨
        p.FreeBehind (p.senderAddr senderID)
          (byNonce.filter (fun t => senderNonce ≤ t.original.tx.nonce)) := by
  have hNonce : ∀ t : Pooled, t.current.tx.nonce = t.original.tx.nonce := by
    rintro ⟨original, _ | _⟩ <;> rfl
  have hVisited : (byNonce.map Pooled.current).filter (fun mt => senderNonce ≤ mt.tx.nonce) =
      (byNonce.filter (fun t => senderNonce ≤ t.original.tx.nonce)).map Pooled.current := by
    rw [List.filter_map]
    simp [Function.comp_def, hNonce]
  rw [freeTypesOf, hVisited]
  by_cases hFree : p.senderAddr senderID = 0 ∨ (p.checkFreeGasSenderXLayer senderID).2.1 ≠ .notFree
  · rw [freeTypes_of_free hFree, List.map_map]
    refine iff_of_true (List.map_congr_left fun t _ => ?_) (by tauto)
    rw [Function.comp_apply, checkFreeGasAddrXLayer]
    unfold senderAddr at hFree
    grind [startPricing]
  · rcases not_or.mp hFree with ⟨hKnown, hPaid⟩
    have hAlone : ∀ tx, p.checkFreeGasAddrXLayer senderID tx =
        p.checkFreeGasTxXLayer (p.senderAddr senderID) tx := by
      intro tx
      rw [checkFreeGasAddrXLayer]
      unfold senderAddr at hKnown ⊢
      grind
    simp only [hAlone]
    rw [freeTypes_eq_iff hKnown (not_not.mp hPaid)]
    tauto

/- A project with the contract 3 and the method `a9`. -/
def projectPool : Pool := { emptyHanded with
  apolloCfg := some ⟨fun _ => false, false, fun _ => false, fun _ => false, true⟩
  freeGasInfo := fun _ => some ⟨[3], [['a', '9']], 2⟩ }

def projectTx (nonce : Uint64) (toAddress : Address) : MetaTx :=
  ⟨{ wrappingTx with rlp := [0xA9], nonce := nonce, toAddress := toAddress },
    SubPoolMarker.zero, 0, 0, 0, 0⟩

/- Another transaction is free behind one of the project, which is not free itself once flushed. -/
theorem free_by_another :
    projectPool.freeTypesOf 0 0 0 0 [projectTx 0 3, projectTx 1 4] =
      [(.specificProject, 2), (.specificProject, 2)] ∧
    projectPool.checkFreeGasAddrXLayer 0 (projectTx 1 4).tx = (.notFree, 0) ∧
    projectPool.freeTypesOf 0 0 0 0 [(projectTx 0 3).flushed] = [(.notFree, 0)] ∧
    projectPool.checkFreeGasAddrXLayer 0 (projectTx 0 3).tx = (.specificProject, 2) := by
  decide

end Pool

-- The Cache of Free Addresses

/- Who is an exchange, and how many transactions of an address are free. -/
structure CacheConfig where
  enableFreeGasByNonce : Bool
  checkFreeGasExAddr : Address → Bool
  freeGasCountPerAddr : Uint64

abbrev GasCache := List Char → Bool

def erc20TransferMethod : List Char := ['0', 'x', 'a', '9', '0', '5', '9', 'c', 'b', 'b']

def setFreeGasByNonceCache (hashing : Tx.Hashing) (cfg : CacheConfig) (sender : Option Address)
    (cache : GasCache) (tx : TxSlot) (isClaim : Bool) : GasCache :=
  let inputHex := Tx.encodeToHex tx.rlp
  if cfg.enableFreeGasByNonce then
    if sender.elim false cfg.checkFreeGasExAddr then
      if erc20TransferMethod.isPrefixOf inputHex && 74 < inputHex.length then
        Function.update cache ('0' :: 'x' :: (inputHex.drop 10).take 64) true
      else Function.update cache (Tx.addressHex hashing tx.toAddress) true
    else if isClaim && tx.nonce < cfg.freeGasCountPerAddr then
      if 4554 < inputHex.length then
        Function.update cache ('0' :: 'x' :: (inputHex.drop 4490).take 64) true
      else Function.update cache (Tx.addressHex hashing tx.toAddress) true
    else cache
  else cache

/-
  A transaction with its input.  The bytes of a slot begin with a type of at most 3 or are a list,
  or they are flushed.
-/
structure Transfer where
  mt : MetaTx
  input : Bytes
  parsed : ∀ b ∈ mt.tx.rlp.head?, b.toNat ≤ 3 ∨ 0xC0 ≤ b.toNat

/- The receiver of tokens is the first argument of `transfer(address,uint256)`. -/
def Transfer.recipient (t : Transfer) : Address :=
  if t.input.take 4 = [0xA9, 0x05, 0x9C, 0xBB] ∧ 68 ≤ t.input.length then
    BitVec.ofNat 160 (Bytes.toNat ((t.input.drop 16).take 20))
  else t.mt.tx.toAddress

namespace Pool

/- A sender is looked up by the text of its address. -/
def withCache (p : Pool) (hashing : Tx.Hashing) (cache : GasCache) : Pool :=
  { p with freeGasAddrs := fun addr => cache (Tx.addressHex hashing addr) }

/- What the loop of `onSenderStateChange` does to the cache. -/
def cacheLoop (p : Pool) (hashing : Tx.Hashing) (cfg : CacheConfig) (senderID : Nat)
    (senderNonce protocolBaseFee : Uint64) (senderBalance : Uint256) :
    Visit → GasCache → List MetaTx → GasCache
  | _, cache, [] => cache
  | v, cache, mt :: rest =>
      let next :=
        (p.visit (p.senderAddr senderID) senderNonce protocolBaseFee senderBalance v mt).1
      cacheLoop p hashing cfg senderID senderNonce protocolBaseFee senderBalance next
        (setFreeGasByNonceCache hashing cfg (p.senderID2Addr senderID) cache mt.tx
          (next.pricing.freeType = .claim)) rest

def cacheAfter (p : Pool) (hashing : Tx.Hashing) (cfg : CacheConfig) (cache : GasCache)
    (senderID : Nat) (senderNonce : Uint64) (senderBalance : Uint256) (protocolBaseFee : Uint64)
    (byNonce : List MetaTx) : GasCache :=
  (p.withCache hashing cache).cacheLoop hashing cfg senderID senderNonce protocolBaseFee
    senderBalance ⟨(p.withCache hashing cache).startPricing senderID, senderNonce, 0⟩ cache
    (byNonce.filter (fun mt => senderNonce ≤ mt.tx.nonce))

variable {hashing : Tx.Hashing}

/- The case of the letters does not matter for the number. -/
theorem addressHex_injective (hashing : Tx.Hashing) :
    Function.Injective (Tx.addressHex hashing) := by
  intro a b hSame
  rcases Tx.field_address hashing a with ⟨part, hPart, hField⟩
  rcases Tx.field_address hashing b with ⟨part', hPart', hField'⟩
  rw [hSame, hPart'] at hPart
  cases hPart
  exact BitVec.eq_of_toNat_eq (hField.number.symm.trans hField'.number)

/- The bytes of a transaction do not begin with a method. -/
theorem not_isPrefixOf_parsed (t : Transfer) :
    erc20TransferMethod.isPrefixOf (Tx.encodeToHex t.mt.tx.rlp) = false := by
  cases hBytes : t.mt.tx.rlp with
  | nil => rfl
  | cons b rest =>
    have hFirst := t.parsed b (by rw [hBytes]; rfl)
    by_contra hPrefix
    rw [Bool.not_eq_false] at hPrefix
    simp only [erc20TransferMethod, Tx.encodeToHex, Tx.encodeToString, List.flatMap_cons,
      List.cons_append, List.isPrefixOf, Bool.and_eq_true, beq_iff_eq] at hPrefix
    have hHigh := Hex.digit_digitChar (d := b.toNat / 16) (by omega)
    have hLow := Hex.digit_digitChar (d := b.toNat % 16) (by omega)
    rw [← hPrefix.2.2.1] at hHigh
    rw [← hPrefix.2.2.2.1] at hLow
    have hA : Hex.digit 'a' = 10 := rfl
    have hNine : Hex.digit '9' = 9 := rfl
    omega

theorem sender_free_iff {p : Pool} {cache : GasCache} {senderID : Nat} {addr : Address}
    (hAddr : p.senderID2Addr senderID = some addr) :
    ((p.withCache hashing cache).checkFreeGasSenderXLayer senderID).2.1 ≠ .notFree ↔
      p.checkFreeClaim addr = true ∨ cache (Tx.addressHex hashing addr) = true := by
  have hKnown : (p.withCache hashing cache).senderID2Addr senderID = some addr := hAddr
  have hClaim : (p.withCache hashing cache).checkFreeClaim addr = p.checkFreeClaim addr := rfl
  have hCache : (p.withCache hashing cache).freeGasAddrs addr =
      cache (Tx.addressHex hashing addr) := rfl
  rw [checkFreeGasSenderXLayer, hKnown]
  grind

/- What the transactions of an exchange add to the cache. -/
theorem cacheLoop_iff {p : Pool} {cfg : CacheConfig} {senderID : Nat}
    {senderNonce protocolBaseFee : Uint64} {senderBalance : Uint256}
    (hEnabled : cfg.enableFreeGasByNonce = true)
    (hExchange : (p.senderID2Addr senderID).elim false cfg.checkFreeGasExAddr = true)
    (v : Visit) (cache : GasCache) (ts : List Transfer) (text : List Char) :
    p.cacheLoop hashing cfg senderID senderNonce protocolBaseFee senderBalance v cache
        (ts.map Transfer.mt) text = true ↔
      cache text = true ∨ ∃ t ∈ ts, Tx.addressHex hashing t.mt.tx.toAddress = text := by
  induction ts generalizing v cache with
  | nil => simp [cacheLoop]
  | cons t ts ih =>
    rw [List.map_cons, cacheLoop, ih, setFreeGasByNonceCache]
    simp only [hEnabled, hExchange, not_isPrefixOf_parsed, if_true, Bool.false_and,
      Bool.false_eq_true, if_false, Function.update_apply]
    grind

/-
  The receiver of what an exchange sends is free afterwards exactly if it was free before, or it is
  the destination of a transaction from the account's nonce on.
-/
theorem recipient_free_iff (p : Pool) (hashing : Tx.Hashing) (cfg : CacheConfig) (cache : GasCache)
    (senderID : Nat) (senderNonce : Uint64) (senderBalance : Uint256) (protocolBaseFee : Uint64)
    (byNonce : List Transfer) (hEnabled : cfg.enableFreeGasByNonce = true)
    (hExchange : (p.senderID2Addr senderID).elim false cfg.checkFreeGasExAddr = true) :
    ∀ t ∈ byNonce, ∀ recipientID, p.senderID2Addr recipientID = some t.recipient →
      (((p.withCache hashing (p.cacheAfter hashing cfg cache senderID senderNonce senderBalance
          protocolBaseFee (byNonce.map Transfer.mt))).checkFreeGasSenderXLayer recipientID).2.1 ≠
          .notFree ↔
        ((p.withCache hashing cache).checkFreeGasSenderXLayer recipientID).2.1 ≠ .notFree ∨
          ∃ u ∈ byNonce, senderNonce ≤ u.mt.tx.nonce ∧ u.mt.tx.toAddress = t.recipient) := by
  intro t _ recipientID hRecipient
  rw [sender_free_iff hRecipient, sender_free_iff hRecipient, cacheAfter, List.filter_map,
    cacheLoop_iff (p := p.withCache hashing cache) hEnabled hExchange, or_assoc]
  simp [(addressHex_injective hashing).eq_iff, and_assoc]

/- Ten tokens for the address 7, sent by the exchange 1 in a transaction to the contract 3. -/
def tokenTransfer : Transfer where
  mt := ⟨{ wrappingTx with rlp := [0xF8] }, SubPoolMarker.zero, 0, 0, 0, 0⟩
  input := [0xA9, 0x05, 0x9C, 0xBB] ++ Bytes.fill 32 7 ++ Bytes.fill 32 10
  parsed := by
    intro b hFirst
    cases hFirst
    exact Or.inr (by decide)

/- Sender 0 is the exchange, sender 1 the receiver of the tokens. -/
def exchangePool : Pool := { emptyHanded with
  senderID2Addr := fun senderID => if senderID = 0 then some 1 else some 7 }

def plainHashing : Tx.Hashing := ⟨fun _ _ => 0, fun _ => 0⟩

def exchangeConfig : CacheConfig := ⟨true, fun addr => addr = 1, 0⟩

theorem recipient_free_iff_token :
    tokenTransfer.recipient = 7 ∧
      (((exchangePool.withCache plainHashing (exchangePool.cacheAfter plainHashing exchangeConfig
          (fun _ => false) 0 0 0 0 [tokenTransfer.mt])).checkFreeGasSenderXLayer 1).2.1 ≠
          .notFree ↔
        ((exchangePool.withCache plainHashing (fun _ => false)).checkFreeGasSenderXLayer 1).2.1 ≠
            .notFree ∨
          ∃ u ∈ [tokenTransfer], (0 : Uint64) ≤ u.mt.tx.nonce ∧
            u.mt.tx.toAddress = tokenTransfer.recipient) :=
  ⟨by decide, recipient_free_iff exchangePool plainHashing exchangeConfig (fun _ => false) 0 0 0 0
    [tokenTransfer] rfl (by decide) tokenTransfer (by simp) 1 (by decide)⟩

/- The contract is free afterwards, and the receiver of the tokens is not. -/
theorem token_recipient_not_free :
    let pool := exchangePool.withCache plainHashing (exchangePool.cacheAfter plainHashing
      exchangeConfig (fun _ => false) 0 0 0 0 [tokenTransfer.mt])
    tokenTransfer.recipient = 7 ∧ pool.senderID2Addr 1 = some 7 ∧
      pool.checkFreeGasSenderXLayer 1 = (some 7, .notFree, 0) ∧ pool.freeGasAddrs 3 = true := by
  decide

end Pool

end XLayerErigon.TxPool
