import XLayerErigon.Data.Hex
import XLayerErigon.Tx.L2TxHash

/-
  The text that the hash of an L2 transaction is made of.

  Every field but the data has a fixed width, the size of the data stands before them, and the
  first byte and the byte before the receiver say which fields are left out.  So the fields can be
  read back from the text.  A missing number is written as zero.

  Main results:
    * `computeL2TxHash_eq`
    * `hashInput_spelled`
    * `hashInput_injective`
-/

namespace XLayerErigon.Tx

structure L2Tx where
  chainId : Option Int
  value : Option (BitVec 256)
  gasPrice : Option (BitVec 256)
  nonce : BitVec 64
  txGasLimit : BitVec 64
  toAddress : Option (BitVec 160)
  fromAddress : BitVec 160
  data : Bytes

/- The text of the fields, in the order of the source. -/
def hashInput (hashing : Hashing) (tx : L2Tx) : Except Failure (List Char) :=
  let txType := if isChain tx.chainId then ['0', '1'] else ['0', '0']
  let dataStr := trimPrefix (encodeToHex tx.data)
  let dataLength := (dataStr.length + 1) / 2
  formatL2TxHashParam hashing (.uint tx.nonce.toNat) 8 >>= fun noncePart =>
  formatL2TxHashParam hashing (.uint256 tx.gasPrice) 32 >>= fun gasPricePart =>
  formatL2TxHashParam hashing (.uint tx.txGasLimit.toNat) 8 >>= fun gasLimitPart =>
  toPart hashing tx.toAddress >>= fun receiver =>
  formatL2TxHashParam hashing (.uint256 tx.value) 32 >>= fun valuePart =>
  formatL2TxHashParam hashing (.int dataLength) 3 >>= fun dataLengthPart =>
  dataPart hashing dataStr dataLength >>= fun content =>
  chainIDPart hashing tx.chainId >>= fun chain =>
  formatL2TxHashParam hashing (.string (addressHex hashing tx.fromAddress)) 20 >>= fun fromPart =>
  .ok (txType ++ noncePart ++ gasPricePart ++ gasLimitPart ++ receiver ++ valuePart ++
    dataLengthPart ++ content ++ chain ++ fromPart)

variable (hashing : Hashing)

/- The hash depends on the transaction through this text only. -/
theorem computeL2TxHash_eq (tx : L2Tx) :
    computeL2TxHash hashing tx.chainId tx.value tx.gasPrice tx.nonce tx.txGasLimit tx.toAddress
        tx.fromAddress tx.data =
      hashInput hashing tx >>= fun text =>
        .ok (BitVec.ofNat 256 (hashing.hashContractBytecodeBigInt text)) := by
  simp only [computeL2TxHash, hashInput, bind_assoc, ok_bind]

-- Fields

/- A part that stands for a number, in `width` bytes if the number fits. -/
structure Field (width n : Nat) (part : List Char) : Prop where
  number : Hex.toNat part = n
  length : n < 256 ^ width → part.length = width * 2

theorem Field.append_inj {width n n' : Nat} {part part' rest rest' : List Char}
    (hField : Field width n part) (hField' : Field width n' part') (hFits : n < 256 ^ width)
    (hFits' : n' < 256 ^ width) (hSame : part ++ rest = part' ++ rest') :
    n = n' ∧ rest = rest' := by
  rcases List.append_inj hSame ((hField.length hFits).trans (hField'.length hFits').symm) with
    ⟨rfl, hRest⟩
  exact ⟨hField.number.symm.trans hField'.number, hRest⟩

theorem trimPrefix_of_allDigits {text : List Char} (hDigits : AllDigits text) :
    trimPrefix text = text := by
  unfold trimPrefix
  split
  · cases hDigits 'x' (by simp)
  · rfl

theorem toNat_evenDigits (text : List Char) : Hex.toNat (evenDigits text) = Hex.toNat text := by
  unfold evenDigits
  split
  · exact Hex.toNat_zeros_append 1 text
  · rfl

theorem length_padStart {width : Nat} {text : List Char} (hShort : text.length ≤ width * 2) :
    (padStart (evenDigits text) (width * 2) '0').length = width * 2 := by
  have hEven : (evenDigits text).length ≤ width * 2 := by
    unfold evenDigits
    split
    · rw [List.length_cons]
      omega
    · exact hShort
  unfold padStart
  split
  · exact Nat.le_antisymm hEven (by assumption)
  · rw [List.length_append, List.length_replicate]
    omega

theorem toNat_padStart (text : List Char) (length : Nat) :
    Hex.toNat (padStart text length '0') = Hex.toNat text := by
  unfold padStart
  split
  · rfl
  · exact Hex.toNat_zeros_append _ text

/- A field of digits is written as its number. -/
theorem formatL2TxHashParam_field {param : Param} {text : List Char} {width : Nat}
    (hText : param.text hashing = some text) (hDigits : AllDigits (trimPrefix text))
    (hShort : Hex.toNat (trimPrefix text) < 256 ^ width → (trimPrefix text).length ≤ width * 2) :
    ∃ part, formatL2TxHashParam hashing param width = .ok part ∧
      Field width (Hex.toNat (trimPrefix text)) part := by
  refine ⟨_, ?_, ?_, fun hFits => length_padStart (hShort hFits)⟩
  · simp only [formatL2TxHashParam, hText]
    exact if_pos hDigits.evenDigits.isValid
  · rw [toNat_padStart, toNat_evenDigits]

theorem toNat_formatUint (v : Nat) : Hex.toNat (formatUint v) = v := by
  unfold formatUint
  split
  · rename_i hZero
    rw [hZero]
    rfl
  · exact Hex.toNat_ofNat v

theorem length_formatUint_le {width v : Nat} (hPos : 0 < width) (hFits : v < 256 ^ width) :
    (formatUint v).length ≤ width * 2 := by
  unfold formatUint
  split
  · rw [List.length_singleton]
    omega
  · apply Hex.length_ofNat_le
    rwa [Nat.mul_comm, Nat.pow_mul]

theorem field_formatUint {param : Param} {text : List Char} {v width : Nat}
    (hText : param.text hashing = some text) (hTrim : trimPrefix text = formatUint v)
    (hPos : 0 < width) :
    ∃ part, formatL2TxHashParam hashing param width = .ok part ∧ Field width v part := by
  have hField := @formatL2TxHashParam_field hashing param text width hText
    (hTrim ▸ allDigits_formatUint v) (by
      rw [hTrim, toNat_formatUint]
      exact length_formatUint_le hPos)
  rwa [hTrim, toNat_formatUint] at hField

theorem trimPrefix_formatUint (v : Nat) : trimPrefix (formatUint v) = formatUint v :=
  trimPrefix_of_allDigits (allDigits_formatUint v)

theorem field_uint (v : Nat) {width : Nat} (hPos : 0 < width) :
    ∃ part, formatL2TxHashParam hashing (.uint v) width = .ok part ∧ Field width v part :=
  field_formatUint hashing rfl (trimPrefix_formatUint v) hPos

theorem field_uint256 (v : Option (BitVec 256)) :
    ∃ part, formatL2TxHashParam hashing (.uint256 v) 32 = .ok part ∧
      Field 32 (v.getD 0).toNat part := by
  cases v with
  | none => exact field_formatUint hashing rfl rfl (by decide)
  | some v => exact field_formatUint hashing rfl rfl (by decide)

/- The case of a digit does not change its value. -/
theorem digit_checksumDigit (hash : Fin 32 → Byte) {d : Nat} (hDigit : d < 16) (i : Nat) :
    Hex.digit (checksumDigit hash (Nat.digitChar d, i)) = d := by
  have hUpper : ∀ d : Fin 16, '9' < Nat.digitChar d.val →
      Hex.digit (Char.ofNat ((Nat.digitChar d.val).toNat - 32)) = d.val := by
    decide
  unfold checksumDigit
  split
  · rename_i hCase
    exact hUpper ⟨d, hDigit⟩ (of_decide_eq_true (Bool.and_eq_true_iff.1 hCase).1)
  · exact Hex.digit_digitChar hDigit

theorem toNat_map_checksumDigit (hash : Fin 32 → Byte) {text : List Char} (i : Nat)
    (hText : ∀ c ∈ text, ∃ d, d < 16 ∧ c = Nat.digitChar d) :
    Hex.toNat ((text.zipIdx i).map (checksumDigit hash)) = Hex.toNat text := by
  induction text using List.reverseRecOn with
  | nil => rfl
  | append_singleton text c ih =>
    rcases hText c (by simp) with ⟨d, hDigit, rfl⟩
    rw [List.zipIdx_append, List.map_append, List.zipIdx_singleton, List.map_singleton,
      Hex.toNat_concat, Hex.toNat_concat, ih fun c hc => hText c (by simp [hc]),
      digit_checksumDigit hash hDigit, Hex.digit_digitChar hDigit]

theorem field_address (a : BitVec 160) :
    ∃ part, formatL2TxHashParam hashing (.string (addressHex hashing a)) 20 = .ok part ∧
      Field 20 a.toNat part := by
  have hWidth : (encodeToString (Bytes.fill 20 a.toNat)).length = 20 * 2 := by
    have hLength := Hex.length_ofBytes (Bytes.fill 20 a.toNat)
    rwa [Bytes.length_fill a.isLt] at hLength
  have hField := @formatL2TxHashParam_field hashing (.string (addressHex hashing a)) _ 20 rfl
    (allDigits_addressHex hashing a) (fun _ => by simp [addressHex, trimPrefix, hWidth])
  simp only [addressHex, trimPrefix] at hField ⊢
  rwa [toNat_map_checksumDigit _ _ fun c hc => encodeToString_digitChar hc,
    show Hex.toNat (encodeToString _) = _ from Hex.toNat_ofBytes _, Bytes.toNat_fill] at hField

-- The Text

/- The receiver, or the mark of a missing one. -/
inductive Receiver : Option (BitVec 160) → List Char → Prop
  | deploy : Receiver none ['0', '1']
  | address (a : BitVec 160) (part : List Char) (hField : Field 20 a.toNat part) :
      Receiver (some a) ('0' :: '0' :: part)

/- The first byte says whether there is a chain id. -/
inductive Chain : Int → List Char → List Char → Prop
  | none : Chain 0 ['0', '0'] []
  | some (id : Int) (part : List Char) (hSome : 0 < id) (hField : Field 8 id.toNat part) :
      Chain id ['0', '1'] part

/- What a transaction looks like as a text. -/
def Spelled (tx : L2Tx) (text : List Char) : Prop :=
  ∃ txType nonce gasPrice gasLimit receiver value size content chain sender,
    text = txType ++ (nonce ++ (gasPrice ++ (gasLimit ++ (receiver ++ (value ++ (size ++
      (content ++ (chain ++ sender)))))))) ∧
    Chain (tx.chainId.getD 0) txType chain ∧ Field 8 tx.nonce.toNat nonce ∧
    Field 32 (tx.gasPrice.getD 0).toNat gasPrice ∧ Field 8 tx.txGasLimit.toNat gasLimit ∧
    Receiver tx.toAddress receiver ∧ Field 32 (tx.value.getD 0).toNat value ∧
    Field 3 tx.data.length size ∧ Field tx.data.length (Bytes.toNat tx.data) content ∧
    Field 20 tx.fromAddress.toNat sender

theorem toPart_receiver (toAddress : Option (BitVec 160)) :
    ∃ part, toPart hashing toAddress = .ok part ∧ Receiver toAddress part := by
  cases toAddress with
  | none => exact ⟨_, rfl, .deploy⟩
  | some a =>
    rcases field_address hashing a with ⟨part, hPart, hField⟩
    exact ⟨_, by rw [toPart, hPart, ok_bind], .address a part hField⟩

theorem dataPart_field (data : Bytes) :
    ∃ part, dataPart hashing (encodeToString data) data.length = .ok part ∧
      Field data.length (Bytes.toNat data) part := by
  unfold dataPart
  split
  · have hTrim := trimPrefix_of_allDigits (allDigits_encodeToString data)
    have hField := @formatL2TxHashParam_field hashing (.string (encodeToString data)) _
      data.length rfl (allDigits_encodeToString data).trimPrefix (fun _ => by
        rw [hTrim]
        exact Nat.le_of_eq (Hex.length_ofBytes data))
    rwa [hTrim, show Hex.toNat (encodeToString data) = _ from Hex.toNat_ofBytes data] at hField
  · rename_i hNone
    rw [List.length_eq_zero_iff.1 (Nat.eq_zero_of_not_pos hNone)]
    exact ⟨[], rfl, rfl, fun _ => rfl⟩

theorem chainIDPart_chain {chainId : Option Int} (hSign : ∀ id, chainId = some id → 0 ≤ id) :
    ∃ part, chainIDPart hashing chainId = .ok part ∧
      Chain (chainId.getD 0) (if isChain chainId then ['0', '1'] else ['0', '0']) part := by
  cases chainId with
  | none => exact ⟨[], rfl, .none⟩
  | some id =>
    by_cases hZero : id = 0
    · subst hZero
      exact ⟨[], rfl, .none⟩
    · have hSign := hSign id rfl
      have hText : (Param.bigInt id).text hashing = some (formatUint id.toNat) := by
        simp only [Param.text, formatInt]
        rw [if_neg (by omega), show id.natAbs = id.toNat by omega]
      rcases @field_formatUint hashing _ _ _ 8 hText (trimPrefix_formatUint _) (by decide) with
        ⟨part, hPart, hField⟩
      refine ⟨part, (if_neg hZero).trans hPart, ?_⟩
      simp only [isChain, bne_iff_ne, ne_eq, hZero, not_false_eq_true, if_true]
      exact .some id part (by omega) hField

/- A transaction whose chain id is not negative is spelled out. -/
theorem hashInput_spelled {tx : L2Tx} (hSign : ∀ id, tx.chainId = some id → 0 ≤ id) :
    ∃ text, hashInput hashing tx = .ok text ∧ Spelled tx text := by
  have hSize : ((trimPrefix (encodeToHex tx.data)).length + 1) / 2 = tx.data.length := by
    have hLength : (encodeToString tx.data).length = _ := Hex.length_ofBytes tx.data
    rw [encodeToHex, trimPrefix, hLength]
    omega
  have hInt : (Param.int tx.data.length).text hashing = some (formatUint tx.data.length) := by
    simp only [Param.text, formatInt]
    rw [if_neg (by omega), Int.natAbs_natCast]
  rcases @field_uint hashing tx.nonce.toNat 8 (by decide) with ⟨nonce, hNonce, hNonceField⟩
  rcases field_uint256 hashing tx.gasPrice with ⟨gasPrice, hPrice, hPriceField⟩
  rcases @field_uint hashing tx.txGasLimit.toNat 8 (by decide) with ⟨gasLimit, hGas, hGasField⟩
  rcases toPart_receiver hashing tx.toAddress with ⟨receiver, hTo, hReceiver⟩
  rcases field_uint256 hashing tx.value with ⟨value, hValue, hValueField⟩
  rcases @field_formatUint hashing _ _ _ 3 hInt (trimPrefix_formatUint _) (by decide) with
    ⟨size, hLength, hSizeField⟩
  rcases dataPart_field hashing tx.data with ⟨content, hContent, hContentField⟩
  rcases chainIDPart_chain hashing hSign with ⟨chain, hId, hChain⟩
  rcases field_address hashing tx.fromAddress with ⟨sender, hFrom, hSender⟩
  refine ⟨_, ?_, _, nonce, gasPrice, gasLimit, receiver, value, size, content, chain, sender, rfl,
    hChain, hNonceField, hPriceField, hGasField, hReceiver, hValueField, hSizeField,
    hContentField, hSender⟩
  simp only [hashInput, hSize]
  rw [hNonce, ok_bind, hPrice, ok_bind, hGas, ok_bind, hTo, ok_bind, hValue, ok_bind, hLength,
    ok_bind, show trimPrefix (encodeToHex tx.data) = encodeToString tx.data from rfl, hContent,
    ok_bind, hId, ok_bind, hFrom, ok_bind]
  simp only [List.append_assoc]

/- A chain id that is not negative can be hashed. -/
theorem computeL2TxHash_ok {chainId : Option Int} (hSign : ∀ id, chainId = some id → 0 ≤ id)
    (value gasPrice : Option (BitVec 256)) (nonce txGasLimit : BitVec 64)
    (toAddress : Option (BitVec 160)) (fromAddress : BitVec 160) (data : Bytes) :
    ∃ hash, computeL2TxHash hashing chainId value gasPrice
      nonce txGasLimit toAddress fromAddress data = .ok hash := by
  have hHash := computeL2TxHash_eq hashing
    ⟨chainId, value, gasPrice, nonce, txGasLimit, toAddress, fromAddress, data⟩
  rcases @hashInput_spelled hashing
    ⟨chainId, value, gasPrice, nonce, txGasLimit, toAddress, fromAddress, data⟩ hSign with
    ⟨text, hText, -⟩
  rw [hText, ok_bind] at hHash
  exact ⟨_, hHash⟩

-- Reading back

/- The chain id fits 64 bits and the data is shorter than 2 ^ 24 bytes. -/
structure L2Tx.Fits (tx : L2Tx) : Prop where
  chainId : ∀ id, tx.chainId = some id → 0 ≤ id ∧ id < 2 ^ 64
  data : tx.data.length < 2 ^ 24

/- Two transactions with the same fields, where a missing number counts as zero. -/
structure L2Tx.Agrees (tx tx' : L2Tx) : Prop where
  chainId : tx.chainId.getD 0 = tx'.chainId.getD 0
  value : tx.value.getD 0 = tx'.value.getD 0
  gasPrice : tx.gasPrice.getD 0 = tx'.gasPrice.getD 0
  nonce : tx.nonce = tx'.nonce
  txGasLimit : tx.txGasLimit = tx'.txGasLimit
  toAddress : tx.toAddress = tx'.toAddress
  fromAddress : tx.fromAddress = tx'.fromAddress
  data : tx.data = tx'.data

theorem Chain.type_inj {id id' : Int} {txType txType' chain chain' rest rest' : List Char}
    (hChain : Chain id txType chain) (hChain' : Chain id' txType' chain')
    (hSame : txType ++ rest = txType' ++ rest') : (id = 0 ↔ id' = 0) ∧ rest = rest' := by
  cases hChain with
  | none =>
    cases hChain' with
    | none => simpa using hSame
    | some => simp at hSame
  | some _ _ hSome _ =>
    cases hChain' with
    | none => simp at hSame
    | some _ _ hSome' _ => exact ⟨by omega, by simpa using hSame⟩

theorem Chain.append_inj {id id' : Int} {txType txType' chain chain' rest rest' : List Char}
    (hChain : Chain id txType chain) (hChain' : Chain id' txType' chain')
    (hZero : id = 0 ↔ id' = 0) (hFits : id < 2 ^ 64) (hFits' : id' < 2 ^ 64)
    (hSame : chain ++ rest = chain' ++ rest') : id = id' ∧ rest = rest' := by
  cases hChain with
  | none =>
    cases hChain' with
    | none => exact ⟨rfl, hSame⟩
    | some _ _ hSome _ => omega
  | some _ _ hSome hField =>
    cases hChain' with
    | none => omega
    | some _ _ hSome' hField' =>
      rcases hField.append_inj hField' (by omega) (by omega) hSame with ⟨hNumber, hRest⟩
      exact ⟨by omega, hRest⟩

theorem Receiver.append_inj {a a' : Option (BitVec 160)} {part part' rest rest' : List Char}
    (hReceiver : Receiver a part) (hReceiver' : Receiver a' part')
    (hSame : part ++ rest = part' ++ rest') : a = a' ∧ rest = rest' := by
  cases hReceiver with
  | deploy =>
    cases hReceiver' with
    | deploy => simpa using hSame
    | address => simp at hSame
  | address a part hField =>
    cases hReceiver' with
    | deploy => simp at hSame
    | address a' part' hField' =>
      simp only [List.cons_append, List.cons.injEq, true_and] at hSame
      rcases hField.append_inj hField' a.isLt a'.isLt hSame with ⟨hNumber, hRest⟩
      exact ⟨congrArg some (BitVec.eq_of_toNat_eq hNumber), hRest⟩

theorem L2Tx.Fits.chainId_lt {tx : L2Tx} (hFits : tx.Fits) : tx.chainId.getD 0 < 2 ^ 64 := by
  cases hId : tx.chainId with
  | none => decide
  | some id => exact (hFits.chainId id hId).2

/- A text spells one transaction only. -/
theorem Spelled.agrees {tx tx' : L2Tx} {text : List Char} (hSpelled : Spelled tx text)
    (hSpelled' : Spelled tx' text) (hFits : tx.Fits) (hFits' : tx'.Fits) : tx.Agrees tx' := by
  rcases hSpelled with ⟨_, _, _, _, _, _, _, content, _, sender, hText, hChain, hNonce, hPrice,
    hGas, hReceiver, hValue, hSize, hContent, hSender⟩
  rcases hSpelled' with ⟨_, _, _, _, _, _, _, content', _, sender', hText', hChain', hNonce',
    hPrice', hGas', hReceiver', hValue', hSize', hContent', hSender'⟩
  rw [hText] at hText'
  rcases hChain.type_inj hChain' hText' with ⟨hZero, hRest⟩
  rcases hNonce.append_inj hNonce' tx.nonce.isLt tx'.nonce.isLt hRest with ⟨hNonceEq, hRest⟩
  rcases hPrice.append_inj hPrice' (BitVec.isLt _) (BitVec.isLt _) hRest with ⟨hPriceEq, hRest⟩
  rcases hGas.append_inj hGas' (BitVec.isLt _) (BitVec.isLt _) hRest with ⟨hGasEq, hRest⟩
  rcases hReceiver.append_inj hReceiver' hRest with ⟨hTo, hRest⟩
  rcases hValue.append_inj hValue' (BitVec.isLt _) (BitVec.isLt _) hRest with ⟨hValueEq, hRest⟩
  rcases hSize.append_inj hSize' hFits.data hFits'.data hRest with ⟨hSizeEq, hRest⟩
  have hData' := Bytes.toNat_lt tx'.data
  rw [← hSizeEq] at hContent' hData'
  rcases hContent.append_inj hContent' (Bytes.toNat_lt _) hData' hRest with ⟨hDataEq, hRest⟩
  rcases hChain.append_inj hChain' hZero hFits.chainId_lt hFits'.chainId_lt hRest with
    ⟨hIdEq, hRest⟩
  have hFrom : tx.fromAddress.toNat = tx'.fromAddress.toNat := by
    rw [← hSender.number, ← hSender'.number, hRest]
  exact ⟨hIdEq, BitVec.eq_of_toNat_eq hValueEq, BitVec.eq_of_toNat_eq hPriceEq,
    BitVec.eq_of_toNat_eq hNonceEq, BitVec.eq_of_toNat_eq hGasEq, hTo,
    BitVec.eq_of_toNat_eq hFrom, Bytes.toNat_inj hSizeEq hDataEq⟩

/- Transactions with the same text to hash have the same fields. -/
theorem hashInput_injective (hashing : Hashing) (tx tx' : L2Tx) (hFits : tx.Fits)
    (hFits' : tx'.Fits) (hSame : hashInput hashing tx = hashInput hashing tx') : tx.Agrees tx' := by
  rcases hashInput_spelled hashing fun id hId => (hFits.chainId id hId).1 with
    ⟨text, hText, hSpelled⟩
  rcases hashInput_spelled hashing fun id hId => (hFits'.chainId id hId).1 with
    ⟨text', hText', hSpelled'⟩
  rw [hText, hText'] at hSame
  cases hSame
  exact hSpelled.agrees hSpelled' hFits hFits'

/- A deployment without a price, and the same one at the price zero. -/
def freeDeployment (gasPrice : Option (BitVec 256)) : L2Tx :=
  ⟨some 196, some 0, gasPrice, 3, 21000, none, 7, [0x60, 0x00]⟩

theorem hashInput_injective_freeDeployment :
    (freeDeployment none).Agrees (freeDeployment (some 0)) := by
  refine hashInput_injective ⟨fun _ _ => 0, fun _ => 0⟩ _ _ ?_ ?_ rfl
  · exact ⟨fun id hId => by cases hId; decide, by decide⟩
  · exact ⟨fun id hId => by cases hId; decide, by decide⟩

end XLayerErigon.Tx
