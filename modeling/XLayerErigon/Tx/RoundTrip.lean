import XLayerErigon.Tx.DecodeStrict
import XLayerErigon.Tx.Encode

/-
  What the decoder makes of encoded batches.

  A transaction survives if its `v` is one of a signature:
  27 or 28, or at least 35.  All blocks survive, unless the
  first time of the batch begins with the byte of a marker:
  the decoder then adds an empty block in front.

  Main results:
    * `encodesTx_restoredTx`
    * `roundTrips_of_signed`
    * `decode_calculateBatchData_iff`
-/

namespace XLayerErigon.Tx

-- Fields

variable {data : BatchTxData} (tx : LegacyTx) {block : BatchBlockData} {v : BitVec 256}
  {forkID : Nat}

theorem removeLeadingZeroesFromBytes_ofNat (n : Nat) :
    removeLeadingZeroesFromBytes (Bytes.ofNat n) = Bytes.ofNat n := by
  cases hBytes : Bytes.ofNat n with
  | nil => rfl
  | cons b bs =>
    have hHead := Bytes.ofNat_head_ne_zero hBytes
    rw [removeLeadingZeroesFromBytes, List.dropWhile_cons_of_neg (by simpa using hHead)]

theorem removeLeadingZeroesFromBytes_fill (width n : Nat) :
    removeLeadingZeroesFromBytes (Bytes.fill width n) = Bytes.ofNat n := by
  rw [removeLeadingZeroesFromBytes, Bytes.fill, List.dropWhile_append_of_pos (by simp)]
  exact removeLeadingZeroesFromBytes_ofNat n

theorem setBytes_ofNat {width : Nat} (x : BitVec width) :
    setBytes width (Bytes.ofNat x.toNat) = x := by
  rw [setBytes, Bytes.toNat_ofNat, BitVec.ofNat_toNat, BitVec.setWidth_eq]

theorem setBytes_fill {width : Nat} (count : Nat) (x : BitVec width) :
    setBytes width (Bytes.fill count x.toNat) = x := by
  rw [setBytes, Bytes.toNat_fill, BitVec.ofNat_toNat, BitVec.setWidth_eq]

theorem bytesToAddress_addressBytes (address : Option Address) :
    bytesToAddress (addressBytes address) = address := by
  cases address with
  | none => rfl
  | some address =>
    have hLength : (Bytes.fill 20 address.toNat).length = 20 := Bytes.length_fill address.isLt
    simp [bytesToAddress, addressBytes, hLength, setBytes_fill]

theorem length_fill_word (x : BitVec 256) : (Bytes.fill 32 x.toNat).length = 32 :=
  Bytes.length_fill x.isLt

/- The transaction with `v` from its byte and the chain. -/
def withChain (tx : LegacyTx) (b : Byte) : Option Bytes → LegacyTx
  | none =>
      { tx with v := setBytes 256 [b], chainID := 0 }
  | some chainID =>
    { tx with
      v := BitVec.ofNat 256 (restoreV [b] (Bytes.toNat chainID))
      chainID := setBytes 256 chainID }

theorem rlpFieldsToLegacyTx_withChain (b : Byte) (others : List Bytes) :
    rlpFieldsToLegacyTx
        ([ removeLeadingZeroesFromBytes (Bytes.fill 8 tx.nonce.toNat), removeLeadingZeroesFromBytes
            (Bytes.ofNat tx.gasPrice.toNat), removeLeadingZeroesFromBytes
            (Bytes.fill 8 tx.gas.toNat), addressBytes tx.toAddress, removeLeadingZeroesFromBytes
            (Bytes.ofNat tx.value.toNat), tx.data ] ++ others) [b]
        (Bytes.fill 32 tx.r.toNat) (Bytes.fill 32 tx.s.toNat) =
      .ok (withChain tx b others.head?) := by
  cases others <;>
    simp [rlpFieldsToLegacyTx, withChain, removeLeadingZeroesFromBytes_fill,
      removeLeadingZeroesFromBytes_ofNat, setBytes_ofNat,
      setBytes_fill, bytesToAddress_addressBytes]

/- A signature that does not name a chain. -/
def PlainV (v : BitVec 256) : Prop := v = 27 ∨ v = 28

instance (v : BitVec 256) : Decidable (PlainV v) := inferInstanceAs (Decidable (v = 27 ∨ v = 28))

/- The transaction that is read back if the byte for `v` is `b`. -/
def restoredTx (tx : LegacyTx) (b : Byte) : LegacyTx := withChain tx b (if PlainV tx.v then none
    else some (Bytes.ofNat tx.getChainID.toNat))

theorem plainV_iff : PlainV v ↔ v.toNat = 27 ∨ v.toNat = 28 := by
  simp [PlainV, BitVec.toNat_eq]

theorem PlainV.deriveChainId_eq (hPlain : PlainV v) : deriveChainId v = 0 := by
  have hCases := plainV_iff.1 hPlain
  rw [deriveChainId, if_pos (by omega), if_pos (show v = 27 ∨ v = 28 from hPlain)]

theorem rlpFieldsToLegacyTx_toEncode (b : Byte) :
    rlpFieldsToLegacyTx (toEncode tx) [b] (Bytes.fill 32 tx.r.toNat) (Bytes.fill 32 tx.s.toNat) =
      .ok (restoredTx tx b) := by
  rw [toEncode, rlpFieldsToLegacyTx_withChain, restoredTx]
  by_cases hPlain : PlainV tx.v
  · have hNoChain : ¬ (tx.getChainID ≠ 0 ∨ ¬ (tx.v = 27 ∨ tx.v = 28)) := by
      rintro (hChain | hNot)
      · exact hChain hPlain.deriveChainId_eq
      · exact hNot hPlain
    rw [if_neg hNoChain, if_pos hPlain]
    rfl
  · have hChain : tx.getChainID ≠ 0 ∨ ¬ (tx.v = 27 ∨ tx.v = 28) := Or.inr hPlain
    rw [if_pos hChain, if_neg hPlain, removeLeadingZeroesFromBytes_ofNat]
    rfl

-- The Value of `v`

/- The values of `v` that a signature can have. -/
def SignatureV (v : BitVec 256) : Prop := PlainV v ∨ 35 ≤ v.toNat

/- The chain in 64 bits. -/
theorem toNat_deriveChainId_of_lt (hPlain : ¬ PlainV v) (hLt : v.toNat < 2 ^ 64) :
    (deriveChainId v).toNat = (2 ^ 64 + v.toNat - 35) % 2 ^ 64 / 2 := by
  have hV : ¬ (v = 27 ∨ v = 28) := hPlain
  rw [deriveChainId, if_pos hLt, if_neg hV, BitVec.toNat_setWidth, BitVec.toNat_udiv,
    BitVec.toNat_sub, BitVec.toNat_setWidth, show (35 : BitVec 64).toNat = 35 from rfl,
    show (2 : BitVec 64).toNat = 2 from rfl]
  omega

theorem toNat_deriveChainId (hProtected : 35 ≤ v.toNat) :
    (deriveChainId v).toNat = (v.toNat - 35) / 2 := by
  by_cases hLt : v.toNat < 2 ^ 64
  · have hPlain : ¬ PlainV v := by
      rw [plainV_iff]
      omega
    rw [toNat_deriveChainId_of_lt hPlain hLt]
    omega
  · have hBound := v.isLt
    rw [deriveChainId, if_neg hLt, BitVec.toNat_udiv, BitVec.toNat_sub,
      show (35 : BitVec 256).toNat = 35 from rfl, show (2 : BitVec 256).toNat = 2 from rfl]
    omega

theorem restoreV_eq (b : Byte) (chainID : Nat) :
    restoreV [b] chainID = b.toNat + 2 * chainID + 8 := by
  have hByte : Bytes.toNat [b] = b.toNat := by simp [Bytes.toNat]
  rw [restoreV, hByte]
  omega

/- Of another `v` no byte is read back to it. -/
theorem restoredTx_v_ne (hV : ¬ SignatureV tx.v) (b : Byte) : (restoredTx tx b).v ≠ tx.v := by
  have hPlain : ¬ PlainV tx.v := fun h => hV (Or.inl h)
  have hSmall : tx.v.toNat < 35 := by
    by_contra hGe
    exact hV (Or.inr (by omega))
  have hChain : tx.getChainID.toNat = (2 ^ 64 + tx.v.toNat - 35) % 2 ^ 64 / 2 :=
    toNat_deriveChainId_of_lt hPlain (by omega)
  have hByte := b.isLt
  intro hSame
  have hNat := congrArg BitVec.toNat hSame
  rw [restoredTx, if_neg hPlain, withChain, BitVec.toNat_ofNat, Bytes.toNat_ofNat, restoreV_eq,
    hChain] at hNat
  omega

theorem ofNat_byte {n : Nat} (hPos : 0 < n) (hLt : n < 256) :
    Bytes.ofNat n = [BitVec.ofNat 8 n] := by
  rw [Bytes.ofNat_pos hPos, Nat.div_eq_of_lt hLt, Bytes.ofNat_zero, List.nil_append]

theorem isProtectedV_of_le (hProtected : 35 ≤ v.toNat) : isProtectedV v = true := by
  unfold isProtectedV
  split
  · simp only [decide_eq_true_iff, ne_eq, BitVec.toNat_eq, BitVec.reduceToNat]
    omega
  · rfl

/- Without its chain a protected `v` is 27 or 28. -/
theorem toNat_getDecodedV (hProtected : 35 ≤ tx.v.toNat) :
    (getDecodedV tx tx.v).toNat = 27 + (tx.v.toNat - 35) % 2 := by
  have hChain : tx.getChainID.toNat = (tx.v.toNat - 35) / 2 := toNat_deriveChainId hProtected
  have hIs : tx.isProtected = true := isProtectedV_of_le hProtected
  have hValue : (tx.v.toNat : Int) + 27 - tx.getChainID.toNat * 2 - 35 =
        ((27 + (tx.v.toNat - 35) % 2 : Nat) : Int) := by
    rw [hChain]
    omega
  rw [getDecodedV, if_pos hIs, hValue, BitVec.ofInt_natCast, BitVec.toNat_ofNat]
  omega

theorem PlainV.getDecodedV_eq {tx : LegacyTx} (hPlain : PlainV tx.v) :
    getDecodedV tx tx.v = tx.v := by
  have hNot : ¬ tx.isProtected = true := by
    rw [LegacyTx.isProtected]
    rcases hPlain with hV | hV <;>
      rw [hV] <;> decide
  rw [getDecodedV, if_neg hNot]

theorem toNat_byte {n : Nat} (hLt : n < 256) : Bytes.toNat [BitVec.ofNat 8 n] = n := by
  rw [← List.nil_append [BitVec.ofNat 8 n], Bytes.toNat_concat, Bytes.toNat_nil, BitVec.toNat_ofNat]
  omega

/- The `v` of a signature is sent as one byte. -/
theorem ofNat_getDecodedV (hV : SignatureV tx.v) :
    ∃ b, Bytes.ofNat (getDecodedV tx tx.v).toNat = [b] ∧ (restoredTx tx b).v = tx.v := by
  rcases hV with hPlain | hProtected
  · have hCases := plainV_iff.1 hPlain
    refine ⟨BitVec.ofNat 8 tx.v.toNat, ?_, ?_⟩
    · rw [hPlain.getDecodedV_eq]
      exact ofNat_byte (by omega) (by omega)
    · apply BitVec.eq_of_toNat_eq
      rw [restoredTx, if_pos hPlain, withChain, setBytes, toNat_byte (by omega), BitVec.toNat_ofNat]
      omega
  · have hDecoded := toNat_getDecodedV tx hProtected
    have hChain : tx.getChainID.toNat = (tx.v.toNat - 35) / 2 := toNat_deriveChainId hProtected
    have hBound := tx.v.isLt
    have hPlain : ¬ PlainV tx.v := by
      rw [plainV_iff]
      omega
    refine ⟨BitVec.ofNat 8 (27 + (tx.v.toNat - 35) % 2), ?_, ?_⟩
    · rw [hDecoded]
      exact ofNat_byte (by omega) (by omega)
    · apply BitVec.eq_of_toNat_eq
      rw [restoredTx, if_neg hPlain, withChain, BitVec.toNat_ofNat, Bytes.toNat_ofNat, restoreV_eq,
        hChain, BitVec.toNat_ofNat]
      omega

def sentSlices (tx : LegacyTx) (b percentage : Byte) : TxSlices := ⟨Rlp.encodeToBytes (toEncode tx),
    Bytes.fill 32 tx.r.toNat, Bytes.fill 32 tx.s.toNat, [b], [percentage]⟩

/- Behind the signature any two bytes are `v` and the rest. -/
theorem encodesTx_restoredTx (hFork : 7 ≤ forkID) (tx : LegacyTx) (b percentage : Byte)
    (hSize : (Rlp.encodeToBytes (toEncode tx)).length < 2 ^ 63) :
    EncodesTx forkID (restoredTx tx b) (sentSlices tx b percentage) := by
  have hBody : ((toEncode tx).flatMap Rlp.encodeString).length < 2 ^ 64 := by
    rw [Rlp.encodeToBytes, List.length_append] at hSize
    omega
  have hPercentage : percentageLength forkID = 1 := if_pos (by omega)
  refine ⟨length_fill_word tx.r, length_fill_word tx.s, rfl,
    hPercentage.symm, toEncode tx, Rlp.decodeBytes_encodeToBytes _ hBody, ?_⟩
  exact rlpFieldsToLegacyTx_toEncode tx b

def sentV (tx : LegacyTx) : Byte := (Bytes.ofNat (getDecodedV tx tx.v).toNat).headD 0

theorem SignatureV.sentV_eq {tx : LegacyTx} (hV : SignatureV tx.v) :
    Bytes.ofNat (getDecodedV tx tx.v).toNat = [sentV tx] ∧
      (restoredTx tx (sentV tx)).toTxContent = tx.toTxContent := by
  rcases ofNat_getDecodedV tx hV with ⟨b, hBytes, hRestored⟩
  have hSent : sentV tx = b := by
    rw [sentV, hBytes]
    rfl
  refine ⟨by rw [hBytes, hSent], ?_⟩
  rw [hSent]
  have hOthers :
      (restoredTx tx b).toTxContent = { tx.toTxContent with v := (restoredTx tx b).v } := by
    unfold restoredTx
    split <;> rfl
  rw [hOthers, hRestored]

theorem transactionToL2Data_eq (hFork : 7 ≤ forkID) (tx : LegacyTx) (percentage : Byte) :
    transactionToL2Data tx forkID percentage =
      Rlp.encodeToBytes (toEncode tx) ++ Bytes.fill 32 tx.r.toNat ++
        Bytes.fill 32 tx.s.toNat ++ (Bytes.ofNat (getDecodedV tx tx.v).toNat ++ [percentage]) := by
  rw [transactionToL2Data, if_pos (by omega), List.append_assoc _ (Bytes.ofNat _)]

theorem length_transactionToL2Data_pos (hFork : 7 ≤ forkID) (tx : LegacyTx) (percentage : Byte) :
    0 < (transactionToL2Data tx forkID percentage).length := by
  rw [transactionToL2Data_eq hFork]
  simp

abbrev sentBytes (forkID : Nat) (data : BatchTxData) : Bytes :=
  transactionToL2Data data.transaction forkID data.effectiveGasPricePercentage

/- A signed transaction is sent complete. -/
theorem transactionToL2Data_slices (hFork : 7 ≤ forkID) {tx : LegacyTx} (hV : SignatureV tx.v)
    (percentage : Byte) :
    transactionToL2Data tx forkID percentage = (sentSlices tx (sentV tx) percentage).bytes := by
  rw [transactionToL2Data_eq hFork, hV.sentV_eq.1]
  simp [sentSlices, TxSlices.bytes]

-- Blocks

/- What has to survive of a block. -/
structure BlockContent where
  transactions : List TxContent
  percentages : Bytes
  deltaTimestamp : BitVec 32
  l1InfoTreeIndex : BitVec 32

def BatchBlockData.content (block : BatchBlockData) : BlockContent where
  transactions := block.transactions.map (·.transaction.toTxContent)
  percentages := block.transactions.map (·.effectiveGasPricePercentage)
  deltaTimestamp := block.deltaTimestamp
  l1InfoTreeIndex := block.l1InfoTreeIndex

def DecodedBatchL2Data.content (block : DecodedBatchL2Data) : BlockContent where
  transactions := block.transactions.map (·.toTxContent)
  percentages := block.effectiveGasPricePercentages
  deltaTimestamp := block.deltaTimestamp
  l1InfoTreeIndex := block.l1InfoTreeIndex

def sentItem (data : BatchTxData) : BatchItem :=
  .transaction (restoredTx data.transaction (sentV data.transaction))
    [data.effectiveGasPricePercentage]

def blockItems (block : BatchBlockData) : List BatchItem :=
  .marker block.deltaTimestamp block.l1InfoTreeIndex :: block.transactions.map sentItem

def restoredBlock (block : BatchBlockData) : DecodedBatchL2Data where
  transactions :=
    block.transactions.map (fun data => restoredTx data.transaction (sentV data.transaction))
  effectiveGasPricePercentages := block.transactions.map (·.effectiveGasPricePercentage)
  deltaTimestamp := block.deltaTimestamp
  l1InfoTreeIndex := block.l1InfoTreeIndex

/- All transactions of the block have a signature's `v`. -/
def BatchBlockData.Signed (block : BatchBlockData) : Prop :=
  ∀ data ∈ block.transactions, SignatureV data.transaction.v

theorem restoredBlock_content (hSigned : block.Signed) :
    (restoredBlock block).content = block.content := by
  simp [DecodedBatchL2Data.content, BatchBlockData.content, restoredBlock]
  intro data hMem
  exact (hSigned data hMem).sentV_eq.2

theorem blocksFrom_sentItems (block : DecodedBatchL2Data) (txs : List BatchTxData)
    (items : List BatchItem) :
    blocksFrom block (txs.map sentItem ++ items) =
      blocksFrom
        { block with
          transactions := block.transactions ++ txs.map (fun data =>
              restoredTx data.transaction (sentV data.transaction))
          effectiveGasPricePercentages :=
            block.effectiveGasPricePercentages ++ txs.map (·.effectiveGasPricePercentage) }
        items := by
  induction txs generalizing block with
  | nil => simp
  | cons data txs hTxs => simp [blocksFrom, sentItem, DecodedBatchL2Data.addTx, hTxs]

theorem blocksFrom_blockItems (block : DecodedBatchL2Data) (blocks : List BatchBlockData) :
    blocksFrom block (blocks.flatMap blockItems) = block :: blocks.map restoredBlock := by
  induction blocks generalizing block with
  | nil => rfl
  | cons next blocks hBlocks =>
    rw [List.flatMap_cons, blockItems, List.cons_append, blocksFrom, blocksFrom_sentItems, hBlocks]
    simp [newBlock, restoredBlock]

theorem blocksOf_blockItems (blocks : List BatchBlockData) :
    blocksOf (blocks.flatMap blockItems) = blocks.map restoredBlock := by
  cases blocks with
  | nil => rfl
  | cons block blocks =>
    rw [List.flatMap_cons, blockItems, List.cons_append,
      blocksOf, blocksFrom_sentItems, blocksFrom_blockItems]
    simp [newBlock, restoredBlock]

theorem EncodesAll.append {items items' : List BatchItem} {bytes bytes' : Bytes}
    (hItems : EncodesAll forkID items bytes) (hItems' : EncodesAll forkID items' bytes') :
    EncodesAll forkID (items ++ items') (bytes ++ bytes') := by
  induction hItems with
  | nil => exact hItems'
  | cons hItem hOthers hRest =>
    rw [List.append_assoc]
    exact .cons hItem hRest

theorem encodes_sentItem (hFork : 7 ≤ forkID) (hV : SignatureV data.transaction.v)
    (hSize : (sentBytes forkID data).length < 2 ^ 63) :
    Encodes forkID (sentItem data) (sentBytes forkID data) := by
  rw [sentBytes, transactionToL2Data_slices hFork hV] at hSize ⊢
  refine .transaction (encodesTx_restoredTx hFork _ _ _ ?_)
  simp only [sentSlices, TxSlices.bytes, List.length_append] at hSize
  omega

theorem encodesAll_sentItems (hFork : 7 ≤ forkID) (txs : List BatchTxData)
    (hSigned : ∀ data ∈ txs, SignatureV data.transaction.v)
    (hSize : (txs.flatMap (sentBytes forkID)).length < 2 ^ 63) :
    EncodesAll forkID (txs.map sentItem) (txs.flatMap (sentBytes forkID)) := by
  induction txs with
  | nil => exact .nil
  | cons data txs hTxs =>
    rw [List.flatMap_cons] at hSize ⊢
    rw [List.length_append] at hSize
    exact .cons (encodes_sentItem hFork (hSigned data (by simp)) (by omega))
      (hTxs (fun other hMem => hSigned other (List.mem_cons_of_mem _ hMem)) (by omega))

theorem length_fill_half (x : BitVec 32) : (Bytes.fill 4 x.toNat).length = 4 :=
  Bytes.length_fill x.isLt

theorem encodes_startBlock (forkID : Nat) (deltaTimestamp l1InfoTreeIndex : BitVec 32) :
    Encodes forkID (.marker deltaTimestamp l1InfoTreeIndex)
      (generateStartBlockBatchL2Data deltaTimestamp l1InfoTreeIndex) :=
  .marker ⟨length_fill_half _, length_fill_half _,
    setBytes_fill 4 deltaTimestamp, setBytes_fill 4 l1InfoTreeIndex⟩

/- A batch of signed transactions is sent complete. -/
theorem encodesAll_calculateBatchData (hFork : 7 ≤ forkID) (blocks : List BatchBlockData)
    (hForks : ∀ block ∈ blocks, block.forkId = forkID) (hSigned : ∀ block ∈ blocks, block.Signed)
    (hSize : (calculateBatchData blocks).length < 2 ^ 63) :
    EncodesAll forkID (blocks.flatMap blockItems) (calculateBatchData blocks) := by
  induction blocks with
  | nil => exact .nil
  | cons block blocks hBlocks =>
    rw [calculateBatchData, List.flatMap_cons] at hSize ⊢
    rw [List.length_append] at hSize
    rw [List.flatMap_cons]
    refine EncodesAll.append ?_ (hBlocks (fun other hMem =>
      hForks other (List.mem_cons_of_mem _ hMem)) (fun other hMem =>
          hSigned other (List.mem_cons_of_mem _ hMem))
        (by rw [calculateBatchData]; omega))
    have hThis : block.forkId = forkID := hForks block (by simp)
    rw [generateBlockBatchL2Data, hThis, if_pos hFork] at hSize ⊢
    rw [List.length_append] at hSize
    exact .cons (encodes_startBlock forkID _ _)
      (encodesAll_sentItems hFork block.transactions (hSigned block (by simp))
        (Nat.lt_of_le_of_lt ((Nat.le_add_left _ _).trans (Nat.le_add_right _ _)) hSize))

/- The first byte of a time. -/
theorem head_fill_half (x : BitVec 32) :
    (Bytes.fill 4 x.toNat).head? = some (BitVec.ofNat 8 (x.toNat / 2 ^ 24)) := by
  have hLength := length_fill_half x
  have hNat := Bytes.toNat_fill 4 x.toNat
  rcases List.exists_cons_of_length_eq_add_one hLength with ⟨b, bs, hBytes⟩
  rw [hBytes, List.length_cons, Nat.add_right_cancel_iff] at hLength
  have hRest := Bytes.toNat_lt bs
  rw [hLength] at hRest
  rw [hBytes, Bytes.toNat_cons, hLength] at hNat
  have hHead : b.toNat = x.toNat / 2 ^ 24 := by omega
  rw [hBytes, List.head?_cons, ← hHead, BitVec.ofNat_toNat, BitVec.setWidth_eq]

/- The first time of the batch begins like a marker. -/
def MarkerTime (blocks : List BatchBlockData) : Prop :=
  ∃ first, blocks.head? = some first ∧ first.deltaTimestamp.toNat / 2 ^ 24 = 11

theorem calculateBatchData_cons (hFork : 7 ≤ forkID) (block : BatchBlockData)
    (hThis : block.forkId = forkID) (blocks : List BatchBlockData) :
    ∃ rest, calculateBatchData (block :: blocks) =
      generateStartBlockBatchL2Data block.deltaTimestamp block.l1InfoTreeIndex ++ rest := by
  refine ⟨block.transactions.flatMap (sentBytes block.forkId) ++ calculateBatchData blocks, ?_⟩
  rw [calculateBatchData, List.flatMap_cons, generateBlockBatchL2Data, hThis, if_pos hFork,
    List.append_assoc]
  rfl

section Fork

variable (hFork : 7 ≤ forkID) (blocks : List BatchBlockData)
  (hForks : ∀ block ∈ blocks, block.forkId = forkID)
include hFork hForks

/- Only a first time like a marker adds a block in front. -/
theorem leadBlocks_calculateBatchData :
    (MarkerTime blocks → leadBlocks (calculateBatchData blocks) = [emptyData]) ∧
    (¬ MarkerTime blocks → leadBlocks (calculateBatchData blocks) = []) := by
  cases blocks with
  | nil =>
    refine ⟨?_, fun _ => rfl⟩
    rintro ⟨first, hFirst, -⟩
    cases hFirst
  | cons block blocks =>
    rcases calculateBatchData_cons hFork block (hForks block (by simp)) blocks with ⟨rest, hData⟩
    have hTop : block.deltaTimestamp.toNat / 2 ^ 24 < 256 := by
      have hLt := block.deltaTimestamp.isLt
      omega
    have hSecond : (calculateBatchData (block :: blocks)).tail.head? =
          some (BitVec.ofNat 8 (block.deltaTimestamp.toNat / 2 ^ 24)) := by
      rw [hData, generateStartBlockBatchL2Data, List.cons_append, List.tail_cons,
        List.append_assoc, List.head?_append, head_fill_half]
      rfl
    have hFirst : (calculateBatchData (block :: blocks)).head? = some 11 := by
      rw [hData]
      rfl
    refine ⟨?_, ?_⟩
    · rintro ⟨first, hHead, hEleven⟩
      cases hHead
      rw [leadBlocks, hSecond, hEleven, if_pos ⟨hFirst, rfl⟩]
    · intro hNot
      have hOther : block.deltaTimestamp.toNat / 2 ^ 24 ≠ 11 :=
        fun hEleven => hNot ⟨block, rfl, hEleven⟩
      rw [leadBlocks, hSecond, if_neg]
      rintro ⟨-, hEleven⟩
      have hNat := congrArg BitVec.toNat (Option.some.inj hEleven)
      rw [BitVec.toNat_ofNat] at hNat
      simp at hNat
      omega

/- The blocks that are read back, and that they are those. -/
def RoundTrips (forkID : Nat) (blocks : List BatchBlockData) : Prop :=
  ∃ result steps, (∀ fuel, steps ≤ fuel →
      decodeBatchL2Blocks fuel (calculateBatchData blocks) forkID = some (.ok ⟨result, none⟩)) ∧
    result.map (·.content) = blocks.map (·.content)

theorem roundTrips_of_signed (hSize : (calculateBatchData blocks).length < 2 ^ 63)
    (hSigned : ∀ block ∈ blocks, block.Signed) (hTime : ¬ MarkerTime blocks) :
    RoundTrips forkID blocks := by
  have hItems := encodesAll_calculateBatchData hFork blocks hForks hSigned hSize
  refine ⟨blocks.map restoredBlock, (blocks.flatMap blockItems).length + 1, ?_, ?_⟩
  · intro fuel hFuel
    rw [decodeBatchL2Blocks_complete hSize hItems hFuel, (leadBlocks_calculateBatchData hFork blocks
      hForks).2 hTime, blocksOf_blockItems, List.nil_append]
  · rw [List.map_map]
    apply List.map_congr_left
    intro block hMem
    exact restoredBlock_content (hSigned block hMem)

end Fork

-- What a Run Keeps

/-
  The blocks that were closed, and transactions of the next one: it is open still, or it was
  closed behind them.
-/
def Kept (closed : List DecodedBatchL2Data) (txs : List LegacyTx) (st : DecodeState) : Prop :=
  (st.result = closed ∧ txs <+: st.currentData.transactions) ∨
  ∃ block more, st.result = closed ++ block :: more ∧ txs <+: block.transactions

theorem Kept.absorb {closed : List DecodedBatchL2Data} {txs : List LegacyTx} {st : DecodeState}
    (hKept : Kept closed txs st) (hPos : 0 < st.pos) (item : BatchItem) (bytes : Bytes) :
    Kept closed txs (st.absorb item bytes) := by
  cases item with
  | marker deltaTimestamp l1InfoTreeIndex =>
    have hResult : (st.absorb
          (.marker deltaTimestamp l1InfoTreeIndex) bytes).result = st.result ++ [st.sealed] := by
      simp [DecodeState.absorb, DecodeState.nextBlock, endsHere, hPos]
    right
    rcases hKept with ⟨hClosed, hTxs⟩ | ⟨block, more, hClosed, hTxs⟩
    · exact ⟨st.sealed, [], by rw [hResult, hClosed], hTxs⟩
    · exact ⟨block, more ++ [st.sealed], by rw [hResult, hClosed]; simp, hTxs⟩
  | transaction tx percentage =>
    rcases hKept with ⟨hClosed, hTxs⟩ | ⟨block, more, hClosed, hTxs⟩
    · exact Or.inl ⟨hClosed, hTxs.trans (List.prefix_append _ _)⟩
    · exact Or.inr ⟨block, more, hClosed, hTxs⟩

/- What is kept is still there in the result. -/
theorem decodeLoop_kept {txsData : Bytes} (hLen : txsData.length < 2 ^ 63)
    {closed : List DecodedBatchL2Data} {txs : List LegacyTx} (fuel : Nat) (st : DecodeState)
    (hPos : 0 < st.pos) (hKept : Kept closed txs st) {ret : DecodeReturn}
    (hRun : decodeLoop txsData forkID fuel st = some (.ok ret)) :
    ret.result = closed ∨
      ∃ block more, ret.result = closed ++ block :: more ∧ txs <+: block.transactions := by
  induction fuel generalizing st with
  | zero => cases hRun
  | succ fuel hFuel =>
    have hHere : st.result = closed ∨
          ∃ block more, st.result = closed ++ block :: more ∧ txs <+: block.transactions :=
      hKept.imp_left And.left
    by_cases hLt : st.pos < txsData.length
    · have hOutcome := @decodeStep_cases txsData _ forkID st hLen hLt rfl
      rw [decodeLoop, if_pos hLt] at hRun
      generalize decodeStep txsData forkID st = outcome at hOutcome hRun
      cases hOutcome with
      | item hRest hItem =>
        have hMove := hItem.absorb_pos st
        exact hFuel _ (by omega) (hKept.absorb hPos _ _) hRun
      | cutMarker hCut => cases hRun
      | cutLength hCut =>
        cases hRun
        exact hHere
      | invalid err =>
        cases hRun
        exact hHere
    · rw [decodeLoop, if_neg hLt] at hRun
      cases hRun
      right
      rcases hKept with ⟨hClosed, hTxs⟩ | ⟨block, more, hClosed, hTxs⟩
      · exact ⟨st.sealed, [], by rw [DecodeState.finish, hClosed], hTxs⟩
      · exact ⟨block, more ++ [st.sealed], by rw [DecodeState.finish, hClosed]; simp, hTxs⟩

/- A batch can be cut in front of any transaction. -/
theorem calculateBatchData_split (before after : List BatchBlockData) (block : BatchBlockData)
    (txs others : List BatchTxData) (hTxs : block.transactions = txs ++ others) :
    calculateBatchData (before ++ block :: after) =
      calculateBatchData (before ++ [{ block with transactions := txs }]) ++
        (others.flatMap (sentBytes block.forkId) ++ calculateBatchData after) := by
  simp [calculateBatchData, generateBlockBatchL2Data, hTxs]

/-
  If a batch is read back, then the decoder gets past the signed transactions in front of any
  other one.
-/
theorem RoundTrips.front (hFork : 7 ≤ forkID) {before after : List BatchBlockData}
    {txs others : List BatchTxData} (hTxs : block.transactions = txs ++ others)
    (hForks : ∀ other ∈ before ++ block :: after, other.forkId = forkID)
    (hSize : (calculateBatchData (before ++ block :: after)).length < 2 ^ 63)
    (hBefore : ∀ other ∈ before, other.Signed)
    (hTxsSigned : ∀ other ∈ txs, SignatureV other.transaction.v)
    (hTrip : RoundTrips forkID (before ++ block :: after)) :
    ∃ st result fuel lead,
      (0 < st.pos ∧ st.pos =
        (calculateBatchData (before ++ [{ block with transactions := txs }])).length) ∧
      st.result ++ [st.sealed] =
        lead ++ (before ++ [{ block with transactions := txs }]).map restoredBlock ∧
      ((MarkerTime (before ++ block :: after) → lead = [emptyData]) ∧
        (¬ MarkerTime (before ++ block :: after) → lead = [])) ∧
      decodeLoop (calculateBatchData (before ++ block :: after)) forkID (fuel + 1) st =
        some (.ok ⟨result, none⟩) ∧
      result.map (·.content) = (before ++ block :: after).map (·.content) := by
  obtain ⟨result, steps, hRun, hContent⟩ := hTrip
  have hTime : MarkerTime (before ++ [{ block with transactions := txs }]) ↔
      MarkerTime (before ++ block :: after) := by
    cases before <;> simp [MarkerTime]
  have hForksCut : ∀ other ∈ before ++ [{ block with transactions := txs }],
      other.forkId = forkID := by
    intro other hMem
    rcases List.mem_append.1 hMem with hFront | hLast
    · exact hForks other (by simp [hFront])
    · rw [List.mem_singleton.1 hLast]
      exact hForks block (by simp)
  have hSigned : ∀ other ∈ before ++ [{ block with transactions := txs }],
      BatchBlockData.Signed other := by
    intro other hMem
    rcases List.mem_append.1 hMem with hFront | hLast
    · exact hBefore other hFront
    · rw [List.mem_singleton.1 hLast]
      exact hTxsSigned
  rw [calculateBatchData_split before after block txs others hTxs] at hRun hSize ⊢
  rw [← hTime]
  have hNotNil : before ++ [{ block with transactions := txs }] ≠ [] := by simp
  generalize before ++ [{ block with transactions := txs }] = cut at *
  have hItems := encodesAll_calculateBatchData hFork cut hForksCut hSigned (by
    rw [List.length_append] at hSize
    omega)
  rcases hItems.passes startDecode with ⟨st, hPasses⟩
  rcases hPasses.decodeLoop_eq hSize (Nat.zero_le _) rfl with ⟨hPos, hLoop⟩
  have hAt : st.pos = (calculateBatchData cut).length := by simpa [startDecode] using hPos
  have hBlocks := blocksOf_blockItems cut
  have hLead := leadBlocks_calculateBatchData hFork cut hForksCut
  cases cut with
  | nil => exact absurd rfl hNotNil
  | cons first blocks =>
    rcases calculateBatchData_cons hFork first (hForksCut first (by simp)) blocks with
      ⟨others, hData⟩
    have hPositive : 0 < st.pos := by
      rw [hAt, hData]
      simp [generateStartBlockBatchL2Data]
    refine ⟨st, result, steps, _, ⟨hPositive, hAt⟩, ?_, hLead, ?_, hContent⟩
    · rw [List.flatMap_cons, blockItems, List.cons_append] at hPasses hBlocks
      rw [hPasses.start_blocks_eq, hBlocks]
    · have hEnds := hRun (((first :: blocks).flatMap blockItems).length + (steps + 1)) (by omega)
      rw [decodeBatchL2Blocks, if_neg (by rw [List.length_append]; omega)] at hEnds
      exact (hLoop _).symm.trans hEnds

theorem roundTrips_not_markerTime (hFork : 7 ≤ forkID) (blocks : List BatchBlockData)
    (hForks : ∀ block ∈ blocks, block.forkId = forkID)
    (hSize : (calculateBatchData blocks).length < 2 ^ 63) (hTrip : RoundTrips forkID blocks) :
    ¬ MarkerTime blocks := by
  intro hTime
  cases blocks with
  | nil => simp [MarkerTime] at hTime
  | cons first blocks =>
    rcases @RoundTrips.front first _ hFork [] blocks [] _ rfl hForks hSize (by simp) (by simp) hTrip
      with ⟨st, result, fuel, lead, ⟨hPos, -⟩, hBlocks, hLead, hEnds, hContent⟩
    rw [hLead.1 hTime] at hBlocks
    have hResult : st.result = [emptyData] := (List.append_inj' hBlocks rfl).1
    have hKept : Kept [emptyData] [] st := Or.inl ⟨hResult, List.nil_prefix⟩
    have hFront : ∃ more, result = emptyData :: more := by
      rcases decodeLoop_kept hSize _ st hPos hKept hEnds with hSame | ⟨next, more, hSame, -⟩
      · exact ⟨[], hSame⟩
      · exact ⟨next :: more, hSame⟩
    rcases hFront with ⟨more, rfl⟩
    have hZero : first.deltaTimestamp = 0 :=
      (congrArg BlockContent.deltaTimestamp (List.cons.inj hContent).1).symm
    simp [MarkerTime, hZero] at hTime

/- Either all members of a list have it, or a first has not. -/
theorem forall_or_exists_first {α : Type} (P : α → Prop) (xs : List α) :
    (∀ x ∈ xs, P x) ∨
      ∃ before x after, xs = before ++ x :: after ∧ (∀ y ∈ before, P y) ∧ ¬ P x := by
  classical
  cases hFind : xs.find? (fun x => ¬ P x) with
  | none => exact Or.inl (by simpa using hFind)
  | some x =>
    obtain ⟨hNot, before, after, hSplit, hBefore⟩ := List.find?_eq_some_iff_append.mp hFind
    exact Or.inr ⟨before, x, after, hSplit, by simpa using hBefore, by simpa using hNot⟩

/- A signature without a byte behind `v` is invalid. -/
theorem decodeStep_unfinished (hFork : 7 ≤ forkID) {txsData : Bytes}
    (hLen : txsData.length < 2 ^ 63) (tx : LegacyTx) (b : Byte) (st : DecodeState)
    (hPos : st.pos ≤ txsData.length)
    (hDrop : txsData.drop st.pos = Rlp.encodeToBytes (toEncode tx) ++ Bytes.fill 32 tx.r.toNat ++
      Bytes.fill 32 tx.s.toNat ++ [b]) :
    decodeStep txsData forkID st = .ok (.inl ⟨st.result, some errInvalidData⟩) := by
  have hTotal := length_of_drop hPos hDrop
  simp only [List.length_append, length_fill_word, List.length_singleton] at hTotal
  have hBody : ((toEncode tx).flatMap Rlp.encodeString).length < 2 ^ 64 := by
    rw [Rlp.encodeToBytes, List.length_append] at hTotal
    omega
  rcases Rlp.spans_of_decodeBytes (Rlp.decodeBytes_encodeToBytes _ hBody) with
    ⟨tag, content, hInfo, hSpans⟩
  have hCons : txsData.drop st.pos =
        tag :: (content ++ (Bytes.fill 32 tx.r.toNat ++ (Bytes.fill 32 tx.s.toNat ++ [b]))) := by
    rw [hDrop, hInfo]
    simp
  have hPercentage : percentageLength forkID = 1 := if_pos (by omega)
  rw [hInfo, List.length_cons] at hTotal
  rw [decodeStep_of_spans hLen hSpans hCons]
  exact readTx_short hLen (by omega) hPos (by omega)

/- A round over the bytes of any transaction fails or reads it back with some byte for `v`. -/
theorem decodeStep_sent (hFork : 7 ≤ forkID) {txsData rest : Bytes} (hLen : txsData.length < 2 ^ 63)
    (data : BatchTxData) (st : DecodeState) (hPos : st.pos ≤ txsData.length)
    (hDrop : txsData.drop st.pos = sentBytes forkID data ++ rest) :
    (∃ err, decodeStep txsData forkID st = .ok (.inl ⟨st.result, some err⟩)) ∨
    ∃ b percentage endPos, st.pos < endPos ∧
      decodeStep txsData forkID st =
        .ok (.inr (st.addTx (restoredTx data.transaction b) percentage endPos)) := by
  rw [sentBytes, transactionToL2Data_eq hFork, List.append_assoc] at hDrop
  have hTotal := length_of_drop hPos hDrop
  cases hTail :
      Bytes.ofNat (getDecodedV data.transaction data.transaction.v).toNat ++
        [data.effectiveGasPricePercentage] ++ rest with
  | nil => simp at hTail
  | cons b tail =>
    rw [hTail] at hDrop
    cases tail with
    | nil =>
      left
      exact ⟨errInvalidData, decodeStep_unfinished hFork hLen data.transaction b st hPos hDrop⟩
    | cons percentage more =>
      right
      have hSlices :
          txsData.drop st.pos = (sentSlices data.transaction b percentage).bytes ++ more := by
        rw [hDrop]
        simp [sentSlices, TxSlices.bytes]
      have hSize : (Rlp.encodeToBytes (toEncode data.transaction)).length < 2 ^ 63 := by
        simp only [List.length_append] at hTotal
        omega
      have hStep := decodeStep_transaction hSlices hLen
          (encodesTx_restoredTx hFork data.transaction b percentage hSize) hPos
      refine ⟨b, [percentage], _, ?_, hStep⟩
      simp [sentSlices, TxSlices.bytes]

/- Blocks with one content agree where both have a start. -/
theorem content_prefix {decoded : DecodedBatchL2Data} {txs others : List BatchTxData}
    {read : LegacyTx} (hTxs : block.transactions = txs ++ data :: others)
    (hContent : decoded.content = block.content) {front : List LegacyTx}
    (hFront : front.length = txs.length) (hPrefix : front ++ [read] <+: decoded.transactions) :
    read.toTxContent = data.transaction.toTxContent := by
  rcases hPrefix with ⟨more, hDecoded⟩
  have hMap := congrArg BlockContent.transactions hContent
  simp only [DecodedBatchL2Data.content, BatchBlockData.content, hTxs, ← hDecoded,
    List.map_append, List.map_cons, List.append_assoc, List.singleton_append] at hMap
  have hSame := (List.append_inj hMap (by simpa using hFront)).2
  exact (List.cons.inj hSame).1

/- The first transaction without a signature's `v` is not read back. -/
theorem not_roundTrips_of_unsigned (hFork : 7 ≤ forkID) {before after : List BatchBlockData}
    {txs others : List BatchTxData} (hTxs : block.transactions = txs ++ data :: others)
    (hForks : ∀ other ∈ before ++ block :: after, other.forkId = forkID)
    (hSize : (calculateBatchData (before ++ block :: after)).length < 2 ^ 63)
    (hTime : ¬ MarkerTime (before ++ block :: after)) (hBefore : ∀ other ∈ before, other.Signed)
    (hTxsSigned : ∀ other ∈ txs, SignatureV other.transaction.v)
    (hUnsigned : ¬ SignatureV data.transaction.v) :
    ¬ RoundTrips forkID (before ++ block :: after) := by
  intro hTrip
  have hThis : block.forkId = forkID := hForks block (by simp)
  subst hThis
  rcases hTrip.front hFork hTxs hForks hSize hBefore hTxsSigned with
    ⟨st, result, fuel, lead, ⟨hPos, hAt⟩, hBlocks, hLead, hEnds, hContent⟩
  rw [hLead.2 hTime, List.nil_append, List.map_append] at hBlocks
  rcases List.append_inj' hBlocks rfl with ⟨hResult, hLast⟩
  have hCurrent : st.currentData.transactions = txs.map (fun data =>
      restoredTx data.transaction (sentV data.transaction)) :=
    congrArg DecodedBatchL2Data.transactions (List.cons.inj hLast).1
  rw [calculateBatchData_split before after block txs (data :: others) hTxs, List.flatMap_cons,
    List.append_assoc] at hSize hEnds
  generalize others.flatMap (sentBytes block.forkId) ++
    calculateBatchData after = rest at hSize hEnds
  generalize hData : calculateBatchData (before ++ [{ block with transactions := txs }]) ++
      (sentBytes block.forkId data ++ rest) = txsData at hSize hEnds
  have hDrop : txsData.drop st.pos = sentBytes block.forkId data ++ rest := by
    rw [← hData, hAt, List.drop_left]
  have hMore : st.pos < txsData.length := by
    have hSent : 0 < (sentBytes block.forkId data).length :=
      length_transactionToL2Data_pos hFork _ _
    rw [← hData, hAt, List.length_append, List.length_append]
    omega
  rw [decodeLoop, if_pos hMore] at hEnds
  rcases decodeStep_sent hFork hSize data st hMore.le hDrop
    with ⟨err, hStep⟩ | ⟨b, percentage, endPos, hLt, hStep⟩
  · rw [hStep] at hEnds
    cases hEnds
  · rw [hStep] at hEnds
    have hKept : Kept (before.map restoredBlock)
          (st.currentData.transactions ++ [restoredTx data.transaction b])
          (st.addTx (restoredTx data.transaction b) percentage endPos) :=
      Or.inl ⟨hResult, List.prefix_refl _⟩
    rcases decodeLoop_kept hSize fuel _ (by
      show 0 < endPos
      omega) hKept hEnds with hShort | ⟨decoded, more, hLong, hPrefix⟩
    · have hCount := congrArg List.length hContent
      have hLengths := congrArg List.length hShort
      simp at hCount hLengths
      omega
    · have hSame : decoded.content = block.content := by
        change result = before.map restoredBlock ++ decoded :: more at hLong
        rw [hLong, List.map_append, List.map_append] at hContent
        have hBehind := (List.append_inj hContent (by simp)).2
        exact (List.cons.inj hBehind).1
      have hRead := content_prefix hTxs hSame (by rw [hCurrent, List.length_map]) hPrefix
      exact restoredTx_v_ne data.transaction hUnsigned b (congrArg TxContent.v hRead)

theorem roundTrips_signed (hFork : 7 ≤ forkID) (blocks : List BatchBlockData)
    (hForks : ∀ block ∈ blocks, block.forkId = forkID)
    (hSize : (calculateBatchData blocks).length < 2 ^ 63) (hTrip : RoundTrips forkID blocks) :
    ∀ block ∈ blocks, block.Signed := by
  have hTime := roundTrips_not_markerTime hFork blocks hForks hSize hTrip
  rcases forall_or_exists_first BatchBlockData.Signed blocks
    with hAll | ⟨before, block, after, hSplit, hBefore, hNot⟩
  · exact hAll
  · exfalso
    rcases forall_or_exists_first (fun data : BatchTxData =>
      SignatureV data.transaction.v) block.transactions with
      hAll | ⟨txs, data, others, hTxs, hTxsSigned, hUnsigned⟩
    · exact hNot hAll
    · subst hSplit
      exact not_roundTrips_of_unsigned hFork hTxs hForks hSize
        hTime hBefore hTxsSigned hUnsigned hTrip

/-
  A batch is read back exactly if every `v` is one of a signature and the first time does not
  begin with the byte of a marker.
-/
theorem decode_calculateBatchData_iff (forkID : Nat) (hFork : 7 ≤ forkID)
    (blocks : List BatchBlockData) (hForks : ∀ block ∈ blocks, block.forkId = forkID)
    (hSize : (calculateBatchData blocks).length < 2 ^ 63) :
    RoundTrips forkID blocks ↔
      (∀ block ∈ blocks, ∀ data ∈ block.transactions, SignatureV data.transaction.v) ∧
      ¬ MarkerTime blocks := by
  constructor
  · intro hTrip
    exact
      ⟨roundTrips_signed hFork blocks hForks hSize hTrip,
        roundTrips_not_markerTime hFork blocks hForks hSize hTrip⟩
  · rintro ⟨hSigned, hTime⟩
    exact roundTrips_of_signed hFork blocks hForks hSize hSigned hTime

/- A transfer of nothing, signed without a chain. -/
def sampleTx : LegacyTx where
  nonce := 0
  gasPrice := 0
  gas := 0
  toAddress := none
  value := 0
  data := []
  v := 27
  r := 1
  s := 1
  chainID := 0

def sampleBlock : BatchBlockData where
  l1InfoTreeIndex := 0
  transactions := [⟨sampleTx, 255⟩]
  forkId := 12
  deltaTimestamp := 5

theorem sampleBlock_size : (calculateBatchData [sampleBlock]).length < 2 ^ 63 := by
  have hV : SignatureV sampleTx.v := Or.inl (Or.inl rfl)
  have hFields : toEncode sampleTx = [[], [], [], [], [], []] := by
    have hZero : removeLeadingZeroesFromBytes (Bytes.fill 8 0) = [] := by
      rw [removeLeadingZeroesFromBytes_fill]
      simp
    have hNil : removeLeadingZeroesFromBytes [] = [] := rfl
    simp [toEncode, sampleTx, LegacyTx.getChainID, hZero, hNil, deriveChainId, addressBytes]
  have hInfo : (Rlp.encodeToBytes [[], [], [], [], [], []]).length = 7 := by decide
  have hTx : (transactionToL2Data sampleTx 12 255).length = 73 := by
    rw [transactionToL2Data_slices (by decide) hV]
    simp only [sentSlices, TxSlices.bytes, hFields, List.length_append, hInfo, length_fill_word,
      List.length_singleton]
  have hLength : (calculateBatchData [sampleBlock]).length = 82 := by
    simp only [calculateBatchData, sampleBlock,
      List.flatMap_cons, List.flatMap_nil, List.append_nil, generateBlockBatchL2Data,
      generateStartBlockBatchL2Data, List.length_append, List.length_cons, length_fill_half, hTx,
      if_pos (show 7 ≤ 12 by decide)]
  omega

theorem decode_calculateBatchData_iff_sample :
    (calculateBatchData [sampleBlock]).length < 2 ^ 63 ∧ RoundTrips 12 [sampleBlock] := by
  refine ⟨sampleBlock_size,
    (decode_calculateBatchData_iff 12 (by decide)
      [sampleBlock] (by simp [sampleBlock]) sampleBlock_size).2 ⟨?_, ?_⟩⟩
  · intro block hBlock data hData
    rw [List.mem_singleton.1 hBlock] at hData
    rw [List.mem_singleton.1 hData]
    exact Or.inl (Or.inl rfl)
  · rintro ⟨first, hFirst, hEleven⟩
    cases hFirst
    exact absurd hEleven (by decide)

/- An empty block whose time begins with the byte 11. -/
def elevenBlock : BatchBlockData where
  l1InfoTreeIndex := 0
  transactions := []
  forkId := 12
  deltaTimestamp := 0x0b000000

theorem not_roundTrips_elevenBlock :
    (calculateBatchData [elevenBlock]).length < 2 ^ 63 ∧ ¬ RoundTrips 12 [elevenBlock] := by
  have hSize : (calculateBatchData [elevenBlock]).length < 2 ^ 63 := by
    have hLength : (calculateBatchData [elevenBlock]).length = 9 := by
      simp only [calculateBatchData, elevenBlock, List.flatMap_cons, List.flatMap_nil,
        List.append_nil, generateBlockBatchL2Data,
        generateStartBlockBatchL2Data, List.length_append, List.length_cons, length_fill_half,
        if_pos (show 7 ≤ 12 by decide)]
    omega
  refine ⟨hSize, fun hTrip => ?_⟩
  exact roundTrips_not_markerTime (by decide) [elevenBlock] (by simp [elevenBlock]) hSize hTrip
    ⟨elevenBlock, rfl, rfl⟩

end XLayerErigon.Tx
