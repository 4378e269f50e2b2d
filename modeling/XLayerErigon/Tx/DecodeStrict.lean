import XLayerErigon.Tx.Decode

/-
  Which byte strings the decoder of batches accepts.

  A string is complete if it is a sequence of markers and transactions.  One round of the loop
  reads one of them.  Two kinds of truncated data get past the checks: a marker cut short panics,
  and a list cut within its length returns without an error.

  Main results:
    * `decodeStep_item`
    * `decodeStep_cases`
    * `decodeBatchL2Blocks_strict_iff`
-/

namespace XLayerErigon.Tx

-- Complete Data

inductive BatchItem where
  | marker (deltaTimestamp l1InfoTreeIndex : BitVec 32)
  | transaction (tx : LegacyTx) (percentage : Bytes)

/- The bytes are a complete marker with these values. -/
structure EncodesMarker
    (deltaTimestamp l1InfoTreeIndex : BitVec 32) (delta index : Bytes) : Prop where
  deltaLength : delta.length = 4
  indexLength : index.length = 4
  deltaValue : setBytes 32 delta = deltaTimestamp
  indexValue : setBytes 32 index = l1InfoTreeIndex

/- The slices are a complete transaction. -/
structure EncodesTx (forkID : Nat) (tx : LegacyTx) (slices : TxSlices) : Prop where
  rLength : slices.rData.length = 32
  sLength : slices.sData.length = 32
  vLength : slices.vData.length = 1
  percentageLength : slices.percentage.length = percentageLength forkID
  decoded : ∃ fields, Rlp.decodeBytes slices.txInfo = some fields ∧
      rlpFieldsToLegacyTx fields slices.vData slices.rData slices.sData = .ok tx

/- The slices of a transaction, one after the other. -/
def TxSlices.bytes (slices : TxSlices) : Bytes :=
  slices.txInfo ++ slices.rData ++ slices.sData ++ slices.vData ++ slices.percentage

/- The bytes are exactly this item. -/
inductive Encodes (forkID : Nat) : BatchItem → Bytes → Prop where
  | marker {deltaTimestamp l1InfoTreeIndex : BitVec 32} {delta index : Bytes}
      (hMarker : EncodesMarker deltaTimestamp l1InfoTreeIndex delta index) :
      Encodes forkID (.marker deltaTimestamp l1InfoTreeIndex) (11 :: (delta ++ index))
  | transaction {tx : LegacyTx} {slices : TxSlices} (hTx : EncodesTx forkID tx slices) :
      Encodes forkID (.transaction tx slices.percentage) slices.bytes

/- The bytes are exactly these items, one after the other. -/
inductive EncodesAll (forkID : Nat) : List BatchItem → Bytes → Prop where
  | nil : EncodesAll forkID [] []
  | cons {item : BatchItem} {items : List BatchItem} {bytes rest : Bytes}
      (hItem : Encodes forkID item bytes) (hItems : EncodesAll forkID items rest) :
      EncodesAll forkID (item :: items) (bytes ++ rest)

def newBlock (deltaTimestamp l1InfoTreeIndex : BitVec 32) :
    DecodedBatchL2Data :=
  ⟨[], [], deltaTimestamp, l1InfoTreeIndex⟩

def DecodedBatchL2Data.addTx (block : DecodedBatchL2Data) (tx : LegacyTx)
    (percentage : Bytes) : DecodedBatchL2Data :=
  { block with
    transactions := block.transactions ++ [tx]
    effectiveGasPricePercentages := block.effectiveGasPricePercentages ++ percentage }

/- The blocks of the items, behind the start of a block. -/
def blocksFrom :
    DecodedBatchL2Data → List BatchItem → List DecodedBatchL2Data
  | block, [] => [block]
  | block, .marker deltaTimestamp l1InfoTreeIndex :: items =>
      block :: blocksFrom (newBlock deltaTimestamp l1InfoTreeIndex) items
  | block, .transaction tx percentage :: items =>
      blocksFrom (block.addTx tx percentage) items

/- Transactions before the first marker are a block too. -/
def blocksOf : List BatchItem → List DecodedBatchL2Data
  | [] => []
  | .marker deltaTimestamp l1InfoTreeIndex :: items =>
      blocksFrom (newBlock deltaTimestamp l1InfoTreeIndex) items
  | .transaction tx percentage :: items =>
      blocksFrom (emptyData.addTx tx percentage) items

/- A marker that ends before its nine bytes. -/
def CutMarker (rest : Bytes) : Prop := rest.head? = some 11 ∧ rest.length < 9

/- A long list that ends within the bytes of its length. -/
def CutLength (rest : Bytes) : Prop :=
  ∃ tag, rest.head? = some tag ∧ 248 ≤ tag.toNat ∧ rest.length < 1 + (tag.toNat - 247)

/- What the decoder does not report. -/
def CutShort (rest : Bytes) : Prop := CutMarker rest ∨ CutLength rest

-- One Round over an Item

section Round

variable
    {txsData rest : Bytes}
    {forkID : Nat}
    {st : DecodeState}

variable {content : Bytes}

section

variable {first : Byte} (hDrop : txsData.drop st.pos = first :: rest)

include hDrop

theorem getElem?_of_drop_cons : txsData[st.pos]? = some first := by
  have hHead := congrArg (fun l => l[0]?) hDrop
  simpa using hHead

theorem pos_lt_of_drop_cons : st.pos < txsData.length :=
  (List.getElem?_eq_some_iff.1 (getElem?_of_drop_cons hDrop)).1

theorem drop_succ_of_drop_cons : txsData.drop (st.pos + 1) = rest := by
  rw [← List.tail_drop, hDrop, List.tail_cons]

end

theorem length_of_drop (hPos : st.pos ≤ txsData.length) (hDrop : txsData.drop st.pos = rest) :
    txsData.length = st.pos + rest.length := by
  have hLength := congrArg List.length hDrop
  rw [List.length_drop] at hLength
  omega

/- Whether the marker at this place ends a block. -/
def endsHere (pos : Nat) (content : Bytes) : Bool := decide (0 < pos) || content.head? == some 11

theorem endsBlock_eq (hNotNil : content ≠ [])
    (hDrop : txsData.drop st.pos = 11 :: (content ++ rest)) :
    endsBlock txsData st.pos = .ok (endsHere st.pos content) := by
  by_cases hPos : 0 < st.pos
  · simp [endsBlock, endsHere, hPos]
  · cases content with
    | nil => exact absurd rfl hNotNil
    | cons next content =>
      have hNext : txsData[st.pos + 1]? = some next := by
        have hAt := congrArg (fun l => l[1]?) hDrop
        simpa using hAt
      simp [endsBlock, endsHere, hPos, sliceIndex_of_some hNext, Except.map]

/- A complete marker begins a block. -/
theorem decodeStep_marker {deltaTimestamp l1InfoTreeIndex : BitVec 32} {delta index : Bytes}
    (hMarker : EncodesMarker deltaTimestamp l1InfoTreeIndex delta index)
    (hDrop : txsData.drop st.pos = 11 :: (delta ++ index) ++ rest) : decodeStep txsData forkID st =
      .ok (.inr (st.nextBlock
        (endsHere st.pos (delta ++ index)) deltaTimestamp l1InfoTreeIndex)) := by
  have hCons : txsData.drop st.pos = 11 :: (delta ++ (index ++ rest)) := by simpa using hDrop
  have hPos := pos_lt_of_drop_cons hCons
  have hFirst := getElem?_of_drop_cons hCons
  have hNotNil : delta ++ index ≠ [] := by
    intro hNil
    have hLength := hMarker.deltaLength
    rw [(List.append_eq_nil_iff.1 hNil).1] at hLength
    simp at hLength
  have hEnds := endsBlock_eq hNotNil hDrop
  rcases sliceRange_next (drop_succ_of_drop_cons hCons) hPos
    (show st.pos + 5 = _ by rw [hMarker.deltaLength]) with ⟨hDelta, hAt, hPos⟩
  rcases sliceRange_next hAt hPos (show st.pos + 9 = _ by rw [hMarker.indexLength]) with
    ⟨hIndex, -, -⟩
  simp [decodeStep, sliceIndex_of_some hFirst, readMarker,
    hEnds, hDelta, hIndex, hMarker.deltaValue, hMarker.indexValue]

theorem txLength_of_spans {tag : Byte} (hLen : txsData.length < 2 ^ 63)
    (hSpans : Rlp.Spans tag content) (hDrop : txsData.drop st.pos = tag :: (content ++ rest)) :
    txLength txsData st.pos tag.toNat = .ok (.ok content.length) := by
  have hPos := pos_lt_of_drop_cons hDrop
  have hTotal := length_of_drop hPos.le hDrop
  simp only [List.length_cons, List.length_append] at hTotal
  cases hSpans with
  | short hLe hLt hLength => rw [txLength, if_pos (by omega), hLength]
  | long hLe hSize hLength =>
    have hByte := tag.isLt
    have hAt := drop_succ_of_drop_cons hDrop
    rw [← List.take_append_drop (tag.toNat - 0xF7) content, List.append_assoc] at hAt
    have hSlice := (sliceRange_next hAt hPos
      (show st.pos + 1 + tag.toNat - 247 = _ by rw [List.length_take_of_le hSize]; omega)).1
    have hSum : (Bytes.toNat (content.take (tag.toNat - 0xF7)) + tag.toNat) % 2 ^ 64 =
          content.length + 247 := by
      rw [Nat.mod_eq_of_lt (by omega)]
      omega
    rw [txLength, if_neg (by omega), if_neg (by omega), hSlice, ok_bind, hSum, if_neg (by omega),
      Nat.add_sub_cancel]

/- Slices behind a list of this length. -/
structure Sized (forkID length : Nat) (slices : TxSlices) : Prop where
  info : slices.txInfo.length = length + 1
  r : slices.rData.length = 32
  s : slices.sData.length = 32
  v : slices.vData.length = 1
  percentage : slices.percentage.length = percentageLength forkID

/- A complete list is the start of a transaction. -/
theorem decodeStep_of_spans {tag : Byte} (hLen : txsData.length < 2 ^ 63)
    (hSpans : Rlp.Spans tag content) (hDrop : txsData.drop st.pos = tag :: (content ++ rest)) :
    decodeStep txsData forkID st = readTx txsData forkID st content.length := by
  have hLe := hSpans.le_tag
  have hNotMarker : tag ≠ 11 := by
    rintro rfl
    simp at hLe
  simp only [decodeStep, sliceIndex_of_some (getElem?_of_drop_cons hDrop), ok_bind,
    if_neg hNotMarker, if_neg (Nat.not_lt.2 hLe), txLength_of_spans hLen hSpans hDrop]

section

variable {slices : TxSlices} (hDrop : txsData.drop st.pos = slices.bytes ++ rest)

include hDrop

/- The slices of a transaction that is all there. -/
theorem cutTx_eq {length : Nat} (hLen : txsData.length < 2 ^ 63)
    (hSized : Sized forkID length slices) (hPos : st.pos ≤ txsData.length) :
    cutTx txsData forkID st.pos length (st.pos + length + 66 + percentageLength forkID) =
      .ok slices := by
  rcases slices with ⟨txInfo, rData, sData, vData, percentage⟩
  rcases hSized with ⟨hInfo, hR, hS, hV, hPercentage⟩
  simp only [TxSlices.bytes] at hInfo hR hS hV hPercentage hDrop
  have hTotal := length_of_drop hPos hDrop
  simp only [List.length_append] at hTotal
  have hStart : (st.pos + length + 1) % 2 ^ 64 = st.pos + length + 1 := Nat.mod_eq_of_lt (by omega)
  have hAll := (sliceRange_next hDrop hPos
    (show st.pos + length + 66 + percentageLength forkID = _ by
      simp only [List.length_append]
      omega)).1
  -- each slice stands behind the one before it
  simp only [List.append_assoc] at hDrop
  rcases sliceRange_next hDrop hPos (show st.pos + length + 1 = _ by omega) with
    ⟨hTxInfo, hDrop, hPos⟩
  rcases sliceRange_next hDrop hPos (show st.pos + length + 1 + 32 = _ by omega) with
    ⟨hRData, hDrop, hPos⟩
  rcases sliceRange_next hDrop hPos (show st.pos + length + 1 + 64 = _ by omega) with
    ⟨hSData, hDrop, hPos⟩
  rcases sliceRange_next hDrop hPos (show st.pos + length + 1 + 65 = _ by omega) with
    ⟨hVData, hDrop, hPos⟩
  have hPercentageData := (sliceRange_next hDrop hPos
    (show st.pos + length + 66 + percentageLength forkID = _ by omega)).1
  simp only [cutTx, hAll, ok_bind, hStart, hTxInfo, hRData, hSData, hVData, hPercentageData]
  by_cases hFork : 5 ≤ forkID
  · rw [percentageLength, if_pos hFork] at hPercentage
    rcases List.length_eq_one_iff.1 hPercentage with ⟨b, rfl⟩
    simp [hFork, sliceIndex]
  · rw [percentageLength, if_neg hFork] at hPercentage
    rw [if_neg hFork, List.eq_nil_of_length_eq_zero hPercentage]

/- A complete list and enough bytes behind it are parsed. -/
theorem readTx_eq {length : Nat} (hLen : txsData.length < 2 ^ 63)
    (hSized : Sized forkID length slices) (hPos : st.pos ≤ txsData.length) :
    readTx txsData forkID st length = .ok (parseTx st slices (st.pos + slices.bytes.length)) := by
  have hTotal := length_of_drop hPos hDrop
  have hBytes : slices.bytes.length = length + 66 + percentageLength forkID := by
    simp only [TxSlices.bytes, List.length_append, hSized.info, hSized.r, hSized.s, hSized.v,
      hSized.percentage]
  rw [List.length_append] at hTotal
  have hEnd : (st.pos + length + 66 + percentageLength forkID) % 2 ^ 64 =
        st.pos + length + 66 + percentageLength forkID :=
    Nat.mod_eq_of_lt (by omega)
  have hCut := cutTx_eq hDrop hLen hSized hPos
  simp only [readTx, hEnd, hCut, ok_bind]
  rw [if_neg (by omega), if_neg (by omega), hBytes]
  simp only [Nat.add_assoc]

/- A complete transaction is added to its block. -/
theorem decodeStep_transaction {tx : LegacyTx} (hLen : txsData.length < 2 ^ 63)
    (hTx : EncodesTx forkID tx slices) (hPos : st.pos ≤ txsData.length) :
    decodeStep txsData forkID st =
      .ok (.inr (st.addTx tx slices.percentage (st.pos + slices.bytes.length))) := by
  rcases hTx.decoded with ⟨fields, hDecode, hLegacy⟩
  rcases Rlp.spans_of_decodeBytes hDecode with ⟨tag, content, hInfo, hSpans⟩
  have hCons : txsData.drop st.pos =
        tag :: (content ++ (slices.rData ++ (slices.sData ++
          (slices.vData ++ (slices.percentage ++ rest))))) := by
    rw [hDrop, TxSlices.bytes, hInfo]
    simp
  have hSized : Sized forkID content.length slices :=
    ⟨by rw [hInfo]; rfl, hTx.rLength, hTx.sLength, hTx.vLength, hTx.percentageLength⟩
  rw [decodeStep_of_spans hLen hSpans hCons, readTx_eq hDrop hLen hSized hPos]
  simp only [parseTx, hDecode, hLegacy]

end

/- The state behind an item that took up these bytes. -/
def DecodeState.absorb (st : DecodeState) (item : BatchItem) (bytes : Bytes) : DecodeState :=
  match item with
  | .marker deltaTimestamp l1InfoTreeIndex =>
    st.nextBlock (endsHere st.pos bytes.tail) deltaTimestamp l1InfoTreeIndex
  | .transaction tx percentage =>
    st.addTx tx percentage (st.pos + bytes.length)

/- A round over a complete item absorbs it. -/
theorem decodeStep_item {item : BatchItem} {bytes : Bytes} (hLen : txsData.length < 2 ^ 63)
    (hItem : Encodes forkID item bytes) (hPos : st.pos ≤ txsData.length)
    (hDrop : txsData.drop st.pos = bytes ++ rest) :
    decodeStep txsData forkID st = .ok (.inr (st.absorb item bytes)) := by
  cases hItem with
  | marker hMarker => exact decodeStep_marker hMarker hDrop
  | transaction hTx => exact decodeStep_transaction hDrop hLen hTx hPos

-- One Round over Any Data

theorem endsBlock_ok_or_panic (txsData : Bytes) (pos : Nat) :
    (∃ ends, endsBlock txsData pos = .ok ends) ∨ endsBlock txsData pos = .error .panic := by
  unfold endsBlock sliceIndex
  split
  · exact Or.inl ⟨true, rfl⟩
  · split
    · exact Or.inl ⟨_, rfl⟩
    · exact Or.inr rfl

theorem decodeStep_cutMarker (hDrop : txsData.drop st.pos = rest) (hPos : st.pos ≤ txsData.length)
    (hCut : CutMarker rest) : decodeStep txsData forkID st = .error .panic := by
  rcases hCut with ⟨hHead, hShort⟩
  cases rest with
  | nil => simp at hHead
  | cons first content =>
    have hMarker : first = 11 := by simpa using hHead
    subst hMarker
    have hFirst := getElem?_of_drop_cons hDrop
    have hTotal := length_of_drop hPos hDrop
    have hIndex : sliceRange txsData (st.pos + 5) (st.pos + 9) = .error .panic :=
      sliceRange_of_length_lt (by omega)
    have hRead : readMarker txsData st = .error .panic := by
      rcases endsBlock_ok_or_panic txsData st.pos with ⟨ends, hEnds⟩ | hEnds
      · rcases sliceRange_ok_or_panic txsData (st.pos + 1)
            (st.pos + 5) with ⟨delta, hDelta⟩ | hDelta
        · simp [readMarker, hEnds, hDelta, hIndex]
        · simp [readMarker, hEnds, hDelta]
      · simp [readMarker, hEnds]
    simp [decodeStep, sliceIndex_of_some hFirst, hRead]

/- A list that is cut within its length returns no error. -/
theorem decodeStep_cutLength (hDrop : txsData.drop st.pos = rest) (hPos : st.pos ≤ txsData.length)
    (hCut : CutLength rest) : decodeStep txsData forkID st = .ok (.inl ⟨st.result, none⟩) := by
  rcases hCut with ⟨tag, hHead, hLong, hShort⟩
  cases rest with
  | nil => simp at hHead
  | cons first content =>
    have hTag : first = tag := by simpa using hHead
    subst hTag
    have hFirst := getElem?_of_drop_cons hDrop
    have hTotal := length_of_drop hPos hDrop
    have hNotMarker : first ≠ 11 := by
      rintro rfl
      simp at hLong
    have hLength : txLength txsData st.pos first.toNat = .ok (.error none) := by
      rw [txLength, if_neg (by omega), if_pos (by omega)]
    simp only [decodeStep, sliceIndex_of_some hFirst, ok_bind, if_neg hNotMarker, hLength]
    rw [if_neg (by omega)]

/- What one round can do with the data in front of it. -/
inductive StepOutcome (forkID : Nat) (st : DecodeState) (rest : Bytes) :
    Except Failure (DecodeReturn ⊕ DecodeState) → Prop where
  | item {item : BatchItem} {bytes more : Bytes} (hRest : rest = bytes ++ more)
      (hItem : Encodes forkID item bytes) :
      StepOutcome forkID st rest (.ok (.inr (st.absorb item bytes)))
  | cutMarker (hCut : CutMarker rest) :
      StepOutcome forkID st rest (.error .panic)
  | cutLength (hCut : CutLength rest) :
      StepOutcome forkID st rest (.ok (.inl ⟨st.result, none⟩))
  | invalid (err : String) :
      StepOutcome forkID st rest (.ok (.inl ⟨st.result, some err⟩))

/- Bytes that are too few for the transaction are invalid. -/
theorem readTx_short {length : Nat} (hLen : txsData.length < 2 ^ 63)
    (hLength : length < 2 ^ 64 - 247) (hPos : st.pos ≤ txsData.length)
    (hShort : txsData.length < st.pos + length + 66 + percentageLength forkID) :
    readTx txsData forkID st length = .ok (.inl ⟨st.result, some errInvalidData⟩) := by
  have hPercentage : percentageLength forkID ≤ 1 := by
    unfold percentageLength
    split <;> omega
  simp only [readTx]
  -- past `2 ^ 64` the end wraps to a place before the start
  by_cases hBehind : txsData.length < (st.pos + length + 66 + percentageLength forkID) % 2 ^ 64
  · rw [if_pos hBehind]
  · rw [if_neg hBehind, if_pos (by omega)]

/- The bytes of a list and of what follows it, cut up. -/
theorem exists_slices {length : Nat} (hFits : length + 66 + percentageLength forkID ≤ rest.length) :
    ∃ slices more, rest = TxSlices.bytes slices ++ more ∧ Sized forkID length slices := by
  refine
    ⟨⟨rest.take (length + 1),
        (rest.drop (length + 1)).take 32,
        (rest.drop (length + 1 + 32)).take 32, (rest.drop (length + 1 + 32 + 32)).take 1,
        (rest.drop (length + 1 + 32 + 32 + 1)).take (percentageLength forkID)⟩,
      rest.drop (length + 1 + 32 + 32 + 1 + percentageLength forkID), ?_, ?_, ?_, ?_, ?_, ?_⟩
  · simp only [TxSlices.bytes, List.append_assoc]
    generalize length + 1 = start
    simp only [← List.drop_drop, List.take_append_drop]
  all_goals
    simp only [List.length_take, List.length_drop]
    omega

/- What is read as a transaction is one, or is invalid. -/
theorem readTx_outcome {length : Nat} (hLen : txsData.length < 2 ^ 63)
    (hLength : length < 2 ^ 64 - 247) (hPos : st.pos ≤ txsData.length)
    (hDrop : txsData.drop st.pos = rest) :
    StepOutcome forkID st rest (readTx txsData forkID st length) := by
  have hTotal := length_of_drop hPos hDrop
  by_cases hFits : length + 66 + percentageLength forkID ≤ rest.length
  · rcases exists_slices hFits with ⟨slices, more, hRest, hSized⟩
    rw [readTx_eq (hDrop.trans hRest) hLen hSized hPos]
    fun_cases parseTx st slices (st.pos + slices.bytes.length) with
    | case3 fields hDecode tx hLegacy =>
      exact .item hRest (.transaction
        ⟨hSized.r, hSized.s, hSized.v, hSized.percentage, fields, hDecode, hLegacy⟩)
    | _ => exact .invalid _
  · rw [readTx_short hLen hLength hPos (by omega)]
    exact .invalid _

/- A length, a list cut within it, or an invalid one. -/
theorem txLength_cases {tag : Byte} (hPos : st.pos ≤ txsData.length)
    (hDrop : txsData.drop st.pos = tag :: content) (hList : 192 ≤ tag.toNat) :
    (∃ length, length < 2 ^ 64 - 247 ∧
        txLength txsData st.pos tag.toNat = .ok (.ok length)) ∨
      (CutLength (tag :: content) ∧ txLength txsData st.pos tag.toNat = .ok (.error none)) ∨
      ∃ err, txLength txsData st.pos tag.toNat = .ok (.error (some err)) := by
  have hTotal := length_of_drop hPos hDrop
  rw [List.length_cons] at hTotal
  have hByte := tag.isLt
  by_cases hShort : tag.toNat - 192 ≤ 55
  · exact Or.inl ⟨tag.toNat - 192, by omega, if_pos hShort⟩
  · by_cases hCut : txsData.length < st.pos + 1 + tag.toNat - 247
    · refine Or.inr (Or.inl ⟨⟨tag, rfl, by omega, ?_⟩, ?_⟩)
      · rw [List.length_cons]
        omega
      · rw [txLength, if_neg hShort, if_pos hCut]
    · have hBounds :
          st.pos + 1 ≤ st.pos + 1 + tag.toNat - 247 ∧
            st.pos + 1 + tag.toNat - 247 ≤ txsData.length := by
        omega
      rw [txLength, if_neg hShort, if_neg hCut, sliceRange, if_pos hBounds, ok_bind]
      generalize
        Bytes.toNat ((txsData.take (st.pos + 1 + tag.toNat - 247)).drop (st.pos + 1)) = size
      by_cases hWrapped : (size + tag.toNat) % 2 ^ 64 < 247
      · right; right
        exact ⟨errInvalidData, if_pos hWrapped⟩
      · left
        exact ⟨(size + tag.toNat) % 2 ^ 64 - 247, by omega, if_neg hWrapped⟩

/- A marker is complete, or it is cut. -/
theorem markerStep_outcome (hPos : st.pos ≤ txsData.length)
    (hDrop : txsData.drop st.pos = 11 :: content) :
    StepOutcome forkID st (11 :: content) (decodeStep txsData forkID st) := by
  by_cases hFull : 8 ≤ content.length
  · have hMarker :
        EncodesMarker (setBytes 32 (content.take 4)) (setBytes 32 ((content.drop 4).take 4))
          (content.take 4) ((content.drop 4).take 4) :=
      ⟨by simp; omega, by simp; omega, rfl, rfl⟩
    have hRest : 11 :: content =
          11 :: (content.take 4 ++ (content.drop 4).take 4) ++ (content.drop 4).drop 4 := by
      rw [List.cons_append, List.append_assoc, List.take_append_drop, List.take_append_drop]
    rw [decodeStep_marker hMarker (hDrop.trans hRest)]
    exact .item hRest (.marker hMarker)
  · have hCut : CutMarker (11 :: content) := ⟨rfl, by rw [List.length_cons]; omega⟩
    rw [decodeStep_cutMarker hDrop hPos hCut]
    exact .cutMarker hCut

/- Every round has one of the four outcomes. -/
theorem decodeStep_cases (hLen : txsData.length < 2 ^ 63) (hPos : st.pos < txsData.length)
    (hDrop : txsData.drop st.pos = rest) :
    StepOutcome forkID st rest (decodeStep txsData forkID st) := by
  cases rest with
  | nil =>
    have hLength := length_of_drop hPos.le hDrop
    simp at hLength
    omega
  | cons first content =>
    have hFirst := getElem?_of_drop_cons hDrop
    have hTotal := length_of_drop hPos.le hDrop
    by_cases hMarker : first = 11
    · subst hMarker
      exact markerStep_outcome hPos.le hDrop
    · simp only [decodeStep, sliceIndex_of_some hFirst, ok_bind, if_neg hMarker]
      by_cases hList : first.toNat < 192
      · rw [if_pos hList]
        exact .invalid _
      · rw [if_neg hList]
        rcases txLength_cases hPos.le hDrop (by omega : 192 ≤ first.toNat) with
          ⟨length, hLt, hLength⟩ | ⟨hCut, hLength⟩ | ⟨err, hLength⟩ <;>
          simp only [hLength, ok_bind]
        · exact readTx_outcome hLen hLt hPos.le hDrop
        · exact .cutLength hCut
        · exact .invalid err

end Round

-- Runs

variable {txsData : Bytes} {item : BatchItem} {items : List BatchItem} {forkID : Nat}

section

variable {bytes : Bytes} (hItem : Encodes forkID item bytes)

include hItem

theorem Encodes.length_pos : 0 < bytes.length := by
  cases hItem with
  | marker hMarker => simp
  | transaction hTx =>
    have hR := hTx.rLength
    simp only [TxSlices.bytes, List.length_append]
    omega

/- The round moves on by the bytes of the item. -/
theorem Encodes.absorb_pos (st : DecodeState) :
    (st.absorb item bytes).pos = st.pos + bytes.length := by
  cases hItem with
  | marker hMarker =>
    simp [DecodeState.absorb, DecodeState.nextBlock, hMarker.deltaLength, hMarker.indexLength]
  | transaction hTx => simp [DecodeState.absorb, DecodeState.addTx]

theorem Encodes.drop_absorb {rest : Bytes}
    {st : DecodeState} (hDrop : txsData.drop st.pos = bytes ++ rest) :
    txsData.drop (st.absorb item bytes).pos = rest := by
  rw [hItem.absorb_pos, ← List.drop_drop, hDrop, List.drop_left]

end

/- The decoder absorbs the items one after the other. -/
inductive Passes (forkID : Nat) :
    List BatchItem → Bytes → DecodeState → DecodeState → Prop where
  | nil (st : DecodeState) : Passes forkID [] [] st st
  | cons {item : BatchItem} {items : List BatchItem} {bytes rest : Bytes} {st st' : DecodeState}
      (hItem : Encodes forkID item bytes)
      (hItems : Passes forkID items rest (st.absorb item bytes) st') :
      Passes forkID (item :: items) (bytes ++ rest) st st'

theorem EncodesAll.passes {bytes : Bytes} (hItems : EncodesAll forkID items bytes)
    (st : DecodeState) : ∃ st', Passes forkID items bytes st st' := by
  induction hItems generalizing st with
  | nil => exact ⟨st, .nil st⟩
  | cons hItem hItems hRest =>
    rename_i item items bytes rest
    rcases hRest (st.absorb item bytes) with ⟨st', hPasses⟩
    exact ⟨st', .cons hItem hPasses⟩

/- Complete items take one round each. -/
theorem Passes.decodeLoop_eq {bytes : Bytes} {st st' : DecodeState}
    (hPasses : Passes forkID items bytes st st') {txsData rest : Bytes}
    (hLen : txsData.length < 2 ^ 63) (hPos : st.pos ≤ txsData.length)
    (hDrop : txsData.drop st.pos = bytes ++ rest) : st'.pos = st.pos + bytes.length ∧
      ∀ fuel, decodeLoop txsData forkID (items.length + fuel) st =
          decodeLoop txsData forkID fuel st' := by
  induction hPasses with
  | nil st => simp
  | cons hItem hItems hRest =>
    rename_i item items bytes others st st'
    have hTotal := length_of_drop hPos hDrop
    simp only [List.length_append] at hTotal
    have hSize := hItem.length_pos
    have hMove := hItem.absorb_pos st
    have hAt : txsData.drop st.pos = bytes ++ (others ++ rest) := by simpa using hDrop
    have hStep := decodeStep_item hLen hItem hPos hAt
    rcases hRest (by omega) (hItem.drop_absorb hAt) with ⟨hPos', hLoop⟩
    refine ⟨?_, ?_⟩
    · rw [hPos', hMove, List.length_append, Nat.add_assoc]
    · intro fuel
      rw [List.length_cons, Nat.add_right_comm, decodeLoop, if_pos (by omega), hStep]
      exact hLoop fuel

/- Behind the start every marker ends a block. -/
theorem Passes.blocks_eq {bytes : Bytes} {st st' : DecodeState}
    (hPasses : Passes forkID items bytes st st') (hPos : 0 < st.pos) :
    st'.result ++ [st'.sealed] = st.result ++ blocksFrom st.sealed items := by
  induction hPasses with
  | nil st => rfl
  | cons hItem hItems hRest =>
    rename_i item items bytes others st st'
    have hMove := hItem.absorb_pos st
    rw [hRest (by omega)]
    cases item with
    | marker deltaTimestamp l1InfoTreeIndex =>
      simp [DecodeState.absorb, DecodeState.nextBlock,
        endsHere, hPos, blocksFrom, DecodeState.sealed, emptyData, newBlock]
    | transaction tx percentage => rfl

/- The block that a marker at the start may add. -/
def leadBlocks (bytes : Bytes) : List DecodedBatchL2Data :=
  if bytes.head? = some 11 ∧ bytes.tail.head? = some 11 then
    [emptyData]
  else []

theorem EncodesTx.head_ne {tx : LegacyTx} {slices : TxSlices} (hTx : EncodesTx forkID tx slices)
    (rest : Bytes) : (slices.bytes ++ rest).head? ≠ some 11 := by
  rcases hTx.decoded with ⟨fields, hDecode, -⟩
  rcases Rlp.spans_of_decodeBytes hDecode with ⟨tag, content, hInfo, hSpans⟩
  intro hHead
  have hTag : tag = 11 := by simpa [TxSlices.bytes, hInfo] using hHead
  subst hTag
  exact absurd hSpans.le_tag (by decide)

theorem Passes.start_blocks_eq {bytes : Bytes} {st' : DecodeState}
    (hPasses : Passes forkID (item :: items) bytes startDecode st') :
    st'.result ++ [st'.sealed] = leadBlocks bytes ++ blocksOf (item :: items) := by
  cases hPasses with
  | cons hItem hItems =>
    rename_i bytes rest
    have hMove := hItem.absorb_pos startDecode
    have hSize := hItem.length_pos
    rw [hItems.blocks_eq (by omega)]
    cases hItem with
    | marker hMarker =>
      rename_i deltaTimestamp l1InfoTreeIndex delta index
      cases delta with
      | nil => exact absurd hMarker.deltaLength (by simp)
      | cons second delta =>
        by_cases hEleven : second = 11 <;>
          simp [leadBlocks, hEleven, DecodeState.absorb, DecodeState.nextBlock,
            endsHere, startDecode, DecodeState.sealed, blocksOf, newBlock, emptyData]
    | transaction hTx =>
      rw [leadBlocks, if_neg (fun hLead => hTx.head_ne rest hLead.1)]
      rfl

-- Strictness

/- No sequence of complete items ends in cut data. -/
def NoCut (forkID : Nat) (bytes : Bytes) : Prop :=
  ∀ items front rest, bytes = front ++ rest → EncodesAll forkID items front → ¬ CutShort rest

theorem NoCut.behind {bytes rest : Bytes} (hNoCut : NoCut forkID (bytes ++ rest))
    (hItem : Encodes forkID item bytes) : NoCut forkID rest := by
  intro items front others hRest hItems
  refine hNoCut (item :: items) (bytes ++ front) others ?_ (.cons hItem hItems)
  rw [hRest, List.append_assoc]

/- Behind the last byte the loop returns. -/
theorem decodeLoop_end (forkID : Nat) {st : DecodeState} (hEnd : st.pos = txsData.length)
    {fuel : Nat} (hFuel : 0 < fuel) : decodeLoop txsData forkID fuel st = some (.ok st.finish) := by
  cases fuel with
  | zero => omega
  | succ fuel => simp [decodeLoop, hEnd]

/- Without cut data the loop ends with a return.  If there is no error, all the data is complete. -/
theorem decodeLoop_returns (hLen : txsData.length < 2 ^ 63) (st : DecodeState)
    (hPos : st.pos ≤ txsData.length) (hNoCut : NoCut forkID (txsData.drop st.pos)) :
    ∃ ret, (∀ fuel, txsData.length - st.pos < fuel →
        decodeLoop txsData forkID fuel st = some (.ok ret)) ∧
      (ret.err = none → ∃ items, EncodesAll forkID items (txsData.drop st.pos)) := by
  induction hLeft : txsData.length - st.pos using Nat.strongRecOn generalizing st with
  | ind left hLoop =>
    rcases Nat.eq_or_lt_of_le hPos with hEnd | hLt
    · refine ⟨st.finish, fun fuel hFuel =>
        decodeLoop_end forkID hEnd (by omega), fun _ => ⟨[], ?_⟩⟩
      rw [hEnd, List.drop_length]
      exact .nil
    · have hOutcome := @decodeStep_cases txsData _ forkID st hLen hLt rfl
      generalize hStep : decodeStep txsData forkID st = outcome at hOutcome
      cases hOutcome with
      | item hRest hItem =>
        rename_i item bytes more
        rw [hRest] at hNoCut
        have hMove := hItem.absorb_pos st
        have hSize := hItem.length_pos
        have hTotal := length_of_drop hPos hRest
        rw [List.length_append] at hTotal
        have hBehind := hItem.drop_absorb hRest
        rcases hLoop _ (by omega) (st.absorb item bytes) (by omega)
            (by rw [hBehind]; exact hNoCut.behind hItem) rfl
          with ⟨ret, hRun, hComplete⟩
        refine ⟨ret, ?_, ?_⟩
        · intro fuel hFuel
          cases fuel with
          | zero => omega
          | succ fuel =>
            simp only [decodeLoop, if_pos hLt, hStep]
            exact hRun fuel (by omega)
        · intro hErr
          rcases hComplete hErr with ⟨items, hItems⟩
          rw [hBehind] at hItems
          exact ⟨item :: items, hRest ▸ .cons hItem hItems⟩
      | cutMarker hCut => exact absurd (Or.inl hCut) (hNoCut [] [] _ rfl .nil)
      | cutLength hCut => exact absurd (Or.inr hCut) (hNoCut [] [] _ rfl .nil)
      | invalid err =>
        refine ⟨⟨st.result, some err⟩, ?_, fun hErr => by cases hErr⟩
        intro fuel hFuel
        cases fuel with
        | zero => omega
        | succ fuel => simp [decodeLoop, hLt, hStep]

theorem not_cutShort_nil : ¬ CutShort [] := by
  rintro (⟨hHead, -⟩ | ⟨tag, hHead, -⟩) <;> simp at hHead

/- Cut data does not begin with a complete item. -/
theorem not_cutShort_of_item {bytes rest : Bytes} (hItem : Encodes forkID item bytes)
    (hLen : (bytes ++ rest).length < 2 ^ 63) : ¬ CutShort (bytes ++ rest) := by
  have hStep :
      decodeStep (bytes ++ rest) forkID startDecode = .ok (.inr (startDecode.absorb item bytes)) :=
    decodeStep_item hLen hItem (Nat.zero_le _) rfl
  rintro (hCut | hCut)
  · cases hStep.symm.trans (decodeStep_cutMarker rfl (Nat.zero_le _) hCut)
  · cases hStep.symm.trans (decodeStep_cutLength rfl (Nat.zero_le _) hCut)

/- The first item is determined by the data. -/
theorem Encodes.unique {item item' : BatchItem} {bytes bytes' rest rest' : Bytes}
    (hItem : Encodes forkID item bytes) (hItem' : Encodes forkID item' bytes')
    (hSame : bytes ++ rest = bytes' ++ rest') (hLen : (bytes ++ rest).length < 2 ^ 63) :
    rest = rest' := by
  have hStep :
      decodeStep (bytes ++ rest) forkID startDecode = .ok (.inr (startDecode.absorb item bytes)) :=
    decodeStep_item hLen hItem (Nat.zero_le _) rfl
  have hStep' : decodeStep (bytes ++ rest) forkID startDecode =
        .ok (.inr (startDecode.absorb item' bytes')) :=
    decodeStep_item hLen hItem' (Nat.zero_le _) hSame
  have hState := Sum.inr.inj (Except.ok.inj (hStep.symm.trans hStep'))
  have hLength : bytes.length = bytes'.length := by
    have hPos := congrArg DecodeState.pos hState
    rw [hItem.absorb_pos, hItem'.absorb_pos] at hPos
    omega
  exact (List.append_inj hSame hLength).2

/- Complete data is read in one way only. -/
theorem EncodesAll.noCut {items' : List BatchItem} {bytes : Bytes}
    (hComplete : EncodesAll forkID items' bytes) (hLen : bytes.length < 2 ^ 63) :
    NoCut forkID bytes := by
  intro items front rest hBytes hItems
  induction hItems generalizing items' bytes with
  | nil =>
    rw [List.nil_append] at hBytes
    subst hBytes
    cases hComplete with
    | nil => exact not_cutShort_nil
    | cons hItem hOthers => exact not_cutShort_of_item hItem hLen
  | cons hItem hItems hRest =>
    cases hComplete with
    | nil =>
      have hSize := hItem.length_pos
      have hLength := congrArg List.length hBytes
      simp at hLength
      omega
    | cons hItem' hOthers =>
      rename_i item' items' bytes' others
      rw [List.append_assoc] at hBytes
      have hSame := hItem'.unique hItem hBytes hLen
      subst hSame
      rw [List.length_append] at hLen
      exact hRest hOthers (by omega) rfl

/-
  The decoder is strict: it returns, and without an error only if the data is complete and all of
  it is in the result.
-/
def StrictOn (txsData : Bytes) (forkID : Nat) : Prop :=
  ∃ ret steps, (∀ fuel, steps ≤ fuel → decodeBatchL2Blocks fuel txsData forkID = some (.ok ret)) ∧
    (ret.err = none → ∃ items, EncodesAll forkID items txsData ∧ blocksOf items <:+ ret.result)

/- Complete data gives its blocks, after the lead ones. -/
theorem decodeBatchL2Blocks_complete (hLen : txsData.length < 2 ^ 63)
    (hItems : EncodesAll forkID items txsData) {fuel : Nat} (hFuel : items.length < fuel) :
    decodeBatchL2Blocks fuel txsData forkID =
      some (.ok ⟨leadBlocks txsData ++ blocksOf items, none⟩) := by
  cases items with
  | nil =>
    cases hItems
    simp [decodeBatchL2Blocks, leadBlocks, blocksOf]
  | cons item items =>
    rcases hItems.passes startDecode with ⟨st, hPasses⟩
    have hDrop : txsData.drop startDecode.pos = txsData ++ [] := by simp [startDecode]
    rcases hPasses.decodeLoop_eq hLen (Nat.zero_le _) hDrop with ⟨hPos, hLoop⟩
    have hEnd : st.pos = txsData.length := by simpa [startDecode] using hPos
    have hNotNil : ¬ txsData.length = 0 := by
      cases hItems with
      | cons hItem hOthers =>
        have hSize := hItem.length_pos
        rw [List.length_append]
        omega
    have hSplit : fuel = (item :: items).length + (fuel - (item :: items).length) := by omega
    rw [decodeBatchL2Blocks, if_neg hNotNil, hSplit, hLoop, decodeLoop_end forkID hEnd (by omega),
      DecodeState.finish, hPasses.start_blocks_eq]

theorem strictOn_of_noCut (hLen : txsData.length < 2 ^ 63) (hNoCut : NoCut forkID txsData) :
    StrictOn txsData forkID := by
  by_cases hEmpty : txsData.length = 0
  · refine ⟨⟨[], none⟩, 0, ?_, fun _ => ⟨[], ?_, ?_⟩⟩
    · intro fuel hFuel
      simp [decodeBatchL2Blocks, hEmpty]
    · rw [List.eq_nil_of_length_eq_zero hEmpty]
      exact .nil
    · exact List.suffix_refl _
  · rcases decodeLoop_returns hLen startDecode (Nat.zero_le _) hNoCut with ⟨ret, hRun, hComplete⟩
    refine ⟨ret, txsData.length + 1, ?_, ?_⟩
    · intro fuel hFuel
      rw [decodeBatchL2Blocks, if_neg hEmpty]
      exact hRun fuel hFuel
    · intro hErr
      rcases hComplete hErr with ⟨items, hItems⟩
      refine ⟨items, hItems, ?_⟩
      -- with enough rounds both descriptions hold
      have hBlocks := decodeBatchL2Blocks_complete hLen hItems
          (show items.length < txsData.length + items.length + 1 by omega)
      rw [decodeBatchL2Blocks, if_neg hEmpty, hRun _ (by omega)] at hBlocks
      simp only [Option.some.injEq, Except.ok.injEq] at hBlocks
      rw [hBlocks]
      exact List.suffix_append _ _

theorem noCut_of_strictOn (hLen : txsData.length < 2 ^ 63) (hStrict : StrictOn txsData forkID) :
    NoCut forkID txsData := by
  intro items front rest hBytes hItems hCut
  rcases hStrict with ⟨ret, steps, hRun, hComplete⟩
  rcases hItems.passes startDecode with ⟨st, hPasses⟩
  have hRest : rest ≠ [] := fun hNil => not_cutShort_nil (hNil ▸ hCut)
  have hTotal : txsData.length = front.length + rest.length := by rw [hBytes, List.length_append]
  have hPositive : 0 < rest.length := List.length_pos_iff.2 hRest
  rcases hPasses.decodeLoop_eq hLen (Nat.zero_le _) hBytes with ⟨hPos, hLoop⟩
  have hAt : st.pos = front.length := by simpa [startDecode] using hPos
  have hDrop : txsData.drop st.pos = rest := by rw [hAt, hBytes, List.drop_left]
  have hEnds := hRun (items.length + (steps + 1)) (by omega)
  rw [decodeBatchL2Blocks, if_neg (by omega), hLoop, decodeLoop, if_pos (by omega)] at hEnds
  rcases hCut with hMarker | hLength
  · rw [decodeStep_cutMarker hDrop (by omega) hMarker] at hEnds
    cases hEnds
  · rw [decodeStep_cutLength hDrop (by omega) hLength] at hEnds
    cases hEnds
    rcases hComplete rfl with ⟨others, hOthers, -⟩
    exact hOthers.noCut hLen items front rest hBytes hItems (Or.inr hLength)

/- The decoder is strict exactly on data that is not cut. -/
theorem decodeBatchL2Blocks_strict_iff (txsData : Slice Byte) (forkID : Nat) :
    StrictOn txsData.1 forkID ↔
      ∀ items front rest, txsData.1 = front ++ rest →
        EncodesAll forkID items front → ¬ CutShort rest :=
  ⟨noCut_of_strictOn txsData.2, strictOn_of_noCut txsData.2⟩

/-
  A marker without its values panics.  A long list without its length is dropped, and no error is
  returned.
-/
theorem decodeBatchL2Blocks_cut :
    (∀ fuel, decodeBatchL2Blocks (fuel + 1) [11] 7 = some (.error .panic)) ∧
    (∀ fuel, decodeBatchL2Blocks (fuel + 1) [248] 7 = some (.ok ⟨[], none⟩)) ∧
    ¬ StrictOn [11] 7 ∧ ¬ StrictOn [248] 7 := by
  refine ⟨fun fuel => rfl, fun fuel => rfl, ?_, ?_⟩
  · intro hStrict
    refine noCut_of_strictOn (by simp) hStrict [] [] [11] rfl .nil (Or.inl ⟨rfl, by simp⟩)
  · intro hStrict
    refine noCut_of_strictOn (by simp) hStrict [] [] [248] rfl
      .nil (Or.inr ⟨248, rfl, by simp, by simp⟩)

end XLayerErigon.Tx
