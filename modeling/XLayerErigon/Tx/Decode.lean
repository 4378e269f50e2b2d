import XLayerErigon.Rlp

/-
  Decoding of the L2 data of a batch.

  The data is a string of bytes without a length.  A block begins with a marker of nine bytes; a
  transaction is the RLP encoding of its fields followed by its signature and, from fork 5 on, by
  the percentage of the gas price.

  Key definitions include:
    * `LegacyTx`
    * `rlpFieldsToLegacyTx`
    * `decodeStep`
    * `decodeBatchL2Blocks`
-/

namespace XLayerErigon.Tx

-- Transactions

abbrev Address := BitVec 160

/- What a legacy transaction is made of. -/
structure TxContent where
  nonce : BitVec 64
  gasPrice : BitVec 256
  gas : BitVec 64
  toAddress : Option Address
  value : BitVec 256
  data : Bytes
  v : BitVec 256
  r : BitVec 256
  s : BitVec 256
  deriving DecidableEq

/-
  The chain of a legacy transaction is read off `v`; the field of the struct plays no part in it.
-/
structure LegacyTx extends TxContent where
  chainID : BitVec 256
  deriving DecidableEq

/- A number of `width` bits from any byte string. -/
def setBytes (width : Nat) (bytes : Bytes) : BitVec width := BitVec.ofNat width (Bytes.toNat bytes)

def bytesToAddress (bytes : Bytes) : Option Address :=
  if bytes.length = 0 then none
  else some (setBytes 160 bytes)

/-
  The value of `v` with the chain put back into it:
  `v - 27 + chainId * 2 + 35`.
-/
def restoreV (v : Bytes) (chainID : Nat) : Nat :=
  ((Bytes.toNat v : Int) - 27 + ((chainID : Int) * 2 + 35)).natAbs

/- Fields after the chain id are not looked at. -/
def rlpFieldsToLegacyTx (fields : List Bytes) (v r s : Bytes) : Except String LegacyTx :=
  match fields with
  | nonce :: gasPrice :: gas :: toAddress :: value :: data :: others =>
    .ok
      { nonce := setBytes 64 nonce
        gasPrice := setBytes 256 gasPrice
        gas := setBytes 64 gas
        toAddress := bytesToAddress toAddress
        value := setBytes 256 value
        data := data
        v :=
          match others with
          | [] => setBytes 256 v
          | chainID :: _ =>
            BitVec.ofNat 256 (restoreV v (Bytes.toNat chainID))
        r := setBytes 256 r
        s := setBytes 256 s
        chainID :=
          match others with
          | [] => 0
          | chainID :: _ => setBytes 256 chainID }
  | _ => .error "transaction type not supported"

-- The Loop

structure DecodedBatchL2Data where
  transactions : List LegacyTx
  effectiveGasPricePercentages : Bytes
  deltaTimestamp : BitVec 32
  l1InfoTreeIndex : BitVec 32
  deriving DecidableEq

def emptyData : DecodedBatchL2Data := ⟨[], [], 0, 0⟩

/- What the decoder returns: its result and its error. -/
structure DecodeReturn where
  result : List DecodedBatchL2Data
  err : Option String

structure DecodeState where
  result : List DecodedBatchL2Data
  currentData : DecodedBatchL2Data
  currentDelta : BitVec 32
  currentL1InfoTreeIndex : BitVec 32
  pos : Nat

/- The current block, with the values of its marker. -/
def DecodeState.sealed (st : DecodeState) : DecodedBatchL2Data := { st.currentData with
    deltaTimestamp := st.currentDelta
    l1InfoTreeIndex := st.currentL1InfoTreeIndex }

def errInvalidData : String := "invalid data"

/-
  Whether a marker ends a block: behind the start always, at the start if the next byte is the
  type of a marker too.
-/
def endsBlock (txsData : Bytes) (pos : Nat) : Except Failure Bool :=
  if 0 < pos then .ok true
  else (sliceIndex txsData (pos + 1)).map (· == 11)

def DecodeState.nextBlock (st : DecodeState) (ends : Bool)
    (delta l1InfoTreeIndex : BitVec 32) : DecodeState where
  result :=
    if ends then st.result ++ [st.sealed] else st.result
  currentData := if ends then emptyData else st.currentData
  currentDelta := delta
  currentL1InfoTreeIndex := l1InfoTreeIndex
  pos := st.pos + 9

def readMarker (txsData : Bytes) (st : DecodeState) : Except Failure DecodeState := do
  let ends ← endsBlock txsData st.pos
  let delta ← sliceRange txsData (st.pos + 1) (st.pos + 5)
  let index ← sliceRange txsData (st.pos + 5) (st.pos + 9)
  .ok (st.nextBlock ends (setBytes 32 delta) (setBytes 32 index))

/-
  The length of the list that begins with `num`, without its first byte.  `error` is a return of
  the decoder, with the error that it returns: a list whose length is cut off returns the error of
  the parse before, which is nil.
-/
def txLength (txsData : Bytes) (pos num : Nat) : Except Failure (Except (Option String) Nat) :=
  if num - 192 ≤ 55 then .ok (.ok (num - 192))
  else if txsData.length < pos + 1 + num - 247 then
    .ok (.error none)
  else do
    let size ← sliceRange txsData (pos + 1) (pos + 1 + num - 247)
    if (Bytes.toNat size + num) % 2 ^ 64 < 247 then
      .ok (.error (some errInvalidData))
    else
      .ok (.ok ((Bytes.toNat size + num) % 2 ^ 64 - 247))

/- The number of bytes for the percentage. -/
def percentageLength (forkID : Nat) : Nat :=
  if 5 ≤ forkID then 1 else 0

/- The bytes of a transaction, as the decoder cuts them. -/
structure TxSlices where
  txInfo : Bytes
  rData : Bytes
  sData : Bytes
  vData : Bytes
  percentage : Bytes

def cutTx (txsData : Bytes) (forkID pos length endPos : Nat) : Except Failure TxSlices := do
  let _ ← sliceRange txsData pos endPos
  let dataStart := (pos + length + 1) % 2 ^ 64
  let txInfo ← sliceRange txsData pos dataStart
  let rData ← sliceRange txsData dataStart (dataStart + 32)
  let sData ← sliceRange txsData (dataStart + 32) (dataStart + 64)
  let vData ← sliceRange txsData (dataStart + 64) (dataStart + 65)
  if 5 ≤ forkID then do
    let efficiencyPercentage ← sliceRange txsData (dataStart + 65) endPos
    let percentage ← sliceIndex efficiencyPercentage 0
    .ok ⟨txInfo, rData, sData, vData, [percentage]⟩
  else .ok ⟨txInfo, rData, sData, vData, []⟩

/- The state behind a transaction of the current block. -/
def DecodeState.addTx (st : DecodeState) (tx : LegacyTx) (percentage : Bytes)
    (endPos : Nat) : DecodeState :=
  { st with
    currentData := { st.currentData with
        transactions := st.currentData.transactions ++ [tx]
        effectiveGasPricePercentages := st.currentData.effectiveGasPricePercentages ++ percentage }
    pos := endPos }

/- What becomes of the bytes of a transaction. -/
def parseTx (st : DecodeState) (slices : TxSlices) (endPos : Nat) : DecodeReturn ⊕ DecodeState :=
  match Rlp.decodeBytes slices.txInfo with
  | none => .inl ⟨st.result, some errInvalidData⟩
  | some rlpFields =>
    match rlpFieldsToLegacyTx rlpFields slices.vData slices.rData slices.sData with
    | .error err => .inl ⟨st.result, some err⟩
    | .ok legacyTx =>
      .inr (st.addTx legacyTx slices.percentage endPos)

def readTx (txsData : Bytes) (forkID : Nat) (st : DecodeState) (length : Nat) :
    Except Failure (DecodeReturn ⊕ DecodeState) :=
  let endPos := (st.pos + length + 66 + percentageLength forkID) % 2 ^ 64
  if txsData.length < endPos then
    .ok (.inl ⟨st.result, some errInvalidData⟩)
  else if endPos < st.pos then
    .ok (.inl ⟨st.result, some errInvalidData⟩)
  else do
    let slices ← cutTx txsData forkID st.pos length endPos
    .ok (parseTx st slices endPos)

/- One round of the loop: a return, or the next state. -/
def decodeStep (txsData : Bytes) (forkID : Nat) (st : DecodeState) :
    Except Failure (DecodeReturn ⊕ DecodeState) := do
  let first ← sliceIndex txsData st.pos
  if first = 11 then do
    let st ← readMarker txsData st
    .ok (.inr st)
  else if first.toNat < 192 then
    .ok (.inl ⟨st.result, some errInvalidData⟩)
  else do
    let length ← txLength txsData st.pos first.toNat
    match length with
    | .error err => .ok (.inl ⟨st.result, err⟩)
    | .ok length => readTx txsData forkID st length

/- The return behind the last byte. -/
def DecodeState.finish (st : DecodeState) : DecodeReturn := ⟨st.result ++ [st.sealed], none⟩

/- The loop, for at most `fuel` rounds. -/
def decodeLoop (txsData : Bytes) (forkID : Nat) :
    Nat → DecodeState → Option (Except Failure DecodeReturn)
  | 0, _ => none
  | fuel + 1, st =>
      if st.pos < txsData.length then
        match decodeStep txsData forkID st with
        | .error failure => some (.error failure)
        | .ok (.inl ret) => some (.ok ret)
        | .ok (.inr st) => decodeLoop txsData forkID fuel st
      else some (.ok st.finish)

def startDecode : DecodeState := ⟨[], emptyData, 0, 0, 0⟩

def decodeBatchL2Blocks (fuel : Nat) (txsData : Bytes)
    (forkID : Nat) : Option (Except Failure DecodeReturn) :=
  if txsData.length = 0 then some (.ok ⟨[], none⟩)
  else decodeLoop txsData forkID fuel startDecode

end XLayerErigon.Tx
