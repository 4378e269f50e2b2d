import XLayerErigon.Tx.Decode

/-
  Encoding of the L2 data of a batch.

  `calculateBatchData` writes the blocks of a batch, each of them as a marker with its
  transactions behind it.

  Key definitions include:
    * `deriveChainId`
    * `getDecodedV`
    * `transactionToL2Data`
    * `calculateBatchData`
-/

namespace XLayerErigon.Tx

-- Transactions

/- In 64 bits the subtraction wraps for a small `v`. -/
def deriveChainId (v : BitVec 256) : BitVec 256 :=
  if v.toNat < 2 ^ 64 then
    if v = 27 ∨ v = 28 then 0
    else ((v.setWidth 64 - 35) / 2).setWidth 256
  else (v - 35) / 2

def isProtectedV (v : BitVec 256) : Bool :=
  if v.toNat < 2 ^ 8 then
    v ≠ 27 ∧ v ≠ 28 ∧ v ≠ 1 ∧ v ≠ 0
  else true

def LegacyTx.getChainID (tx : LegacyTx) : BitVec 256 := deriveChainId tx.v

def LegacyTx.isProtected (tx : LegacyTx) : Bool := isProtectedV tx.v

/- The value of `v` without the chain.  A negative difference is taken modulo `2 ^ 256`. -/
def getDecodedV (tx : LegacyTx) (v : BitVec 256) : BitVec 256 :=
  if tx.isProtected then
    BitVec.ofInt 256 ((v.toNat : Int) + 27 - tx.getChainID.toNat * 2 - 35)
  else v

def removeLeadingZeroesFromBytes (source : Bytes) : Bytes := source.dropWhile (· == 0)

/- The bytes of the recipient, none for a creation. -/
def addressBytes : Option Address → Bytes
  | none => []
  | some address => Bytes.fill 20 address.toNat

/- The fields that are encoded, up to the signature. -/
def toEncode (tx : LegacyTx) : List Bytes :=
  [ removeLeadingZeroesFromBytes (Bytes.fill 8 tx.nonce.toNat), removeLeadingZeroesFromBytes
      (Bytes.ofNat tx.gasPrice.toNat), removeLeadingZeroesFromBytes (Bytes.fill 8 tx.gas.toNat),
      addressBytes tx.toAddress, removeLeadingZeroesFromBytes (Bytes.ofNat tx.value.toNat),
      tx.data ] ++
  if tx.getChainID ≠ 0 ∨ ¬ (tx.v = 27 ∨ tx.v = 28) then
    [ removeLeadingZeroesFromBytes (Bytes.ofNat tx.getChainID.toNat), [], [] ]
  else []

def transactionToL2Data (tx : LegacyTx) (forkId : Nat) (efficiencyPercentage : Byte) : Bytes :=
  Rlp.encodeToBytes (toEncode tx) ++ Bytes.fill 32 tx.r.toNat ++ Bytes.fill 32 tx.s.toNat ++
    Bytes.ofNat (getDecodedV tx tx.v).toNat ++
    if 5 ≤ forkId then [efficiencyPercentage] else []

structure BatchTxData where
  transaction : LegacyTx
  effectiveGasPricePercentage : Byte

structure BatchBlockData where
  l1InfoTreeIndex : BitVec 32
  transactions : List BatchTxData
  forkId : Nat
  deltaTimestamp : BitVec 32

def generateStartBlockBatchL2Data (deltaTimestamp l1InfoTreeIndex : BitVec 32) : Bytes :=
  11 :: (Bytes.fill 4 deltaTimestamp.toNat ++ Bytes.fill 4 l1InfoTreeIndex.toNat)

def generateBlockBatchL2Data (forkId : Nat) (deltaTimestamp l1InfoTreeIndex : BitVec 32)
    (transactionsData : List BatchTxData) : Bytes :=
  (if 7 ≤ forkId then
    generateStartBlockBatchL2Data deltaTimestamp l1InfoTreeIndex
  else []) ++
    transactionsData.flatMap (fun transactionData =>
      transactionToL2Data transactionData.transaction forkId
        transactionData.effectiveGasPricePercentage)

def calculateBatchData (batchBlockData : List BatchBlockData) : Bytes :=
  batchBlockData.flatMap (fun block =>
    generateBlockBatchL2Data block.forkId block.deltaTimestamp block.l1InfoTreeIndex
      block.transactions)

end XLayerErigon.Tx
