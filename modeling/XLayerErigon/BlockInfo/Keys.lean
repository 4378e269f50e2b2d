import XLayerErigon.Smt.Batch
import XLayerErigon.Tx.L2TxHashInput

/-
  The keys and values of the block info tree.

  Every function that makes a key or a value can return an error; none of them does for the data
  of a block.

  Main results:
    * `generateBlockTxKeysVals_ok`
-/

namespace XLayerErigon.BlockInfo

open Smt

-- Scalars

/- Eight limbs of 32 bits, of a number in two's complement. -/
def scalarToArrayBig (scalar : Int) : List Word :=
  (List.range 8).map (fun i => BitVec.ofInt 64 (scalar / 2 ^ (32 * i) % 2 ^ 32))

def nodeValue8FromBigIntArray (arr : List Word) : Except Failure NodeValue8 :=
  if arr.length ≠ 8 then
    .error (.error "invalid array length")
  else .ok (fun i => arr[i.val]?)

def bigInt2NodeVal8 (val : Int) : Except Failure NodeValue8 :=
  nodeValue8FromBigIntArray (scalarToArrayBig val)

def hexVal (c : Char) : Option Nat :=
  if '0' ≤ c ∧ c ≤ '9' then some (c.toNat - 48)
  else if 'a' ≤ c ∧ c ≤ 'f' then some (c.toNat - 87)
  else if 'A' ≤ c ∧ c ≤ 'F' then some (c.toNat - 55)
  else none

/- `ParseUint` to the base 16, of at most 16 digits. -/
def parseUint (digits : List Char) : Except Failure Word :=
  match digits.foldlM (fun n c => (hexVal c).map (fun d => 16 * n + d)) 0 with
  | some n => .ok (BitVec.ofNat 64 n)
  | none => .error (.error "invalid syntax")

def stringToH4 (s : List Char) : Except Failure NodeKey :=
  if ¬ List.isPrefixOf ['0', 'x'] s then
    .error (.error "hexadecimal required")
  else if s.length ≠ 66 then
    .error (.error "hexadecimal all digits required")
  else
    let word := fun i =>
      (parseUint ((s.drop (2 + 16 * i)).take 16)).mapError
        (.wrap "failed to convert string to uint64")
    word 0 >>= fun w3 =>
    word 1 >>= fun w2 =>
    word 2 >>= fun w1 =>
    word 3 >>= fun w0 =>
    .ok ![w0, w1, w2, w3]

def hashPoseidonAllZeroes : List Char :=
  ("0xc71603f33a1144ca7953db0ab48808f4" ++ "c4055e3364a246c33c18a9786cb0b359").toList

def blockHeaderBlockHashKey : NodeKey :=
  ![17540094328570681229, 15492539097581145461, 7686481670809850401, 16577991319572125169]

def blockHeaderCoinbaseKey : NodeKey :=
  ![13866806033333411216, 11510953292839890698, 8274877395843603978, 9372332419316597113]

def blockHeaderNumberKey : NodeKey :=
  ![6024064788222257862, 13049342112699253445, 12127984136733687200, 8398043461199794462]

def blockHeaderGasLimitKey : NodeKey :=
  ![5319681466197319121, 14057433120745733551, 5638531288094714593, 17204828339478940337]

def blockHeaderTimestampKey : NodeKey :=
  ![7890158832167317866, 11032486557242372179, 9653801891436451408, 2062577087515942703]

def blockHeaderGerKey : NodeKey :=
  ![16031278424721309229, 4132999715765882778, 6388713709192801251, 10826219431775251904]

def blockHeaderBlockHashL1Key : NodeKey :=
  ![5354929451503733866, 3129555839551084896, 2132809659008379950, 8230742270813566472]

def blockHeaderGasUsedKey : NodeKey :=
  ![8577769200631379655, 8682051454686970557, 5016656739138242322, 16717481432904730287]

/- The index in six limbs, and the kind of the entry. -/
def keyWords (scalar : Int) (kind : Nat) : NodeValue8 := fun i =>
    if i.val < 6 then (scalarToArrayBig scalar)[i.val]?
    else if i.val = 6 then some (BitVec.ofNat 64 kind)
    else some 0

variable (hash : NodeValue12 → NodeKey)

def keyBig (k : Option Int) (c : Nat) : Except Failure NodeKey :=
  match k with
  | none => .error (.error "nil key")
  | some k =>
    stringToH4 hashPoseidonAllZeroes >>= fun capacity =>
    let key1 := (keyWords k c).toUintArray
    .ok (hash ⟨key1.1, key1.2, capacity⟩)

def keyTxHash (paramKey : Int) : Except Failure NodeKey := keyBig hash (some paramKey) 8

def keyTxStatus (paramKey : Int) : Except Failure NodeKey := keyBig hash (some paramKey) 9

def keyCumulativeGasUsed (paramKey : Int) : Except Failure NodeKey := keyBig hash (some paramKey) 10

def keyEffectivePercentage (paramKey : Int) : Except Failure NodeKey :=
  keyBig hash (some paramKey) 12

def keyTxLogs (txIndex logIndex : Int) : Except Failure NodeKey :=
  nodeValue8FromBigIntArray (scalarToArrayBig logIndex) >>= fun lia =>
  let hk0 := hash ⟨lia.toUintArray.1, lia.toUintArray.2, branchCapacity⟩
  let key1 := (keyWords txIndex 11).toUintArray
  .ok (hash ⟨key1.1, key1.2, hk0⟩)

/- A key and its value; the source keeps two slices. -/
abbrev KeyVal := NodeKey × NodeValue8

structure BlockHeader where
  previousStateRoot : BitVec 256
  coinbase : BitVec 160
  blockNumber : BitVec 64
  blockGasLimit : BitVec 64
  blockTime : BitVec 64
  ger : BitVec 256
  l1BlockHash : BitVec 256
  blockGasUsed : BitVec 64

def generateParam (key : NodeKey) (value : Nat) : Except Failure KeyVal :=
  bigInt2NodeVal8 value >>= fun val => .ok (key, val)

def generateL2BlockHash (blockHash : BitVec 256) :=
  generateParam blockHeaderBlockHashKey blockHash.toNat

def generateCoinbase (coinbase : BitVec 160) := generateParam blockHeaderCoinbaseKey coinbase.toNat

def generateBlockNumber (blockNumber : BitVec 64) :=
  generateParam blockHeaderNumberKey blockNumber.toNat

def generateGasLimit (gasLimit : BitVec 64) := generateParam blockHeaderGasLimitKey gasLimit.toNat

def generateTimestamp (timestamp : BitVec 64) :=
  generateParam blockHeaderTimestampKey timestamp.toNat

def generateGer (ger : BitVec 256) := generateParam blockHeaderGerKey ger.toNat

def generateL1BlockHash (blockHash : BitVec 256) :=
  generateParam blockHeaderBlockHashL1Key blockHash.toNat

def generateBlockGasUsed (gasUsed : BitVec 64) := generateParam blockHeaderGasUsedKey gasUsed.toNat

def generateBlockHeader (header : BlockHeader) : Except Failure (List KeyVal) :=
  generateL2BlockHash header.previousStateRoot >>= fun kv0 =>
  generateCoinbase header.coinbase >>= fun kv1 =>
  generateBlockNumber header.blockNumber >>= fun kv2 =>
  generateGasLimit header.blockGasLimit >>= fun kv3 =>
  generateTimestamp header.blockTime >>= fun kv4 =>
  generateGer header.ger >>= fun kv5 =>
  generateL1BlockHash header.l1BlockHash >>= fun kv6 =>
  .ok [kv0, kv1, kv2, kv3, kv4, kv5, kv6]

-- Transactions

structure TxFields where
  chainID : Option (BitVec 256)
  value : Option (BitVec 256)
  price : Option (BitVec 256)
  nonce : BitVec 64
  gas : BitVec 64
  toAddress : Option (BitVec 160)
  data : Bytes

structure Log where
  topics : List (BitVec 256)
  data : Bytes

structure Receipt where
  status : BitVec 64
  cumulativeGasUsed : BitVec 64
  logs : List Log

structure ExecutedTxInfo where
  tx : TxFields
  effectiveGasPrice : BitVec 8
  receipt : Receipt
  signer : BitVec 160

/- A key made from an index, with a scalar. -/
def generateEntry (key : Except Failure NodeKey) (value : Int) : Except Failure KeyVal :=
  key >>= fun key =>
  bigInt2NodeVal8 value >>= fun val => .ok (key, val)

def generateL2TxHash (txIndex l2TxHash : Int) := generateEntry (keyTxHash hash txIndex) l2TxHash

def generateTxStatus (txIndex status : Int) := generateEntry (keyTxStatus hash txIndex) status

def generateCumulativeGasUsed (txIndex cumulativeGasUsed : Int) :=
  generateEntry (keyCumulativeGasUsed hash txIndex) cumulativeGasUsed

def generateTxLog (txIndex logIndex log : Int) :=
  generateEntry (keyTxLogs hash txIndex logIndex) log

def generateTxEffectivePercentage (txIndex effectivePercentage : Int) :=
  generateEntry (keyEffectivePercentage hash txIndex) effectivePercentage

def logToEncode (log : Log) : List Char :=
  '0' :: 'x' :: (Tx.encodeToString log.data ++ log.topics.flatMap (fun topic =>
    Tx.encodeToString (Bytes.fill 32 topic.toNat)))

variable (hashing : Tx.Hashing)

/- The log index is an `int64`. -/
def generateTxLogs (txIndex : Int) :
    BitVec 64 → List Log → Except Failure (List KeyVal)
  | _, [] => .ok []
  | logIndex, log :: logs =>
      generateTxLog hash txIndex logIndex.toInt
        (hashing.hashContractBytecodeBigInt (logToEncode log)) >>= fun kv =>
      generateTxLogs txIndex (logIndex + 1) logs >>= fun rest =>
      .ok (kv :: rest)

def generateBlockTxKeysVals (l2TxHash : BitVec 256) (txIndex : Nat) (receipt : Receipt)
    (logIndex : BitVec 64) (cumulativeGasUsed : BitVec 64) (effectivePercentage : BitVec 8) :
    Except Failure (List KeyVal) :=
  generateL2TxHash hash txIndex l2TxHash.toNat >>= fun kv0 =>
  generateTxStatus hash txIndex receipt.status.toNat >>= fun kv1 =>
  generateCumulativeGasUsed hash txIndex cumulativeGasUsed.toNat >>= fun kv2 =>
  generateTxLogs hash hashing txIndex logIndex receipt.logs >>= fun logs =>
  generateTxEffectivePercentage hash txIndex effectivePercentage.toNat >>= fun kv3 =>
  .ok ([kv0, kv1, kv2] ++ logs ++ [kv3])

def l2TxHashOf (info : ExecutedTxInfo) : Except Failure (BitVec 256) :=
  Tx.computeL2TxHash hashing (info.tx.chainID.map (fun id => (id.toNat : Int)))
    info.tx.value info.tx.price info.tx.nonce info.tx.gas info.tx.toAddress info.signer info.tx.data

-- No entry fails

theorem length_scalarToArrayBig (scalar : Int) : (scalarToArrayBig scalar).length = 8 := by
  simp [scalarToArrayBig]

theorem bigInt2NodeVal8_ok (val : Int) : ∃ v, bigInt2NodeVal8 val = .ok v := by
  refine ⟨fun i => (scalarToArrayBig val)[i.val]?, ?_⟩
  simp [bigInt2NodeVal8, nodeValue8FromBigIntArray, length_scalarToArrayBig]

theorem stringToH4_ok : ∃ capacity, stringToH4 hashPoseidonAllZeroes = .ok capacity := ⟨_, rfl⟩

theorem keyBig_ok (k : Int) (c : Nat) : ∃ key, keyBig hash (some k) c = .ok key := by
  rcases stringToH4_ok with ⟨capacity, hCapacity⟩
  simp only [keyBig, hCapacity, ok_bind]
  exact ⟨_, rfl⟩

theorem keyTxLogs_ok (txIndex logIndex : Int) :
    ∃ key, keyTxLogs hash txIndex logIndex = .ok key := by
  rcases bigInt2NodeVal8_ok logIndex with ⟨lia, hLia⟩
  unfold bigInt2NodeVal8 at hLia
  simp only [keyTxLogs, hLia, ok_bind]
  exact ⟨_, rfl⟩

theorem generateEntry_ok {key : Except Failure NodeKey} (hKey : ∃ k, key = .ok k) (value : Int) :
    ∃ kv, generateEntry key value = .ok kv := by
  rcases hKey with ⟨k, rfl⟩
  rcases bigInt2NodeVal8_ok value with ⟨v, hValue⟩
  simp only [generateEntry, hValue, ok_bind]
  exact ⟨_, rfl⟩

theorem generateTxLogs_ok (txIndex : Int) (logIndex : BitVec 64) (logs : List Log) :
    ∃ kvs, generateTxLogs hash hashing txIndex logIndex logs = .ok kvs := by
  induction logs generalizing logIndex with
  | nil => exact ⟨[], rfl⟩
  | cons log logs ih =>
    rcases generateEntry_ok (keyTxLogs_ok hash txIndex logIndex.toInt)
        (hashing.hashContractBytecodeBigInt (logToEncode log)) with ⟨kv, hEntry⟩
    rcases ih (logIndex + 1) with ⟨rest, hRest⟩
    refine ⟨kv :: rest, ?_⟩
    rw [generateTxLogs, generateTxLog, hEntry, ok_bind, hRest, ok_bind]

theorem generateBlockTxKeysVals_ok (l2TxHash : BitVec 256) (txIndex : Nat) (receipt : Receipt)
    (logIndex cumulativeGasUsed : BitVec 64) (effectivePercentage : BitVec 8) :
    ∃ kvs, generateBlockTxKeysVals hash hashing l2TxHash txIndex receipt logIndex cumulativeGasUsed
      effectivePercentage = .ok kvs := by
  rcases generateEntry_ok (keyBig_ok hash txIndex 8) l2TxHash.toNat with ⟨kv0, hHash⟩
  rcases generateEntry_ok (keyBig_ok hash txIndex 9) receipt.status.toNat with ⟨kv1, hStatus⟩
  rcases generateEntry_ok (keyBig_ok hash txIndex 10) cumulativeGasUsed.toNat with ⟨kv2, hGas⟩
  rcases generateTxLogs_ok hash hashing txIndex logIndex receipt.logs with ⟨logs, hLogs⟩
  rcases generateEntry_ok (keyBig_ok hash txIndex 12)
      effectivePercentage.toNat with ⟨kv3, hPercentage⟩
  simp only [generateBlockTxKeysVals, generateL2TxHash, generateTxStatus, generateCumulativeGasUsed,
    generateTxEffectivePercentage, keyTxHash, keyTxStatus,
    keyCumulativeGasUsed, keyEffectivePercentage, hHash, hStatus, hGas, hLogs, hPercentage, ok_bind]
  exact ⟨_, rfl⟩

theorem l2TxHashOf_ok (info : ExecutedTxInfo) :
    ∃ l2TxHash, l2TxHashOf hashing info = .ok l2TxHash := by
  refine Tx.computeL2TxHash_ok hashing ?_ _ _ _ _ _ _ _
  intro id hId
  rcases Option.map_eq_some_iff.1 hId with ⟨chain, _, rfl⟩
  exact Int.natCast_nonneg _

end XLayerErigon.BlockInfo
