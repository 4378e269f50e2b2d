import XLayerErigon.Data.Bytes
import XLayerErigon.Go

/-
  The entries of the data stream.

  A stream is a list of entries.  The bytes of an entry are left to the library that marshals it.

  Key definitions include:
    * `Entry`
    * `BookMark`
    * `L2Block`
-/

namespace XLayerErigon.DataStream

abbrev Hash := BitVec 256

abbrev Address := BitVec 160

inductive BookmarkType where
  | batch
  | l2Block
  | other (code : Nat)
  deriving DecidableEq

structure BookMark where
  type : BookmarkType
  value : Nat
  deriving DecidableEq

inductive BatchType where
  | unspecified
  | regular
  | forced
  | injected
  | invalid
  deriving DecidableEq

structure BatchStart where
  number : Nat
  forkId : Nat
  chainId : Nat
  type : BatchType
  deriving DecidableEq

structure BatchEnd where
  localExitRoot : Hash
  stateRoot : Hash
  number : Nat
  deriving DecidableEq

structure UpdateGER where
  batchNumber : Nat
  timestamp : Nat
  globalExitRoot : Hash
  coinbase : Address
  forkId : Nat
  chainId : Nat
  stateRoot : Hash
  deriving DecidableEq

structure L2Block where
  number : Nat
  batchNumber : Nat
  timestamp : Nat
  deltaTimestamp : Nat
  minTimestamp : Nat
  l1Blockhash : Hash
  l1InfotreeIndex : Nat
  hash : Hash
  stateRoot : Hash
  globalExitRoot : Hash
  coinbase : Address
  blockInfoRoot : Hash
  deriving DecidableEq

structure Transaction where
  effectiveGasPricePercentage : Nat
  isValid : Bool
  imStateRoot : Hash
  encoded : Bytes
  l2BlockNumber : Nat
  deriving DecidableEq

inductive Entry where
  | bookmark (mark : BookMark)
  | batchStart (start : BatchStart)
  | l2Block (block : L2Block)
  | l2Tx (tx : Transaction)
  | batchEnd (last : BatchEnd)
  | gerUpdate (update : UpdateGER)
  | l2BlockEnd (number : Nat)
  deriving DecidableEq

end XLayerErigon.DataStream
