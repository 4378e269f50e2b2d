import XLayerErigon.Go
import XLayerErigon.Data.Bytes
import XLayerErigon.Data.Hex
import XLayerErigon.Data.FullTree
import XLayerErigon.Trie.Compressed
import XLayerErigon.Trie.Zipper
import XLayerErigon.Trie.Merkle
import XLayerErigon.Trie.Overlay
import XLayerErigon.Trie.OverlayNodes
import XLayerErigon.Trie.Sorted
import XLayerErigon.Smt.NodeKey
import XLayerErigon.Smt.Node
import XLayerErigon.Smt.Canonical
import XLayerErigon.Smt.Insert
import XLayerErigon.Smt.InsertCorrect
import XLayerErigon.Smt.Batch
import XLayerErigon.Smt.BatchWalk
import XLayerErigon.Smt.BatchChange
import XLayerErigon.Smt.BatchCorrect
import XLayerErigon.Smt.BatchClosure
import XLayerErigon.Smt.Create
import XLayerErigon.Smt.CreateCorrect
import XLayerErigon.Smt.CreateRun
import XLayerErigon.Smt.Traverse
import XLayerErigon.Smt.Reader
import XLayerErigon.Smt.Proof
import XLayerErigon.Smt.ProofSound
import XLayerErigon.L1InfoTree.Tree
import XLayerErigon.L1InfoTree.Proof
import XLayerErigon.L1InfoTree.Append
import XLayerErigon.Sequencer.InfoTreeIndex
import XLayerErigon.Sequencer.ExitRoots
import XLayerErigon.Sequencer.Resequence
import XLayerErigon.Sequencer.ResequenceProgress
import XLayerErigon.Rlp
import XLayerErigon.Tx.Decode
import XLayerErigon.Tx.DecodeStrict
import XLayerErigon.Tx.Encode
import XLayerErigon.Tx.RoundTrip
import XLayerErigon.Concurrent.WorkerPool
import XLayerErigon.Sequencer.ExtractTransactions
import XLayerErigon.Tx.L2TxHash
import XLayerErigon.Tx.L2TxHashInput
import XLayerErigon.Smt.NodeCodec
import XLayerErigon.BlockInfo.Keys
import XLayerErigon.BlockInfo.Build
import XLayerErigon.Kv.Table
import XLayerErigon.Kv.DoubleCache
import XLayerErigon.HermezDb.Basic
import XLayerErigon.HermezDb.BlockBatches
import XLayerErigon.HermezDb.ForkIdBlock
import XLayerErigon.State.IntraBlockState
import XLayerErigon.State.Restore
import XLayerErigon.State.Trace
import XLayerErigon.Core.Transition
import XLayerErigon.State.Ready
import XLayerErigon.Core.Applied
import XLayerErigon.Core.Fees
import XLayerErigon.TxPool.ValidateTx
import XLayerErigon.TxPool.PriceFloor
import XLayerErigon.TxPool.Solvency
import XLayerErigon.Sequencer.AttemptAddTransaction
import XLayerErigon.Sequencer.Untouched
import XLayerErigon.Sequencer.BridgeQuota
import XLayerErigon.Concurrent.OneShot
import XLayerErigon.Rpc.ProcessBulk
import XLayerErigon.DataStream.Entry
import XLayerErigon.DataStream.ReadParsedProto
import XLayerErigon.DataStream.Build
import XLayerErigon.DataStream.WellFormed
import XLayerErigon.DataStream.Server
import XLayerErigon.DataStream.Heads
import XLayerErigon.DataStream.Catchup
import XLayerErigon.DataStream.Brackets
import XLayerErigon.DataStream.SequencerStream
import XLayerErigon.Batches.CommonAncestor
import XLayerErigon.L1Syncer.Verify
import XLayerErigon.Data.IndexedQueue
import XLayerErigon.TxPool.PendingPool
import XLayerErigon.DataStream.ClientDelivery
import XLayerErigon.Concurrent.JobQueue
import XLayerErigon.DataStream.ReadBack
import XLayerErigon.DataStream.ReadBatches
import XLayerErigon.L1Syncer.QueryBlocks
import XLayerErigon.L1Syncer.ForkHistory
import XLayerErigon.HermezDb.L1Batches
import XLayerErigon.HermezDb.ForkIntervals
import XLayerErigon.Batches.ShortCircuit
import XLayerErigon.Batches.UnwindPoint
import XLayerErigon.TxPool.FreeGas
import XLayerErigon.TxPool.Yield
import XLayerErigon.TxPool.PolicyLog
import XLayerErigon.Verifier.InOrder
import XLayerErigon.Common.SortedList
import XLayerErigon.Realtime.LogsFilter
import XLayerErigon.Vm.InnerTx
