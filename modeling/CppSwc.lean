import CppSwc.Lib.Run
import CppSwc.Lib.Follow
import CppSwc.Lib.Quorum
import CppSwc.Lib.Tree
import CppSwc.Lib.Network
import CppSwc.Lib.Grouped
import CppSwc.Lib.Selection
import CppSwc.Lib.SearchTree
import CppSwc.Lib.Worklist
import CppSwc.Lib.Framing
import CppSwc.Lib.Action
import CppSwc.Lib.Transport
import CppSwc.Core.Rlp
import CppSwc.Core.BlockHeader
import CppSwc.Core.Common
import CppSwc.Core.RlpBytes
import CppSwc.Core.HeaderBytes
import CppSwc.Core.RlpStream
import CppSwc.Core.RlpAccess
import CppSwc.Core.RlpHistory
import CppSwc.Core.RlpTree
import CppSwc.Core.HeaderIdentity
import CppSwc.Core.TransactionBytes
import CppSwc.Core.OverlayDB
import CppSwc.Core.ContractABI
import CppSwc.Core.LogBloom
import CppSwc.Lib.Memo
import CppSwc.Core.HeaderMemo
import CppSwc.Core.TransactionMemo
import CppSwc.Lib.OrderedMap
import CppSwc.Lib.Ranges
import CppSwc.Core.Precompiled
import CppSwc.Core.RangeMask
import CppSwc.Core.RangeSet
import CppSwc.Core.RangeRun
import CppSwc.Qpos.State
import CppSwc.Qpos.Handlers
import CppSwc.Qpos.Quorums
import CppSwc.Qpos.Frame
import CppSwc.Qpos.View
import CppSwc.Qpos.BroadBlock
import CppSwc.Qpos.Certificate
import CppSwc.Qpos.World
import CppSwc.Qpos.Signature
import CppSwc.Qpos.Equivocation
import CppSwc.Qpos.Agreement
import CppSwc.Qpos.Election
import CppSwc.Qpos.OneBlock
import CppSwc.Sync.Request
import CppSwc.Sync.Gaps
import CppSwc.Sync.Buffer
import CppSwc.Sync.Driver
import CppSwc.Sync.Links
import CppSwc.Sync.Index
import CppSwc.Sync.Calls
import CppSwc.Sync.Crash
import CppSwc.Mempool.Queue
import CppSwc.Mempool.Indices
import CppSwc.Mempool.Operations
import CppSwc.Mempool.Limits
import CppSwc.Mempool.Order
import CppSwc.BlockQueue.Queue
import CppSwc.BlockQueue.Sizes
import CppSwc.BlockQueue.Condemned
import CppSwc.BlockQueue.Bookkeeping
import CppSwc.BlockQueue.Difficulty
import CppSwc.BlockQueue.Drained
import CppSwc.BlockQueue.ChainSync
import CppSwc.Evm.Schedule
import CppSwc.Evm.Instruction
import CppSwc.Evm.Program
import CppSwc.Evm.LegacyVM
import CppSwc.Evm.Interpreter
import CppSwc.Evm.Gas
import CppSwc.Evm.Calls
import CppSwc.Evm.Metering
import CppSwc.Evm.Optimize
import CppSwc.Evm.OptimizedStep
import CppSwc.Evm.VMFace
import CppSwc.Evm.OptimizedRun
import CppSwc.Lib.Ledger
import CppSwc.State.Account
import CppSwc.State.State
import CppSwc.Lib.Journal
import CppSwc.State.Base
import CppSwc.State.View
import CppSwc.State.Rollback
import CppSwc.State.Balances
import CppSwc.State.Commit
import CppSwc.State.Savepoints
import CppSwc.State.ClearStorage
import CppSwc.State.Writeback
import CppSwc.Executive.Transaction
import CppSwc.Executive.Executive
import CppSwc.Executive.Static
import CppSwc.Executive.Gas
import CppSwc.Executive.Conservation
import CppSwc.Executive.Frames
import CppSwc.Executive.Payment
import CppSwc.Executive.Exceptions
import CppSwc.Contract.Node
import CppSwc.Contract.Token
import CppSwc.Contract.Register
import CppSwc.Lib.Json
import CppSwc.Contract.Text
import CppSwc.Qpos.MinerList
import CppSwc.Lib.Forest
import CppSwc.Lib.Cache
import CppSwc.Chain.BlockChain
import CppSwc.Chain.Route
import CppSwc.Chain.TreeRoute
import CppSwc.Chain.NumberIndex
import CppSwc.Chain.HeaderRequest
import CppSwc.Chain.Locations
import CppSwc.Chain.Blooms
import CppSwc.Chain.BloomSearch
import CppSwc.Lib.Patricia
import CppSwc.Lib.PatriciaOrder
import CppSwc.Lib.Radix
import CppSwc.Trie.Nibbles
import CppSwc.Trie.MemoryDB
import CppSwc.Trie.TrieDB
import CppSwc.Trie.HexPrefix
import CppSwc.Trie.Node
import CppSwc.Trie.Merge
import CppSwc.Trie.Delete
import CppSwc.Trie.TrieHash
import CppSwc.Trie.Contents
import CppSwc.Trie.RefCounts
import CppSwc.Trie.References
import CppSwc.Trie.Overflow
import CppSwc.Trie.Iterator
import CppSwc.Trie.AnyKeys
import CppSwc.Trie.Removal
import CppSwc.Client.Watches
import CppSwc.Client.BlockSync
import CppSwc.Client.Pending
import CppSwc.Client.Submit
import CppSwc.Client.Logs
import CppSwc.Client.LogMatch
import CppSwc.Client.EstimateGas
import CppSwc.Client.Receipts
import CppSwc.Client.SyncedBlock
import CppSwc.Lib.Segments
import CppSwc.Sync.Chunks
import CppSwc.Sync.BlockChainSync
import CppSwc.Sync.Steps
import CppSwc.Sync.Assembly
import CppSwc.Sync.Pairing
import CppSwc.P2p.NodeTable
import CppSwc.P2p.Nearest
import CppSwc.P2p.FrameCoder
import CppSwc.P2p.Session
import CppSwc.P2p.Packets
import CppSwc.P2p.Delivery
import CppSwc.P2p.Handshake
import CppSwc.P2p.Ecies
import CppSwc.P2p.Hello
import CppSwc.P2p.Stages
import CppSwc.P2p.Meeting
import CppSwc.Client.Enact
import CppSwc.Client.FailedExecution
