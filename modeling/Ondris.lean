import Ondris.Lib.Machine
import Ondris.Lib.Lineage
import Ondris.Lib.Ledger
import Ondris.Lib.MerkleTree
import Ondris.Lib.OrderedMap
import Ondris.Lib.Encoding
import Ondris.Lib.Worklist
import Ondris.Lib.Chunks
import Ondris.Lib.CarryTree
import Ondris.Lib.Reads
import Ondris.Lib.LongDivision
import Ondris.Lib.Windows
import Ondris.Lib.CappedCounter
import Ondris.Lib.Buffers
import Ondris.Lib.Words
import Ondris.Lib.Attempts
import Ondris.Lib.Registry
import Ondris.Lib.Flooding
import Ondris.Lib.Race
import Ondris.Lib.Stores
import Ondris.Primitives
import Ondris.WireTypes
import Ondris.Keystore
import Ondris.Pow
import Ondris.Difficulty
import Ondris.Target
import Ondris.Retarget
import Ondris.Block
import Ondris.Genesis
import Ondris.State
import Ondris.Chain
import Ondris.Branch
import Ondris.Replay
import Ondris.Store
import Ondris.Submit
import Ondris.Runs
import Ondris.Instance
import Ondris.Commitment
import Ondris.Extension
import Ondris.Atomicity
import Ondris.Crash
import Ondris.Node
import Ondris.Orphans
import Ondris.Delivery
import Ondris.NodeRuns
import Ondris.Pending
import Ondris.Template
import Ondris.Consensus
import Ondris.Convergence
import Ondris.Sequence
import Ondris.Supply
import Ondris.Blake3
import Ondris.Transport
import Ondris.Connection
import Ondris.Link
import Ondris.PeerMap
import Ondris.Mempool
import Ondris.Gossip
import Ondris.Tasks
import Ondris.Readers
import Ondris.Windows
import Ondris.Outcomes
import Ondris.Dataset
import Ondris.Undo
import Ondris.Transfers
import Ondris.HashRef
import Ondris.Kernel
import Ondris.KernelBlake3
import Ondris.Agreement
import Ondris.Announce
import Ondris.Traffic
import Ondris.Propagation
import Ondris.NodeLedger
import Ondris.Backfill
import Ondris.Miner
import Ondris.GpuMiner
import Ondris.Wallet
import Ondris.Wire
import Ondris.Disk
