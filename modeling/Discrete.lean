import Discrete.L1Encoding.AmountText
import Discrete.L1Encoding.ExtraWriter
import Discrete.L2Validation.TreeHash
import Discrete.L3Ledger.Retarget
import Discrete.L3Ledger.Supply
import Discrete.L3Ledger.WordExact
import Discrete.L4Node.Forest
import Discrete.L4Node.FreeRegProofs
import Discrete.L4Node.Miner
import Discrete.L4Node.MinerTemplate
import Discrete.L4Node.Readiness
import Discrete.L4Node.SparseChain
import Discrete.L4Node.TimestampRule
import Discrete.L5Network.ConnectionTable
import Discrete.L5Network.LiteBlock
import Discrete.L5Network.ObservedHeight
import Discrete.L5Network.StemPool
import Discrete.L6Wallet.Announce
import Discrete.L6Wallet.Consolidation
import Discrete.L6Wallet.Convergence
import Discrete.L6Wallet.Delivery
import Discrete.L6Wallet.Deposits
import Discrete.L6Wallet.Sweep
