import FairCoin.Primitives
import FairCoin.Lib.Slots
import FairCoin.Coins
import FairCoin.Params
import FairCoin.Payments
import FairCoin.Production
import FairCoin.Lib.Store
import FairCoin.CoinsCache
import FairCoin.Index
import FairCoin.View
import FairCoin.Unspent
import FairCoin.Validation
import FairCoin.Connect
import FairCoin.ConnectLoop
import FairCoin.RoundTrip
import FairCoin.Reward
import FairCoin.Lib.Run
import FairCoin.Chain
import FairCoin.Total
import FairCoin.Ledger
import FairCoin.Supply
import FairCoin.SwiftTx
import FairCoin.SwiftLocks
import FairCoin.SwiftVotes
import FairCoin.Lib.Codec
import FairCoin.PaymentVotes
import FairCoin.PaymentFile
import FairCoin.PaymentMessages
import FairCoin.Budget
import FairCoin.Superblock
import FairCoin.BudgetVotes
import FairCoin.BlockHashes
import FairCoin.Lib.ParentTree
import FairCoin.Ancestors
import FairCoin.Selection
import FairCoin.SelectionMoves
import FairCoin.SelectionLoop
import FairCoin.SelectionRuns
import FairCoin.Lib.Register
import FairCoin.Sporks
import FairCoin.KeyPool
import FairCoin.BlockFiles
import FairCoin.Lib.Merkle
import FairCoin.SelectionMarks
import FairCoin.Deliveries
import FairCoin.DryRun
import FairCoin.HeaderRules
import FairCoin.MerkleBranches
import FairCoin.Script
import FairCoin.ScriptFlags
import FairCoin.SignatureEncoding
import FairCoin.ScriptMachine
import FairCoin.ScriptAccess
import FairCoin.ScriptSafety
import FairCoin.SigOps
import FairCoin.Lib.Canonical
import FairCoin.WireForm
import FairCoin.SignatureHash
import FairCoin.Solver
import FairCoin.StandardScripts
import FairCoin.Signing
import FairCoin.Lib.BitTable
import FairCoin.Bloom
import FairCoin.BlockSigning
import FairCoin.FinalSigning
import FairCoin.PartialMerkleTrees
import FairCoin.ScriptRuns
import FairCoin.Spendable
import FairCoin.CheckQueue
import FairCoin.Transport
import FairCoin.Announcements
import FairCoin.MasternodeSync
import FairCoin.MasternodeRounds
import FairCoin.Mixing
import FairCoin.MixingSessions
import FairCoin.MixingSignatures
import FairCoin.VoteReplacement
import FairCoin.BudgetSchedule
import FairCoin.Lib.Greedy
import FairCoin.BudgetAllocation
import FairCoin.Lib.ByteOrder
import FairCoin.StakeModifiers
import FairCoin.StakeKernel
import FairCoin.TimestampIndex
import FairCoin.Lib.Worklist
import FairCoin.MemPool
import FairCoin.Lib.Marked
import FairCoin.CoinSelection
import FairCoin.CreateTransaction
import FairCoin.ObfuscationRounds
import FairCoin.MultiSend
import FairCoin.AddressGroupings
import FairCoin.Masternodes
import FairCoin.MasternodeMan
import FairCoin.Emission
import FairCoin.StakeTargets
import FairCoin.DarkGravityWave
import FairCoin.Lib.CString
import FairCoin.Lib.Radix
import FairCoin.MoneyText
import FairCoin.Base58
import FairCoin.Lib.Median
import FairCoin.TimeData
import FairCoin.AddressQueries
import FairCoin.AddressScans
import FairCoin.CryptoKeyStore
import FairCoin.Lib.VarInt
import FairCoin.Lib.Scaled
import FairCoin.Lib.Sparse
import FairCoin.Compressor
import FairCoin.CoinsStorage
import FairCoin.UndoFiles
import FairCoin.Lib.Reading
import FairCoin.BufferedFile
import FairCoin.Lib.Ascent
import FairCoin.CommonAncestors
import FairCoin.Locators
import FairCoin.Lib.Tally
import FairCoin.BlockDownloads
import FairCoin.Lib.Picking
import FairCoin.ModifierSelection
import FairCoin.CompactTargets
import FairCoin.ChainWork
import FairCoin.VarInts
import FairCoin.Lib.Repack
import FairCoin.BaseEncodings
import FairCoin.LimitedMap
import FairCoin.Lib.Inverted
import FairCoin.OrphanTransactions
import FairCoin.Lib.Digits
import FairCoin.BaseUint
import FairCoin.ScriptNumbers
import FairCoin.Lib.Pointers
import FairCoin.Lib.Buckets
import FairCoin.NetAddress
import FairCoin.AddressManager
import FairCoin.AddressTables
import FairCoin.AddressCalls
import FairCoin.AddressRuns
