import Wownero.Bytes
import Wownero.Archive
import Wownero.Transaction
import Wownero.Block
import Wownero.Consensus
import Wownero.Difficulty
import Wownero.TxRules
import Wownero.Checkpoints
import Wownero.SplitSorted
import Wownero.RankedTable
import Wownero.Crypto
import Wownero.Storage
import Wownero.WeightWindow
import Wownero.Chain
import Wownero.Reorg
import Wownero.Outcome
import Wownero.StoreSpecs
import Wownero.Records
import Wownero.Runs
import Wownero.Sample
import Wownero.Caches
import Wownero.StoreInverse
import Wownero.Validation
import Wownero.History
import Wownero.AltChains
import Wownero.Rollback
import Wownero.Windows
import Wownero.Lineage
import Wownero.Work
import Wownero.Fee
import Wownero.Mempool
import Wownero.Signatures
import Wownero.Upkeep
import Wownero.ChainTxs
import Wownero.Codec
import Wownero.Rules
import Wownero.Pool
import Wownero.Admission
import Wownero.PoolRuns
import Wownero.Node
import Wownero.KeyImages
import Wownero.Clock
import Wownero.AltPath
import Wownero.AltStore
import Wownero.Stepwise
import Wownero.Books
import Wownero.Spends
import Wownero.Displaced
import Wownero.Restart
import Wownero.Supply
import Wownero.BlockQueue
import Wownero.Keys
import Wownero.TxExtra
import Wownero.Scan
import Wownero.Decoys
import Wownero.Holdings
import Wownero.Wallet
import Wownero.Refresh
import Wownero.Framed
import Wownero.Progress
import Wownero.Marks
import Wownero.SpentRuns
import Wownero.Images
import Wownero.Replay
import Wownero.Paths
import Wownero.OutputAlone
import Wownero.Lookups
import Wownero.WholeBlocks
import Wownero.WholeRefresh
import Wownero.RctCodec
import Wownero.ExactInverse
import Wownero.Ends
import Wownero.Planning
import Wownero.Picking
import Wownero.PlanSound
import Wownero.SweepSound
import Wownero.Affording
import Wownero.PlanComplete
import Wownero.Numbering
import Wownero.RingStore
import Wownero.RingReferences
import Wownero.Announce
import Wownero.Relay
import Wownero.ColdImport
import Wownero.Stems
import Wownero.Utf8
import Wownero.Epee
import Wownero.EpeeRoundTrip
import Wownero.EpeeAccepts
import Wownero.IpText
import Wownero.BanTarget
import Wownero.AddressBook
import Wownero.AddressBookRuns
import Wownero.PeerState
import Wownero.PeerStateCodec
import Wownero.PeerStateKept
import Wownero.GammaPick
import Wownero.RingRequest
import Wownero.RingShape
import Wownero.Penalty
import Wownero.Wide
import Wownero.ClassicDifficulty
import Wownero.Template
import Wownero.TemplateSound
import Wownero.PoolRecords
import Wownero.TemplateChain
import Wownero.DifficultyChecked
import Wownero.DifficultyFloor
import Wownero.Base58
import Wownero.Addresses
import Wownero.Seeds
import Wownero.SeedLists
import Wownero.FeeTiers
import Wownero.ClsagSign
import Wownero.Varint
import Wownero.HashCheck
import Wownero.CountMap
import Wownero.RollingMedian
import Wownero.Weight
import Wownero.ExtraFields
import Wownero.KeysFile
import Wownero.Levin
