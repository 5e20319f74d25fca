import Kolme.Lib.Result
import Kolme.Lib.Exec
import Kolme.Lib.Trace
import Kolme.Lib.Machine
import Kolme.Lib.Bytes
import Kolme.Lib.Codec
import Kolme.Lib.Abi
import Kolme.Lib.Quorum
import Kolme.Lib.SortedMap
import Kolme.Lib.Queue
import Kolme.Lib.LruCache
import Kolme.Shared.Types
import Kolme.Shared.Cosmos
import Kolme.Shared.Solana
import Kolme.Contracts.Cosmos
import Kolme.Contracts.Solana.Solbox
import Kolme.Contracts.Solana.Bridge
import Kolme.Contracts.Ethereum.BridgeBase
import Kolme.Contracts.Ethereum.BridgeActions
import Kolme.Contracts.Ethereum.Bridge
import Kolme.Contracts.Ethereum.Signers
import Kolme.Core.Decimal
import Kolme.Core.Types
import Kolme.Core.Accounts
import Kolme.Core.Payload
import Kolme.Core.State
import Kolme.Core.Execute
import Kolme.Core.Effects
import Kolme.Core.Chains
import Kolme.Core.Handlers
import Kolme.Core.Runs
import Kolme.Core.Counter
import Kolme.Core.Block
import Kolme.Components.Upgrader
import Kolme.Components.Gossip
import Kolme.Properties.SolanaStorage
import Kolme.Properties.EthereumRotation
import Kolme.Properties.RotationReplay
import Kolme.Properties.Replay
import Kolme.Properties.Freshness
import Kolme.Properties.Deposits
import Kolme.Properties.Governance
import Kolme.Properties.EventOrder
import Kolme.Properties.Settled
import Kolme.Properties.Solvency
import Kolme.Properties.Conservation
import Kolme.Properties.ContentsLoading
import Kolme.Properties.ValidSets
import Kolme.Properties.Submittable
import Kolme.Properties.ActionEncoding
import Kolme.Properties.Instantiation
import Kolme.Components.SolanaListener
import Kolme.Properties.EventReports
import Kolme.Properties.MerkleMaps
import Kolme.Contracts.Solana.Onchain
import Kolme.Contracts.Solana.Instructions
import Kolme.Properties.SolanaSafety
import Kolme.Properties.CosmosSafety
import Kolme.Properties.EthereumSafety
import Kolme.Merkle.Contents
import Kolme.Properties.StoreAgreement
import Kolme.Properties.ForkRanges
import Kolme.Properties.Forks
import Kolme.Properties.SyncSlots
import Kolme.Properties.FjallKeys
import Kolme.Properties.ActionQueue
import Kolme.Properties.LastKey
import Kolme.Properties.LockedContents
import Kolme.Properties.StateFormats
import Kolme.Properties.AccountRecords
import Kolme.Properties.DecoderTotality
import Kolme.Properties.CanonicalBytes
import Kolme.Components.LayerWriters
import Kolme.Properties.WriteOrder
import Kolme.Properties.LowS
import Kolme.Properties.SubmitterProgress
import Kolme.Properties.KeyLengths
import Kolme.Merkle.Load
import Kolme.Properties.Varint
import Kolme.Properties.AssetAmounts
import Kolme.Components.Mempool
import Kolme.Properties.MempoolOrder
import Kolme.Properties.AccountErrors
import Kolme.Properties.MapHistory
import Kolme.Properties.ImportedItems
import Kolme.Properties.Followers
import Kolme.Contracts.Authority
import Kolme.Properties.ContractAgreement
