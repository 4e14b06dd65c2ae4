import Candypool.Prime.RootPrimes
import Candypool.Prime.ChainFast
import Candypool.Coins.Supply
import Candypool.Chain.BlockLocator
import Candypool.Chain.MainChain
import Candypool.Chain.Selection
import Candypool.Chain.PoolIndex
import Candypool.Chain.AcceptBlock
import Candypool.Chain.FlushTwin
import Candypool.Chain.PoolConnect
import Candypool.Chain.CheckpointTip
import Candypool.Pool.Receive
import Candypool.Pool.Server
import Candypool.Pool.Packet
import Candypool.Pool.UniqueWork
import Candypool.Pool.Payout
import Candypool.Core.PartialMerkleRoundTrip
import Candypool.Prime.SieveExact
import Candypool.Script.SigOps
import Candypool.Script.Builder
import Candypool.Script.SigCache
import Candypool.Chain.BlockFile
import Candypool.Chain.OrphanTx
import Candypool.Chain.ClockVerdict
import Candypool.Chain.CheckpointFilter
import Candypool.Coins.CoinsFormat
import Candypool.Net.Alert
import Candypool.Net.LimitedMap
import Candypool.Wallet.KeyPool
import Candypool.Net.PeersReload
import Candypool.Chain.TemplateValid
import Candypool.Net.RefusedAlert
import Candypool.Chain.TargetRoundTrip
import Candypool.Chain.MintSchedule
import Candypool.Chain.ChainWork
import Candypool.Prime.MultiplierRange
import Candypool.Prime.CombinedGroups
import Candypool.Pool.TemplateRefresh
import Candypool.Pool.ReservedKeys
import Candypool.Script.CheckQueue
import Candypool.Net.MessageStream
import Candypool.Coins.LayerRuns
import Candypool.Core.VarIntCode
import Candypool.Core.AmountCode
import Candypool.Pool.PacketString
import Candypool.Pool.PacketHandlers
import Candypool.Pool.WorkPacket
import Candypool.Pool.ShareVerdict
import Candypool.Core.MerkleArray
import Candypool.Wallet.CreateTransaction
import Candypool.Script.CanonicalSignature
import Candypool.Script.MultiSig
import Candypool.Net.TriedVictim
import Candypool.Core.Money
import Candypool.Wallet.Base58
import Candypool.Net.TimeData
import Candypool.Net.PeerFilter
import Candypool.Chain.OrphanIndex
import Candypool.Wallet.AddressGroupings
import Candypool.Script.CombineSignatures
import Candypool.Chain.BlockFileStats
import Candypool.Prime.IntInvert
import Candypool.Prime.Primorial
import Candypool.Core.Base32
import Candypool.Core.UintHex
import Candypool.Script.BigNumCode
import Candypool.Lib.ReadProgram
import Candypool.Lib.RingWindow
import Candypool.Core.WireFormat
import Candypool.Core.BufferedFile
import Candypool.Core.DataStream
import Candypool.Chain.LoadBlockFile
import Candypool.Chain.Vetted
import Candypool.Chain.VerifyDB
import Candypool.Script.SignatureHash
import Candypool.Net.ProcessMessages
import Candypool.Lib.OrderedMap
import Candypool.Wallet.Crypter
import Candypool.Wallet.Encryption
import Candypool.Wallet.PlainWallet
import Candypool.Wallet.CryptedWallet
import Candypool.Wallet.KeysSurvive
