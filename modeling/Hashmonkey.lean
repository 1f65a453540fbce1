import Hashmonkey.Crypto.TreeBranch
import Hashmonkey.Ringct.BulletproofPlusBatch
import Hashmonkey.Core.Longhash
import Hashmonkey.Core.Supply
import Hashmonkey.Core.AltTimestamps
import Hashmonkey.Core.AltCoins
import Hashmonkey.Core.ForkChoice
import Hashmonkey.Core.DifficultyRuns
import Hashmonkey.Core.DynamicFee
import Hashmonkey.Core.MinerTx
import Hashmonkey.Core.ReturnTxs
import Hashmonkey.Db.RctOutputs
import Hashmonkey.Pool.PruneRollback
import Hashmonkey.Epee.Hex
import Hashmonkey.Core.ChainSupplement
import Hashmonkey.Core.CheckpointRuns
import Hashmonkey.Wallet.Spent
import Hashmonkey.Wallet.ParsedBlocks
import Hashmonkey.Protocol.BlockQueueRuns
import Hashmonkey.Protocol.FluffFlush
import Hashmonkey.Protocol.NoiseChannel
import Hashmonkey.Protocol.SpanHeights
import Hashmonkey.Epee.StorageRoundTrip
import Hashmonkey.Epee.JsonComplete
import Hashmonkey.Epee.JsonRoundTrip
import Hashmonkey.Multisig.KexCounts
import Hashmonkey.Core.DifficultyWords
import Hashmonkey.Core.RewardPenalty
import Hashmonkey.Core.HardForkVotes
import Hashmonkey.Common.Utf8
