import CaccSecure.Lib.Machine
import CaccSecure.Lib.Circular
import CaccSecure.Lib.Recency
import CaccSecure.Lib.StdList
import CaccSecure.Lib.SlidingWindow
import CaccSecure.Lib.Ewma
import CaccSecure.Lib.Bytes
import CaccSecure.Lib.Tlv
import CaccSecure.Lib.Interleaving
import CaccSecure.Lib.Guessing
import CaccSecure.Lib.Rounding
import CaccSecure.SecurityEngine
import CaccSecure.SeqCache
import CaccSecure.SeqCacheHistory
import CaccSecure.SeqCacheRepresentation
import CaccSecure.ReplayExposure
import CaccSecure.RateLimiter
import CaccSecure.RateWindow
import CaccSecure.RateHistory
import CaccSecure.Reputation
import CaccSecure.TrustAverage
import CaccSecure.TrustOrder
import CaccSecure.CaccCore
import CaccSecure.RouterPipeline
import CaccSecure.PhInflation
import CaccSecure.Books
import CaccSecure.HeaderCodec
import CaccSecure.Helper
import CaccSecure.FailClosed
import CaccSecure.DroppedPackets
import CaccSecure.CachingProbability
import CaccSecure.Fleet
import CaccSecure.TagGuessing
import CaccSecure.TrustReinforcement
import CaccSecure.Replay
import CaccSecure.Producer
import CaccSecure.InOrderTraffic
import CaccSecure.HonestTraffic
import CaccSecure.HonestChain
import CaccSecure.Adversary
import CaccSecure.Isolation
import CaccSecure.PhInflationHook
import CaccSecure.ReplayHook
import CaccSecure.TlvHeader
import CaccSecure.TlvVerification
import CaccSecure.TlvCache
import CaccSecure.FleetLocality
import CaccSecure.Network
import CaccSecure.RouterHistory
import CaccSecure.RouterLine
import CaccSecure.TamperingHooks
import CaccSecure.ByzantineHook
import CaccSecure.HybridHook
import CaccSecure.InflationRuns
import CaccSecure.AttackSafety
import CaccSecure.ReplayRuns
import CaccSecure.ContentNetwork
import CaccSecure.ProducerRestart
import CaccSecure.CacheContention
import CaccSecure.Footprint
import CaccSecure.TrustDiscount
import CaccSecure.HelperRuns
import CaccSecure.CleanScripts
