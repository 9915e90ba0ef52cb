import Leviathan.Trident.VersionText
import Leviathan.Trident.RequireCycle
import Leviathan.Trident.LockCodec
import Leviathan.Trident.ChecksumLedger
import Leviathan.Trident.Manifest
import Leviathan.Trident.StoreHash
import Leviathan.Trident.AuditLog
import Leviathan.Driver.PlanCodec
import Leviathan.Sema.Assignable
import Leviathan.Sema.ImportOrder
import Leviathan.Sema.GenericCall
import Leviathan.Sema.ReifyFaithful
import Leviathan.Runtime.ParkProtocol
import Leviathan.Runtime.TransferCopy
import Leviathan.Runtime.ChannelEngines
import Leviathan.Frontend.LexerSpans
import Leviathan.Net.HttpProtocol
import Leviathan.MySql.PoolRuns
import Leviathan.MySql.PipelineRuns
import Leviathan.Runtime.ContainerRuns
import Leviathan.Ir.OwnershipRounds
import Leviathan.Json.RoundTrip
import Leviathan.Streams.StreamRuns
import Leviathan.Auth.SessionRuns
import Leviathan.Orm.SaveOutcome
import Leviathan.Sema.Specialize
import Leviathan.Meta.CloneFaithful
import Leviathan.Frontend.PrattTrees
import Leviathan.Sema.ShapeRight
import Leviathan.Sema.InterfaceCheck
import Leviathan.Orm.QueryStatement
import Leviathan.Ir.TypeTests
import Leviathan.Ir.ForInSnapshot
import Leviathan.Ir.AccessorRuns
import Leviathan.Sema.Injection
import Leviathan.Meta.Reify
import Leviathan.Prelude.OrderChain
import Leviathan.Prelude.LikeRuns
import Leviathan.Prelude.SeqEager
import Leviathan.Prelude.Sets
import Leviathan.Prelude.RegexCache
import Leviathan.Runtime.Utf8Chars
import Leviathan.Runtime.KeyEquality
import Leviathan.Runtime.BlockBounds
import Leviathan.Net.ResponseText
