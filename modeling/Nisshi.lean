import Nisshi.Coordinator.OneGroup
import Nisshi.Dynostore.ReadYourWrites
import Nisshi.Postgres.Group
import Nisshi.Sql.ByteLimit
import Nisshi.Service.Gate
import Nisshi.Dynostore.Decisions
import Nisshi.Dynostore.EpochOrder
import Nisshi.Dynostore.TopicLife
import Nisshi.Dynostore.LookupExact
import Nisshi.Coordinator.ReadBack
import Nisshi.Coordinator.StaticMembers
import Nisshi.Coordinator.Generations
import Nisshi.Coordinator.Deadlines
import Nisshi.Coordinator.InitialRebalance
import Nisshi.Storage.BatcherAnswers
import Nisshi.Proxy.Interference
import Nisshi.Proxy.Ticket
import Nisshi.Storage.FetchLimits
import Nisshi.SansIo.Append
import Nisshi.SansIo.Builder
import Nisshi.Postgres.Retention
import Nisshi.Postgres.ListOffsets
import Nisshi.Sql.Keyed
import Nisshi.SansIo.Assignor
import Nisshi.Slatedb.Compaction
