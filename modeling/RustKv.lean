import RustKv.Capacities
import RustKv.CloneReplies
import RustKv.Deadlines
import RustKv.Deadlocks
import RustKv.Delivery
import RustKv.Durability
import RustKv.EvictionRounds
import RustKv.FailedCalls
import RustKv.Handover
import RustKv.JsonPaths
import RustKv.LfuRuns
import RustKv.Linearization
import RustKv.ListHashRuns
import RustKv.LruSequence
import RustKv.LuaExchange
import RustKv.LuaPool
import RustKv.RecordReading
import RustKv.ReplicaFeeds
import RustKv.Restart
import RustKv.Sizes
import RustKv.SkipInvariant
import RustKv.TtlRounds
import RustKv.Variadic
import RustKv.WireRefinement
