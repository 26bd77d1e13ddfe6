import ZzLang.Ir.Decode
import ZzLang.Ir.RoundTrip
import ZzLang.Ir.Container
import ZzLang.Ir.DecodeGuards
import ZzLang.Checker.Ty
import ZzLang.Checker.Unify
import ZzLang.Checker.UnifyWalks
import ZzLang.Checker.UnifySound
import ZzLang.Library.PatternMatrix
import ZzLang.Runtime.MatchPattern
import ZzLang.Checker.Tables
import ZzLang.Syntax.Diag
import ZzLang.Checker.BindPattern
import ZzLang.Runtime.HasType
import ZzLang.Runtime.MatchTotal
import ZzLang.Checker.MatchAccepted
import ZzLang.Checker.Structs
import ZzLang.Checker.EmbeddingAgree
import ZzLang.Library.Lockstep
import ZzLang.Vm.Frames
import ZzLang.Vm.Scoped
import ZzLang.Vm.DeferAgree
import ZzLang.Checker.TryAgree
import ZzLang.Vm.TryConvert
import ZzLang.Library.ScopeChain
import ZzLang.Runtime.Env
import ZzLang.Runtime.EnvLaws
import ZzLang.Library.Region
import ZzLang.Runtime.Snapshot
import ZzLang.Vm.CallMemo
import ZzLang.Conc.Channel
import ZzLang.Conc.RingInvariant
import ZzLang.Conc.Mutex
import ZzLang.Conc.Tasks
import ZzLang.Conc.Conserve
import ZzLang.Conc.Schedule
import ZzLang.Conc.Waiters
import ZzLang.Conc.Fifo
import ZzLang.Conc.Join
import ZzLang.Runtime.SpawnCache
import ZzLang.Runtime.DeepClone
import ZzLang.Ir.Depth
import ZzLang.Ir.Infer
import ZzLang.Library.Stutter
import ZzLang.Runtime.Binary
import ZzLang.Ir.Machine
import ZzLang.Ir.Verify
import ZzLang.Ir.ExpandFused
import ZzLang.Ir.Derotate
import ZzLang.Hir.Ast
import ZzLang.Hir.CallGraph
import ZzLang.Hir.Dce
import ZzLang.Db.PgConn
import ZzLang.Db.Transaction
import ZzLang.Aot.Channel
import ZzLang.Pm.Gc
import ZzLang.Aot.ChannelStep
import ZzLang.Aot.ChannelFlow
import ZzLang.Aot.ChannelWaiters
import ZzLang.Aot.ChannelFifo
import ZzLang.Aot.Deque
import ZzLang.Aot.Executor
import ZzLang.Aot.Heal
import ZzLang.Aot.Stores
import ZzLang.Checker.CallArgs
import ZzLang.Db.BindParams
import ZzLang.Hir.Reach
import ZzLang.Http.Message
import ZzLang.Http.Serve
import ZzLang.Http.Framing
import ZzLang.Hir.Capture
import ZzLang.Hir.CaptureWalk
import ZzLang.Http.ResponseRules
import ZzLang.Http.Responses
import ZzLang.Library.StackCode
import ZzLang.Vm.SqlBind
import ZzLang.Runtime.IntPower
import ZzLang.Library.FirstIndex
import ZzLang.Runtime.DictData
import ZzLang.Runtime.Fields
import ZzLang.Vm.TakeOps
import ZzLang.Vm.TakeIntact
import ZzLang.Vm.TakePlain
import ZzLang.Runtime.Json
import ZzLang.Runtime.StructLit
import ZzLang.Vm.RangeLoop
import ZzLang.Library.JsonGrammar
import ZzLang.Library.JsonText
import ZzLang.Runtime.JsonExact
import ZzLang.Runtime.JsonPrint
import ZzLang.Runtime.JsonRoundTrip
import ZzLang.Syntax.Dedent
import ZzLang.Syntax.MoveElide
import ZzLang.Library.Tiling
import ZzLang.Syntax.LexMoves
import ZzLang.Syntax.LexTiles
import ZzLang.Arena.Placement
import ZzLang.Arena.Runs
import ZzLang.Db.ConnInfo
import ZzLang.Db.MysqlCells
import ZzLang.Db.Placeholders
import ZzLang.Db.Scram
import ZzLang.Http.Middleware
import ZzLang.Library.Walks
import ZzLang.Aot.DictRefine
import ZzLang.Fs.CacheRuns
import ZzLang.Fs.TarTree
import ZzLang.Lsp.Positions
import ZzLang.Pm.ClosureCheck
import ZzLang.Runtime.MathNatives
import ZzLang.Script.Csv
import ZzLang.Path.Joins
import ZzLang.Aot.JsonStr
import ZzLang.Conc.LfRing
import ZzLang.Ir.DepthTable
import ZzLang.Checker.UnifyTrial
import ZzLang.Runtime.JsonSlips
import ZzLang.Path.JoinLaws
