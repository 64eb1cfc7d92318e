import Rmdb.Kit.Bytes
import Rmdb.Kit.Result
import Rmdb.Errors
import Rmdb.Storage.Disk
import Rmdb.Replacer.Lru
import Rmdb.Storage.BufferPool
import Rmdb.Storage.PoolSteps
import Rmdb.Storage.PoolInvariant
import Rmdb.Storage.Transparent
import Rmdb.Kit.Bits
import Rmdb.Record.Bitmap
import Rmdb.Record.Layout
import Rmdb.Record.FileHandle
import Rmdb.Record.Page
import Rmdb.Kit.Links
import Rmdb.Record.FlatFile
import Rmdb.Record.FileOps
import Rmdb.Record.FileSpec
import Rmdb.Record.RecordMap
import Rmdb.Record.FreeList
import Rmdb.Record.Scan
import Rmdb.Storage.Files
import Rmdb.Kit.Refines
import Rmdb.Record.PoolStore
import Rmdb.Record.PoolFile
import Rmdb.Record.PoolOps
import Rmdb.Storage.FileEvents
import Rmdb.Record.Tables
import Rmdb.Record.TableSteps
import Rmdb.Record.Isolation
import Rmdb.Common
import Rmdb.System.Meta
import Rmdb.Optimizer.Plan
import Rmdb.Kit.Tuples
import Rmdb.Optimizer.Meaning
import Rmdb.Optimizer.JoinTree
import Rmdb.Optimizer.OneRel
import Rmdb.Parser.Ast
import Rmdb.Analyze.Analyze
import Rmdb.Analyze.Names
import Rmdb.Kit.Outcome
import Rmdb.Execution.Conditions
import Rmdb.Execution.Executors
import Rmdb.Execution.Lockstep
import Rmdb.Execution.Restart
import Rmdb.Execution.Finite
import Rmdb.Execution.Dml
import Rmdb.Execution.Update
import Rmdb.Analyze.Accepted
import Rmdb.Execution.Inside
import Rmdb.Execution.Statement
import Rmdb.Kit.Flex
import Rmdb.Parser.Lexer
import Rmdb.Parser.Requests
import Rmdb.Execution.Product
import Rmdb.Storage.Pins
import Rmdb.Storage.Shared
import Rmdb.Record.Balance
import Rmdb.Storage.Faults
import Rmdb.Execution.Insert
import Rmdb.Index.IxManager
import Rmdb.Index.Nodes
import Rmdb.Kit.Stream
import Rmdb.System.Codec
import Rmdb.System.SmManager
import Rmdb.Record.FileNames
import Rmdb.System.Catalog
import Rmdb.Optimizer.PushDown
import Rmdb.Execution.Comparison
import Rmdb.Replacer.History
import Rmdb.Storage.Refusal
import Rmdb.Record.Enumerate
import Rmdb.Kit.Inverse
import Rmdb.Storage.OpenFiles
import Rmdb.Kit.Buffer
import Rmdb.Recovery.LogRecord
import Rmdb.Index.Reopen
import Rmdb.Storage.NewPages
import Rmdb.System.Schema
import Rmdb.Execution.TypeErrors
import Rmdb.Execution.Composed
import Rmdb.Record.InvalidRid
import Rmdb.Kit.Clip
import Rmdb.Execution.RecordPrinter
import Rmdb.Kit.Moves
import Rmdb.Record.Kept
import Rmdb.System.CloseDb
import Rmdb.Kit.Joined
import Rmdb.System.IndexNames
import Rmdb.Kit.Numeral
import Rmdb.Parser.Literals
import Rmdb.Parser.Written
import Rmdb.Execution.Literals
import Rmdb.Kit.Regions
import Rmdb.Record.Parts
import Rmdb.Index.KeyOrder
import Rmdb.Kit.Holds
import Rmdb.Storage.Steady
import Rmdb.Index.IxScan
import Rmdb.Index.LeafChain
import Rmdb.Kit.Ring
import Rmdb.Storage.Rewrite
import Rmdb.Index.LeafRing
import Rmdb.Index.Tree
import Rmdb.Index.MaintainParent
import Rmdb.Parser.Words
import Rmdb.Parser.Grammar
import Rmdb.Record.Raises
import Rmdb.Server.ErrorReply
import Rmdb.Execution.Calm
import Rmdb.Execution.Converted
import Rmdb.Optimizer.SelectPlan
import Rmdb.Server.Checks
import Rmdb.Analyze.Resolved
import Rmdb.Server.Analysis
import Rmdb.Server.Ddl
import Rmdb.Server.Dml
import Rmdb.Server.Select
import Rmdb.Server.Projection
import Rmdb.Server.Replies
import Rmdb.Execution.Answer
import Rmdb.Execution.Leaves
import Rmdb.Execution.Yields
import Rmdb.Server.Answer
import Rmdb.Kit.Derives
import Rmdb.Kit.Pause
import Rmdb.Parser.Derivations
import Rmdb.Parser.Reductions
import Rmdb.Parser.Yyparse
import Rmdb.Kit.Threads
import Rmdb.Server.Threads
import Rmdb.Parser.Identifiers
import Rmdb.Server.Requests
import Rmdb.System.ShowTables
import Rmdb.Optimizer.Trunk
import Rmdb.Execution.Tame
import Rmdb.Execution.Careful
import Rmdb.Execution.OneRow
import Rmdb.Execution.Stuck
import Rmdb.Server.Concludes
import Rmdb.Server.TypeErrors
