import Polyc.Lib.Sweep
import Polyc.Lib.Flow
import Polyc.Ir.Types
import Polyc.Ir.Semantics
import Polyc.Ir.FlowGraph
import Polyc.Backend.RegPool
import Polyc.Ir.Forward
import Polyc.Ir.ForwardCorrect
import Polyc.Ir.Eval
import Polyc.Ir.Optimise
import Polyc.Ir.EvalArith
import Polyc.Ir.SSA
import Polyc.Ir.EvalWalk
import Polyc.Ir.FoldsTo
import Polyc.Ir.EvalCorrect
import Polyc.Lib.Allocator
import Polyc.Ast.Types
import Polyc.Abi.Classify
import Polyc.Abi.SysvCall
import Polyc.Abi.SysvAgree
import Polyc.Ir.LowerParams
import Polyc.Ir.LowerBody
import Polyc.Ir.UniqueIds
import Polyc.Abi.ParamLocations
import Polyc.Abi.ParamLocationsAgree
import Polyc.Abi.AapcsCall
import Polyc.Abi.AapcsAgree
import Polyc.Lib.LinearScan
import Polyc.Ir.RegAlloc
import Polyc.Ir.SlotRanges
import Polyc.Ir.Positions
import Polyc.Ir.SlotRuns
import Polyc.Ir.RegAllocCorrect
import Polyc.Lib.OpenAddressing
import Polyc.Containers.MapOps
import Polyc.Containers.MapIterates
import Polyc.Containers.HashSet
import Polyc.Lib.Refinement
import Polyc.Containers.MapValid
import Polyc.Containers.MapResize
import Polyc.Containers.MapCorrect
import Polyc.Containers.HashSetValid
import Polyc.Containers.HashSetCorrect
import Polyc.Ir.Builder
import Polyc.Ir.LowerExpr
import Polyc.Ir.EvalExpr
import Polyc.Ir.BuilderRuns
import Polyc.Ir.LowerExprCorrect
import Polyc.Ir.EvalAdds
import Polyc.Ir.LogicalOps
import Polyc.Ir.DirectReads
import Polyc.Ir.LowerStmt
import Polyc.Ir.ScanStmt
import Polyc.Ir.BuilderFlow
import Polyc.Ir.StmtInv
import Polyc.Ir.LowerStmtCorrect
import Polyc.Lexer.PreProc
import Polyc.Lib.RingWindow
import Polyc.Lexer.TokenBuffer
import Polyc.Lexer.ReadAhead
import Polyc.Lib.Bytes
import Polyc.Lib.BitField
import Polyc.Asm.Enc
import Polyc.Asm.Jit
import Polyc.Asm.JitExec
import Polyc.Asm.JitPatch
import Polyc.Asm.JitCorrect
import Polyc.Asm.JitFinalize
import Polyc.Asm.JitBinding
import Polyc.Asm.JitChunk
import Polyc.Asm.AsmEncode
import Polyc.Asm.LocalLabels
import Polyc.Asm.ResolveLocals
import Polyc.Lib.Blocks
import Polyc.Parser.ClassTypes
import Polyc.Parser.ClassOffsets
import Polyc.Parser.ClassLayout
import Polyc.Parser.ClassSound
import Polyc.Parser.Inline
import Polyc.Parser.InlineCorrect
import Polyc.Lib.Loop
import Polyc.Lib.Calendar
import Polyc.HolycLib.Date
import Polyc.Lib.CString
import Polyc.HolycLib.StrCmp
import Polyc.Lib.Heap
import Polyc.Memsafe.Memsafe
import Polyc.Memsafe.LiveMap
import Polyc.Memsafe.MemsafeInv
import Polyc.Memsafe.MemsafeOps
import Polyc.Memsafe.MemsafeCorrect
import Polyc.Lib.Tombstones
import Polyc.HolycLib.HashTable
import Polyc.HolycLib.HashTableCorrect
import Polyc.HolycLib.HashTableOps
import Polyc.HolycLib.IntMap
import Polyc.HolycLib.StrMap
import Polyc.Lib.RedBlack
import Polyc.HolycLib.RBTree
import Polyc.HolycLib.RBTreeHeap
import Polyc.HolycLib.RBTreeFixUp
import Polyc.HolycLib.RBTreeInsert
import Polyc.HolycLib.RBTreeCorrect
import Polyc.Parser.Switch
import Polyc.Parser.SwitchWalk
import Polyc.Parser.SwitchArms
import Polyc.Parser.SwitchCorrect
import Polyc.Ast.BinaryOp
import Polyc.Ast.BinaryOpCorrect
import Polyc.HolycLib.BitVec
import Polyc.Lib.LinkedWalk
import Polyc.Containers.List
import Polyc.Containers.ListNodes
import Polyc.Containers.ListOps
import Polyc.Containers.ListCorrect
import Polyc.HolycLib.Memory
import Polyc.HolycLib.MemoryBlocks
import Polyc.HolycLib.MemoryCorrect
import Polyc.Ast.CompoundAssign
import Polyc.Ast.CompoundAssignCorrect
import Polyc.Ir.Frames
import Polyc.Ir.InPlace
import Polyc.Ir.DeadStores
import Polyc.Ir.AddressFusion
import Polyc.Ir.DeadCode
import Polyc.Ir.AddressFusionFolds
import Polyc.Ir.AddressFusionCorrect
import Polyc.Ir.AddressFusionWalk
import Polyc.Lib.Widths
import Polyc.Backend.Homes
import Polyc.Ir.LoadOpStore
import Polyc.Parser.SwitchLabels
import Polyc.Lexer.TokenCursor
import Polyc.Lexer.TokenCursorRing
import Polyc.Lexer.TokenCursorCorrect
import Polyc.Ast.ConstExpr
import Polyc.Lexer.Numeric
import Polyc.HolycLib.RBTreeDelete
import Polyc.Lexer.StringLiteral
import Polyc.Lexer.StringLiteralScan
import Polyc.Lexer.StringLiteralCorrect
import Polyc.Parser.CallArgs
import Polyc.Parser.CallArgsLoop
import Polyc.Parser.CallArgsCorrect
import Polyc.Lib.StateRuns
import Polyc.Lexer.Cursor
import Polyc.Lexer.Lex
import Polyc.Lexer.Directives
import Polyc.Lexer.CursorEnds
import Polyc.Lexer.DirectivesEnd
import Polyc.Lexer.LexSteps
import Polyc.Lexer.LexingEnds
import Polyc.HolycLib.Integers
import Polyc.HolycLib.Vector
import Polyc.HolycLib.Csv
import Polyc.Lib.Slices
import Polyc.HolycLib.WildMatch
import Polyc.Containers.StrSplit
import Polyc.HolycLib.OutStr
import Polyc.HolycLib.StrPrint
import Polyc.HolycLib.CivilDays
import Polyc.Json.JsonReader
import Polyc.Json.JsonStrings
import Polyc.Json.JsonWriter
import Polyc.Json.JsonRoundTrip
import Polyc.HolycLib.IntSet
import Polyc.Lib.Subsequence
import Polyc.HolycLib.StrReplace
import Polyc.HolycLib.FzF
import Polyc.HolycLib.FzFSearch
import Polyc.HolycLib.FzFCorrect
import Polyc.HolycLib.FzFMatchers
import Polyc.HolycLib.ThreadPool
import Polyc.HolycLib.ThreadPoolRuns
import Polyc.HolycLib.ThreadPoolCorrect
import Polyc.Lib.Regions
import Polyc.Memory.Arena
import Polyc.Lib.FreeLists
import Polyc.Lib.RoundUp
import Polyc.Memory.AoStr
import Polyc.Memory.AoStrPool
import Polyc.Memory.AoStrCorrect
import Polyc.Memory.MemPool
import Polyc.Memory.MemPoolChunks
import Polyc.Memory.MemPoolInv
import Polyc.Memory.MemPoolCompact
import Polyc.Memory.MemPoolCorrect
import Polyc.HolycLib.JsonSelect
