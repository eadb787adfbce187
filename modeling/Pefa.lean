import Pefa.Lib.WhileLoop
import Pefa.Lib.ControlFlow
import Pefa.Lib.Bitmap
import Pefa.Lib.Blocks
import Pefa.Lib.Rechunk
import Pefa.Lib.Arena
import Pefa.Lib.Kleene
import Pefa.Lib.Runs
import Pefa.Lib.Linker
import Pefa.Lib.Ownership
import Pefa.Lib.Agree
import Pefa.Lib.Threaded
import Pefa.Lib.FloatFormat
import Pefa.Utils
import Pefa.Arrow
import Pefa.QueryCompiler.Expressions
import Pefa.QueryCompiler.LogicalPlan
import Pefa.QueryCompiler.PlanOptimizer
import Pefa.QueryCompiler.PlanShape
import Pefa.QueryCompiler.PlanComparisons
import Pefa.QueryCompiler.PlanHeap
import Pefa.QueryCompiler.SharedQueries
import Pefa.QueryCompiler.OptimizerRuns
import Pefa.QueryCompiler.OptimizerPasses
import Pefa.QueryCompiler.QueryCompiler
import Pefa.Kernels.LlvmHelpers
import Pefa.Kernels.Filter
import Pefa.Kernels.FilterMask
import Pefa.Kernels.KernelBounds
import Pefa.Kernels.LiteralRange
import Pefa.Kernels.FloatLiterals
import Pefa.Execution.ExecutionContext
import Pefa.Execution.FilterExpr
import Pefa.Execution.KernelCalls
import Pefa.Execution.AnyCalls
import Pefa.Execution.CallSafety
import Pefa.Execution.CompareBits
import Pefa.Execution.FilterExprTruth
import Pefa.Execution.WholeBytes
import Pefa.Execution.FusedKernel
import Pefa.Execution.Materialize
import Pefa.Execution.MaterializeRows
import Pefa.Execution.MaterializeCounters
import Pefa.Execution.DualPartition
import Pefa.Execution.Termination
import Pefa.Reference.RowTable
import Pefa.Reference.RowExecution
import Pefa.Reference.TableRows
import Pefa.Reference.Simulation
import Pefa.Reference.FirstFilter
import Pefa.Reference.BitmapFound
import Pefa.Reference.RawBuffers
import Pefa.Reference.Slices
import Pefa.Reference.NullSlots
import Pefa.Reference.Outcome
import Pefa.Reference.RowWise
import Pefa.Reference.Pipelines
import Pefa.Reference.Numeric
import Pefa.Reference.Integrity
import Pefa.Jit.Jit
import Pefa.Jit.OwnCode
import Pefa.Jit.Ownership
import Pefa.Jit.JitExecution
import Pefa.Jit.Session
import Pefa.Jit.CompiledKernels
import Pefa.Codegen.Ir
import Pefa.Codegen.FilterCode
import Pefa.Codegen.PredicateCode
import Pefa.Codegen.LoopCode
import Pefa.Codegen.LoopRuns
import Pefa.Codegen.RemainingRuns
import Pefa.Codegen.KernelCode
