import MmixCodegen.Text
import MmixCodegen.Temp
import MmixCodegen.Template
import MmixCodegen.Tree
import MmixCodegen.Instr
import MmixCodegen.Operation
import MmixCodegen.Failure
import MmixCodegen.Event
import MmixCodegen.Select
import MmixCodegen.Flow
import MmixCodegen.Interference
import MmixCodegen.Allocator.State
import MmixCodegen.Allocator.Action
import MmixCodegen.Allocator.Round
import MmixCodegen.Spill
import MmixCodegen.Assembly
import MmixCodegen.Session
import MmixCodegen.Proofs.Template
import MmixCodegen.Proofs.Mmix.Read
import MmixCodegen.Proofs.Mmix.Step
import MmixCodegen.Proofs.Mmix.Constant
import MmixCodegen.Proofs.Layout
import MmixCodegen.Proofs.Tree
import MmixCodegen.Proofs.Select.Emit
import MmixCodegen.Proofs.Interference
import MmixCodegen.Proofs.Core
import MmixCodegen.Proofs.Allocator.Alias
import MmixCodegen.Proofs.Allocator.Ease
import MmixCodegen.Proofs.Allocator.Degree
import MmixCodegen.Proofs.Allocator.Step
import MmixCodegen.Proofs.Allocator.Linked
import MmixCodegen.Proofs.Allocator.Drain
import MmixCodegen.Proofs.Allocator.View
import MmixCodegen.Proofs.Allocator.Underway
import MmixCodegen.Proofs.Allocator.Sort
import MmixCodegen.Proofs.Allocator.Assign
import MmixCodegen.Proofs.Allocator.Round
import MmixCodegen.Proofs.Allocator.Reuse
import MmixCodegen.Proofs.Allocator.Termination
import MmixCodegen.Proofs.Allocator.Engaged
import MmixCodegen.Proofs.Coloring
import MmixCodegen.Proofs.Allocator.Part
import MmixCodegen.Proofs.Allocator.Follow
import MmixCodegen.Proofs.Disjoint
import MmixCodegen.Proofs.Flow.Live
import MmixCodegen.Proofs.Flow.Analyze
import MmixCodegen.Proofs.Machine
import MmixCodegen.Proofs.Binding
import MmixCodegen.Proofs.Assembly
import MmixCodegen.Proofs.Select.Shape
import MmixCodegen.Proofs.Mmix.Word
import MmixCodegen.Proofs.Select.Expr
import MmixCodegen.Proofs.Select.Stmt
import MmixCodegen.Proofs.Select.Runs
import MmixCodegen.Proofs.Select.Program
import MmixCodegen.Proofs.Select.Call
import MmixCodegen.Proofs.Spill.Cell
import MmixCodegen.Proofs.Spill.Access
import MmixCodegen.Proofs.Spill.Related
import MmixCodegen.Proofs.Spill.Runs
import MmixCodegen.Proofs.Flow.Least
import MmixCodegen.Proofs.Spill.Held
import MmixCodegen.Proofs.Spill.Live
import MmixCodegen.Proofs.Spill.Boundary
import MmixCodegen.Proofs.Spill.Layer
import MmixCodegen.Proofs.Spill.Round
import MmixCodegen.Proofs.Printable
import MmixCodegen.Proofs.Select.Failure
import MmixCodegen.Proofs.Select.Order
import MmixCodegen.Proofs.Select.Trace
import MmixCodegen.Proofs.Select.Modest
import MmixCodegen.Proofs.Compile
import MmixCodegen.Proofs.Convergence
import MmixCodegen.Proofs.Flow.Path
import MmixCodegen.Proofs.Flow.Passes
import MmixCodegen.Proofs.Spill.Placement
import MmixCodegen.Proofs.Spill.Recasts
import MmixCodegen.Proofs.Substitution
import MmixCodegen.Proofs.Select.Conform
import MmixCodegen.Proofs.Isolation
import MmixCodegen.Proofs.Coalescing
import MmixCodegen.Proofs.Spill.Spared
import MmixCodegen.Proofs.Descent
import MmixCodegen.Proofs.Liveness
import MmixCodegen.Proofs.Result
import MmixCodegen.Proofs.Mmix.Packing
import MmixCodegen.Proofs.Allocator.Lookup
