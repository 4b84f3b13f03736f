import MmixCodegen.Temp
import MmixCodegen.Template
import MmixCodegen.Tree

/-!
# Failures

Everything that can go wrong, one constructor per cause. `Failure.message`
holds the wording, `Failure.category` sorts the causes into kinds. Some causes
name where a temporary or a move stood in an allocation, so these statuses come
first.
-/

set_option autoImplicit false

namespace MmixCodegen

/-!
## Where temporaries and moves stand during an allocation

An allocation sorts the temporaries by how they can be treated next, and keeps
track of which moves may still be coalesced.
-/

/-- Where a temporary stands in the course of an allocation. -/
inductive NodeStatus where
  /-- Not sorted yet. -/
  | initial
  /-- Of low degree, and in no pending move. -/
  | simplify
  /-- Of low degree, and in some pending move. -/
  | freeze
  /-- Of high degree. -/
  | spill
  /-- Left without a register. -/
  | spilled
  /-- Merged into another temporary. -/
  | coalesced
  /-- Taken out of the graph, to be coloured later. -/
  | onStack
  /-- Given a register. -/
  | colored
deriving DecidableEq, Repr

/-- Where a move stands in the course of an allocation. -/
inductive MoveStatus where
  /-- Waiting to be looked at. -/
  | worklist
  /-- Its ends were merged. -/
  | coalesced
  /-- Its ends interfere. -/
  | constrained
  /-- No longer considered. -/
  | frozen
  /-- Looked at and put aside, to be tried again after a change nearby. -/
  | active
deriving DecidableEq, Repr

/-- The name of a status in messages. -/
def NodeStatus.describe : NodeStatus → String
  | initial => "Initial"
  | simplify => "Simplify"
  | freeze => "Freeze"
  | spill => "Spill"
  | spilled => "Spilled"
  | coalesced => "Coalesced"
  | onStack => "OnStack"
  | colored => "Colored"

/-- The name of a status in messages. -/
def MoveStatus.describe : MoveStatus → String
  | worklist => "Worklist"
  | coalesced => "Coalesced"
  | constrained => "Constrained"
  | frozen => "Frozen"
  | active => "Active"

namespace MoveStatus

/-- Whether a move may still be coalesced. -/
def isPending : MoveStatus → Bool
  | worklist => true
  | active => true
  | _ => false

end MoveStatus

/-!
## Failures

Everything that can go wrong, one constructor per cause. `Failure.message`
holds the wording, `Failure.category` sorts the causes into kinds.
-/

/-- The cause of a failure. -/
inductive Failure where
  /-- A move goes into something that is neither a temporary nor memory. -/
  | badDestination (dst : Expr)
  /-- An operation would write the frame pointer. -/
  | framePointerWritten (fp : Temp)
  /-- A template cannot be read. -/
  | malformedTemplate (fault : Template.Fault) (template : String)
  /-- A template names an operand that is not there. -/
  | readSlotOutOfRange (index : Nat) (template : String)
  /-- An operand has no register. -/
  | unassigned (t : Temp) (instr : String)
  /-- A neighbour does not list a temporary in return. -/
  | asymmetricEdge (u v : Temp)
  /-- The temporaries do not list each edge exactly twice. -/
  | miscountedEdges (listed edges : Nat)
  /-- A temporary is not in exactly the set that its status names. -/
  | misplacedNode (t : Temp) (status : NodeStatus) (found : List NodeStatus)
  /-- The sets together do not have as many members as there are temporaries. -/
  | miscountedNodes (classified nodes : Nat)
  /-- A move is not in exactly the set that its status names. -/
  | misplacedMove (index : Nat) (status : MoveStatus) (waiting active : Bool)
  /-- Two neighbours have the same register. -/
  | sharedRegister (u v : Temp) (reg : Register)
  /-- A register lies outside the allocatable ones. -/
  | registerOutOfRange (t : Temp) (reg : Register) (registers : Nat)
  /-- Spilling did not lead to a full colouring. -/
  | spillLimit (rounds : Nat)
  /-- A target without registers. -/
  | emptyTarget
  /-- A target with more registers than may be allocated. -/
  | tooManyRegisters (registers : Nat)
  /-- A target that allows no spill round. -/
  | noSpillRounds
  /-- A colouring with no registers was asked for. -/
  | emptyPalette
  /-- All numbers of temporaries are used up. -/
  | temporariesExhausted
  /-- The offset of a spill slot does not fit in a signed 64-bit word. -/
  | slotOffsetTooLarge
  /-- An operand has no register, and its instruction has no text to report. -/
  | unprintableInstr
deriving Repr

/-- The kinds of failure. -/
inductive Failure.Category where
  /-- The tree code cannot be expressed. -/
  | unsupported
  /-- An internal consistency check failed. -/
  | internal
  /-- The allocation did not come to an end. -/
  | spillLimit
  /-- The target description makes no sense. -/
  | target
  /-- A fixed limit of the representation was passed. -/
  | exhausted
deriving DecidableEq, Repr

namespace Failure

/-- The largest number of registers that may be allocated: the registers from
`$251` on belong to the run-time system. -/
def maxRegisters : Nat := 250

/-- The kind of a failure. -/
def category : Failure → Category
  | badDestination _ => .unsupported
  | framePointerWritten _ => .unsupported
  | malformedTemplate _ _ => .internal
  | readSlotOutOfRange _ _ => .internal
  | unassigned _ _ => .internal
  | asymmetricEdge _ _ => .internal
  | miscountedEdges _ _ => .internal
  | misplacedNode _ _ _ => .internal
  | miscountedNodes _ _ => .internal
  | misplacedMove _ _ _ _ => .internal
  | sharedRegister _ _ _ => .internal
  | registerOutOfRange _ _ _ => .internal
  | spillLimit _ => .spillLimit
  | emptyTarget => .target
  | tooManyRegisters _ => .target
  | noSpillRounds => .target
  | emptyPalette => .target
  | temporariesExhausted => .exhausted
  | slotOffsetTooLarge => .exhausted
  | unprintableInstr => .exhausted

/-- What went wrong, without the kind. -/
def detail : Failure → String
  | badDestination dst => s!"move into {dst.describe}, expected a temporary or memory"
  | framePointerWritten fp => s!"frame pointer {fp.name} cannot be written"
  | malformedTemplate .dangling template => s!"dangling operand marker in `{template}`"
  | malformedTemplate .noIndex template => s!"operand slot without index in `{template}`"
  | malformedTemplate (.unknownKind kind) template =>
      s!"unknown operand slot `{kind}` in `{template}`"
  | readSlotOutOfRange index template => s!"use slot {index} out of range in `{template}`"
  | unassigned t instr => s!"{t.name} in `{instr}` has no register"
  | asymmetricEdge u v => s!"interference edge {u.name} -- {v.name} is not symmetric"
  | miscountedEdges listed edges => s!"adjacency lists hold {listed} entries for {edges} edges"
  | misplacedNode t status found =>
      let sets := ", ".intercalate (found.map NodeStatus.describe)
      s!"{t.name} is {status.describe} but found in [{sets}]"
  | miscountedNodes classified nodes => s!"{classified} classified nodes for {nodes} temps"
  | misplacedMove index status waiting active =>
      s!"move {index} is {status.describe} but worklist={waiting} active={active}"
  | sharedRegister u v reg => s!"interfering temps {u.name} and {v.name} both colored {reg.name}"
  | registerOutOfRange t reg registers =>
      s!"{t.name} colored {reg.name}, outside the {registers} allocatable registers"
  | spillLimit rounds => s!"{rounds} spill rounds"
  | emptyTarget => "at least one allocatable register is required"
  | tooManyRegisters registers =>
      s!"at most {maxRegisters} allocatable registers, got {registers}"
  | noSpillRounds => "max_spill_rounds must be positive"
  | emptyPalette => "cannot color with zero registers"
  | temporariesExhausted => "no temporaries left"
  | slotOffsetTooLarge => "spill slot offset too large"
  | unprintableInstr => "instruction without text"

/-- The full text of a failure. -/
def message (f : Failure) : String :=
  match f.category with
  | .unsupported => "Unsupported IR: " ++ f.detail
  | .internal => "Internal allocator error: " ++ f.detail
  | .spillLimit => "Register allocation did not converge after " ++ f.detail
  | .target => "Invalid target configuration: " ++ f.detail
  | .exhausted => "Out of range: " ++ f.detail

end Failure

end MmixCodegen
