import MmixCodegen.Event
import MmixCodegen.Instr

/-!
# Flow graphs and live temporaries

The flow graph of a routine says where control may go next, and the live sets
of a routine are found by backward passes over it.
-/

set_option autoImplicit false

namespace MmixCodegen

/-!
## Flow graphs

The flow graph of a routine says for each instruction where control may go
next, as far as liveness is concerned. An instruction with jumps goes on at its
targets, any other one at the instruction after it. A label that is set twice
stands for its last occurrence. A jump to a label that is not set leaves the
routine if it is the exit label, and goes nowhere otherwise.
-/

namespace Flow

/-- An instruction as liveness sees it. -/
structure Node where
  /-- The temporaries it reads. -/
  uses : List Temp
  /-- The temporaries it writes. -/
  defs : List Temp
  /-- The indices of the instructions that may come next. -/
  succs : List Nat
  /-- Whether control may leave the routine from here. -/
  exits : Bool
deriving DecidableEq, Repr

/-- The index of the last member of a list with some property, with `index` the
index of the first one. -/
def lastIndex? {α : Type} (p : α → Bool) (index : Nat) : List α → Option Nat
  | [] => none
  | x :: xs =>
      match lastIndex? p (index + 1) xs with
      | some found => some found
      | none => if p x then some index else none

/-- The index of the last instruction that sets a label. -/
def labelIndex? (l : Label) (instrs : List Instr) : Option Nat :=
  lastIndex? (fun i => i.label? = some l) 0 instrs

/-- The targets of jumps, each of them once, in order of first occurrence. -/
def targets (instrs : List Instr) (jumps : List Label) : List Nat :=
  (jumps.filterMap fun l => labelIndex? l instrs).eraseDups

/-- Whether one of the jumps leaves a routine. -/
def leaves (instrs : List Instr) (exit : Label) (jumps : List Label) : Bool :=
  jumps.any fun l => l = exit && (labelIndex? l instrs).isNone

/-- The node of instruction number `index`. -/
def node (r : Routine) (index : Nat) (i : Instr) : Node where
  uses := i.uses
  defs := i.defs
  succs :=
    if i.jumps.isEmpty then
      if index + 1 < r.instrs.length then [index + 1] else []
    else targets r.instrs i.jumps
  exits := leaves r.instrs r.exit i.jumps

end Flow

/-- The flow graph of a routine. -/
structure FlowGraph where
  nodes : List Flow.Node
  /-- The temporary that is live where control leaves the routine. -/
  exitLive : Option Temp
deriving DecidableEq, Repr

namespace FlowGraph

/-- The flow graph of a routine. The return value is live at the exit if the
routine writes it at all. -/
def ofRoutine (r : Routine) : FlowGraph where
  nodes := r.instrs.mapIdx (Flow.node r)
  exitLive := if r.definesResult then some r.frame.rv else none

end FlowGraph

/-!
## Live temporaries

A temporary is live at a place if some way on from there reads it before
writing it. The live sets of a routine are found by backward passes over its
flow graph, each of which uses what it has already found, until a pass changes
nothing. From empty sets every pass but the last adds some temporary to some
set, which bounds the number of passes.
-/

namespace Flow

/-- The live sets of a node, from the temporaries that are live before each
instruction. -/
def transfer (exitLive : Option Temp) (before : Nat → TempSet) (n : Node) : Live :=
  let leaving : TempSet := if n.exits then TempSet.ofList exitLive.toList else ∅
  let after := n.succs.foldl (fun live s => live ∪ before s) leaving
  ⟨(after \ TempSet.ofList n.defs) ∪ TempSet.ofList n.uses, after⟩

end Flow

namespace FlowGraph

/-- The temporaries that are live before an instruction. -/
def before (lives : Array Live) (index : Nat) : TempSet :=
  (lives.getD index .none).before

/-- Compute the live sets of one instruction anew. -/
def refresh (exitLive : Option Temp) (entry : Flow.Node × Nat) (lives : Array Live) : Array Live :=
  lives.setIfInBounds entry.2 (Flow.transfer exitLive (before lives) entry.1)

/-- One pass over all instructions, from the last to the first. -/
def pass (g : FlowGraph) (lives : Array Live) : Array Live :=
  g.nodes.zipIdx.foldr (refresh g.exitLive) lives

/-- Pass until nothing changes, at most `fuel` times. The count includes the
pass that changed nothing. -/
def settleWithin (g : FlowGraph) : Nat → Array Live → Array Live × Nat
  | 0, lives => (lives, 0)
  | fuel + 1, lives =>
      let next := g.pass lives
      if next = lives then (lives, 1)
      else
        let (settled, passes) := settleWithin g fuel next
        (settled, passes + 1)

/-- The temporaries that can be live anywhere. -/
def temps (g : FlowGraph) : TempSet :=
  TempSet.ofList (g.nodes.flatMap Flow.Node.uses ++ g.exitLive.toList)

/-- Passes that are enough to settle the live sets from empty ones. -/
def passBound (g : FlowGraph) : Nat :=
  2 * g.nodes.length * g.temps.size + 1

/-- The live sets of all instructions and the number of passes it took. -/
def settle (g : FlowGraph) : Array Live × Nat :=
  g.settleWithin g.passBound (Array.replicate g.nodes.length .none)

end FlowGraph

namespace Routine

/-- The live sets that the instructions carry. -/
def lives (r : Routine) : Array Live :=
  (r.instrs.map Instr.live).toArray

/-- Give the instructions new live sets. -/
def withLives (r : Routine) (lives : Array Live) : Routine :=
  { r with instrs := r.instrs.zipWith (fun i live => { i with live }) lives.toList }

/-- Compute the live sets of a routine anew. Gives the number of passes too. -/
def analyze (r : Routine) : Routine × Nat :=
  let (lives, passes) := (FlowGraph.ofRoutine r).settle
  (r.withLives lives, passes)

end Routine

namespace Program

/-- Compute the live sets of all routines anew. Gives the number of passes over
each routine too. -/
def analyze (p : Program) : Program × List Nat :=
  let analyzed := p.routines.map Routine.analyze
  ({ p with routines := analyzed.map Prod.fst }, analyzed.map Prod.snd)

/-- The events of an analysis. -/
def liveEvents (routines : List Routine) (passes : List Nat) : List Event :=
  routines.zipWith (fun r n => .liveSettled r.frame.label n) passes

end Program

end MmixCodegen
