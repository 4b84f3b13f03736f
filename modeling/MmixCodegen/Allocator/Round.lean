import MmixCodegen.Allocator.Action
import MmixCodegen.Allocator.State
import MmixCodegen.Event
import MmixCodegen.Failure

/-!
# A round of allocation

A round adds the code of some routines to the graph, sorts the temporaries,
takes actions until nothing is left to do, and gives out the registers. After
each stage the state is checked. The state that a round ends in, also by a
failed check, can be carried over to another round.
-/

set_option autoImplicit false

namespace MmixCodegen

/-!
## Giving out registers

The stack is unwound: the temporary that left the graph last is first to get a
register. It takes the lowest one that no neighbour has, where a merged
neighbour counts as its representative. If none is left the temporary is
spilled. In the end merged temporaries get the register of their
representative.
-/

namespace Allocator

/-- The registers that may be given out, from the lowest on. There are no more
than 256. -/
def palette (registers : Nat) : List Register :=
  (List.range (min registers 256)).map Register.ofNat

/-- The register that a neighbour takes up. -/
def registerTaken? (a : Allocator) (neighbor : Temp) : Option Register :=
  let root := a.representative neighbor
  if a.status root = .colored then a.colors[root]? else none

/-- The lowest register that is free for a temporary. -/
def freeRegister? (a : Allocator) (t : Temp) : Option Register :=
  let taken := (a.graph.neighbors t).toList.filterMap a.registerTaken?
  (palette a.registers).find? fun r => !taken.contains r

/-- Give a temporary of the stack a register, or spill it. -/
def assign (a : Allocator) (t : Temp) : Allocator :=
  let compressed := a.compressAll (a.graph.neighbors t).toList
  match a.freeRegister? t with
  | some r => { compressed with colors := compressed.colors.insert t r }.place t .colored
  | none => compressed.place t .spilled

/-- Give a merged temporary the register of its representative. -/
def inherit (a : Allocator) (t : Temp) : Allocator :=
  let compressed := a.compress t
  match a.colors[a.representative t]? with
  | some r => { compressed with colors := compressed.colors.insert t r }
  | none => compressed

/-- Give out the registers. -/
def assignAll (a : Allocator) : Allocator :=
  let unwound := a.stack.foldl assign a
  unwound.sets.coalesced.toList.foldl inherit unwound

/-- The temporaries of a stack that were spilled, in the order of unwinding. -/
def actualSpills (a final : Allocator) : List Temp :=
  a.stack.filter fun t => final.status t = .spilled

end Allocator

/-!
## Checks on an allocation

Between its stages an allocation checks its own state: edges are listed at both
ends, every temporary and every move is in exactly the set that its status
names, and neighbours have different registers.
-/

namespace Allocator

/-- Fail with the first failure of a list. -/
def firstFailure (failures : List Failure) : Except Failure Unit :=
  match failures with
  | [] => .ok ()
  | f :: _ => .error f

/-- Whether `v`, which is listed as a neighbour of `u`, lists `u` in return and
there is an edge between them. -/
def isMirrored (a : Allocator) (u v : Temp) : Bool :=
  (a.graph.neighbors v).contains u && a.graph.interferes u v

/-- The listed neighbours that are not mirrored. -/
def unmirrored (a : Allocator) : List Failure :=
  a.graph.adjacency.toList.flatMap fun (u, neighbors) =>
    (neighbors.toList.filter fun v => !a.isMirrored u v).map (.asymmetricEdge u ·)

/-- Each temporary is listed by all of its neighbours, and each edge is listed
exactly twice. -/
def checkSymmetry (a : Allocator) : Except Failure Unit := do
  firstFailure a.unmirrored
  let edges := a.graph.edges.size
  if a.graph.listed = 2 * edges then pure () else throw (.miscountedEdges a.graph.listed edges)

/-- The statuses in whose sets a temporary is found. -/
def found (a : Allocator) (t : Temp) : List NodeStatus :=
  [(.simplify, a.sets.simplify.contains t), (.freeze, a.sets.freeze.contains t),
    (.spill, a.sets.spill.contains t), (.spilled, a.sets.spilled.contains t),
    (.coalesced, a.sets.coalesced.contains t), (.colored, a.sets.colored.contains t),
    (.onStack, a.stack.contains t)].filterMap fun (s, member) => if member then some s else none

/-- How many members all sets and the stack have together. -/
def classified (a : Allocator) : Nat :=
  a.sets.simplify.size + a.sets.freeze.size + a.sets.spill.size + a.sets.spilled.size +
    a.sets.coalesced.size + a.sets.colored.size + a.stack.length

/-- Whether a move with the given status is in exactly the right sets. -/
def isMovePlaced (status : MoveStatus) (waiting active : Bool) : Bool :=
  match status with
  | .worklist => waiting && !active
  | .active => active && !waiting
  | _ => !waiting && !active

/-- The temporaries that are not in exactly the set that their status names. -/
def misplacedNodes (a : Allocator) : List Failure :=
  a.graph.nodes.toList.filterMap fun t =>
    if a.found t = [a.status t] then none else some (.misplacedNode t (a.status t) (a.found t))

/-- The moves that are not in exactly the set that their status names. -/
def misplacedMoves (a : Allocator) : List Failure :=
  a.moveStatuses.toList.zipIdx.filterMap fun (status, index) =>
    let waiting := a.waiting.contains index
    let active := a.active.contains index
    if isMovePlaced status waiting active then none
    else some (.misplacedMove index status waiting active)

/-- Every temporary and every move is in exactly the set that its status names. -/
def checkPartition (a : Allocator) : Except Failure Unit := do
  firstFailure a.misplacedNodes
  let nodes := a.graph.nodes.size
  if a.classified = nodes then pure () else throw (.miscountedNodes a.classified nodes)
  firstFailure a.misplacedMoves

/-- The edges whose ends have the same register. -/
def clashes (a : Allocator) : List Failure :=
  a.graph.edges.toList.filterMap fun e =>
    match a.colors[e.low]?, a.colors[e.high]? with
    | some r, some s => if r = s then some (.sharedRegister e.low e.high r) else none
    | _, _ => none

/-- The temporaries with a register that must not be allocated. -/
def strays (a : Allocator) : List Failure :=
  a.colors.toList.filterMap fun (t, r) =>
    if a.registers ≤ r.index.toNat then some (.registerOutOfRange t r a.registers) else none

/-- Neighbours have different registers, and all registers may be allocated. -/
def checkColors (a : Allocator) : Except Failure Unit := do
  firstFailure a.clashes
  firstFailure a.strays

end Allocator

/-!
## A round of allocation

A round adds the code of some routines to the graph, sorts the temporaries,
takes actions until nothing is left to do, and gives out the registers. After
each stage the state is checked. The state that a round ends in, also by a
failed check, can be carried over to another round.
-/

/-- The outcome of a round. -/
structure Coloring where
  /-- The register of each temporary that has one. -/
  colors : TempMap Register
  /-- The temporaries that have none. -/
  spilled : TempSet
  /-- How many copies had their ends merged. -/
  coalescedMoves : Nat

namespace Coloring

/-- The colouring of nothing. -/
def empty : Coloring := ⟨∅, ∅, 0⟩

end Coloring

namespace Allocator

/-- Add the code of some routines to the graph. -/
def build (a : Allocator) (rs : List Routine) : Allocator :=
  { a with graph := a.graph.addRoutines rs }

/-- The status that fits the degree and the moves of a temporary. -/
def grade (a : Allocator) (t : Temp) : NodeStatus :=
  if a.isSignificant t then .spill
  else if a.isMoveRelated t then .freeze
  else .simplify

/-- Sort a temporary that is not sorted yet. -/
def sortNode (a : Allocator) (t : Temp) : Allocator :=
  if a.status t = .initial then a.place t (a.grade t) else a

/-- Let all moves wait. -/
def restart (a : Allocator) : Allocator :=
  { a with
    moveStatuses := Array.replicate a.graph.moves.size .worklist
    waiting := Std.ExtTreeSet.ofList (List.range a.graph.moves.size) compare }

/-- Let all moves wait, and sort the temporaries that are not sorted yet. -/
def sort (a : Allocator) : Allocator :=
  a.graph.nodes.toList.foldl sortNode a.restart

/-- How many moves were coalesced. -/
def coalescedMoves (a : Allocator) : Nat :=
  (a.moveStatuses.toList.filter (· = .coalesced)).length

/-- The outcome that a final state stands for. -/
def coloring (a : Allocator) : Coloring :=
  ⟨a.colors, a.sets.spilled, a.coalescedMoves⟩

/-- The event at the end of a round. -/
def summary (a : Allocator) : Event :=
  .colored (a.sets.colored.size + a.sets.coalesced.size) a.registers a.sets.spilled.size
    a.coalescedMoves a.graph.moves.size

/-- What a stage of a round leads to: a state, the events on the way, and the
result of the checks at its end. -/
structure Stage where
  state : Allocator
  events : List Event
  check : Except Failure Unit

/-- Run through stages up to the first failed check. Gives the state of the
last stage that was reached. -/
def runStages (a : Allocator) : List Stage → Allocator × Logged Unit
  | [] => (a, pure ())
  | s :: ss =>
      match s.check with
      | .error e => (s.state, ⟨s.events, .error e⟩)
      | .ok () =>
          let (final, rest) := runStages s.state ss
          (final, ⟨s.events ++ rest.events, rest.outcome⟩)

/-- The stages of a round. -/
def stages (a : Allocator) (rs : List Routine) : List Stage :=
  let built := a.build rs
  let g := built.graph
  let sorted := built.sort
  let (actions, drained) := sorted.drain
  let assigned := drained.assignAll
  [⟨built, [.graphBuilt g.nodes.size g.edges.size g.moves.size], built.checkSymmetry⟩,
    ⟨sorted, [], sorted.checkPartition⟩,
    ⟨drained, actions.flatMap Action.events, do drained.checkSymmetry; drained.checkPartition⟩,
    ⟨assigned, (drained.actualSpills assigned).map .actualSpill,
      do assigned.checkPartition; assigned.checkColors⟩]

/-- A round over the code of some routines, whose live sets have to be current. -/
def round (a : Allocator) (rs : List Routine) : Allocator × Logged Coloring :=
  if a.registers = 0 then (a, .fail .emptyPalette)
  else
    let (final, run) := runStages a (a.stages rs)
    (final, do
      run
      Logged.emit final.summary
      return final.coloring)

end Allocator

/-- Colour the temporaries of some routines in a single round. -/
def Coloring.ofRoutines (registers : Nat) (shielded : TempSet) (rs : List Routine) :
    Logged Coloring :=
  ((Allocator.new registers shielded).round rs).2

end MmixCodegen
