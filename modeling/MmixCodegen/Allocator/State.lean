import MmixCodegen.Failure
import MmixCodegen.Interference

/-!
# The state of an allocation

Every temporary of the graph has a status, and is a member of the set that its
status names. Moves have a status too; those that wait to be looked at and
those that were put aside are also kept in sets. The state of one allocation
may be carried over to the next one.
-/

set_option autoImplicit false

namespace MmixCodegen

/-- The sets that temporaries are sorted into, one per status, except for the
temporaries that are not sorted yet and for those on the stack. -/
structure NodeSets where
  simplify : TempSet
  freeze : TempSet
  spill : TempSet
  spilled : TempSet
  coalesced : TempSet
  colored : TempSet

namespace NodeSets

/-- All sets are empty. -/
def empty : NodeSets := ⟨∅, ∅, ∅, ∅, ∅, ∅⟩

/-- Change the set of one status. -/
def update (s : NodeSets) (status : NodeStatus) (f : TempSet → TempSet) : NodeSets :=
  match status with
  | .initial => s
  | .simplify => { s with simplify := f s.simplify }
  | .freeze => { s with freeze := f s.freeze }
  | .spill => { s with spill := f s.spill }
  | .spilled => { s with spilled := f s.spilled }
  | .coalesced => { s with coalesced := f s.coalesced }
  | .onStack => s
  | .colored => { s with colored := f s.colored }

end NodeSets

/-- The state of an allocation. -/
structure Allocator where
  /-- How many registers there are. -/
  registers : Nat
  /-- The temporaries that are spilled only if nothing else is left. -/
  shielded : TempSet
  graph : Interference
  statuses : TempMap NodeStatus
  sets : NodeSets
  /-- The temporaries that were taken out of the graph, the last one first. -/
  stack : List Temp
  moveStatuses : Array MoveStatus
  /-- The moves that wait to be looked at. -/
  waiting : MoveSet
  /-- The moves that were put aside. -/
  active : MoveSet
  /-- What each coalesced temporary was merged into. -/
  aliases : TempMap Temp
  colors : TempMap Register

namespace Allocator

/-- An allocator that has seen no code yet. -/
def new (registers : Nat) (shielded : TempSet) : Allocator where
  registers := registers
  shielded := shielded
  graph := .empty
  statuses := ∅
  sets := .empty
  stack := []
  moveStatuses := #[]
  waiting := ∅
  active := ∅
  aliases := ∅
  colors := ∅

/-! ### Temporaries -/

/-- The status of a temporary. -/
def status (a : Allocator) (t : Temp) : NodeStatus :=
  a.statuses.getD t .initial

/-- Take a temporary off a stack, wherever it stands. -/
def unstack (t : Temp) : List Temp → List Temp
  | [] => []
  | top :: rest => if top = t then rest else top :: rest.filter (· ≠ t)

/-- Give a temporary a new status, and sort it into the set of that status. -/
def place (a : Allocator) (t : Temp) (next : NodeStatus) : Allocator :=
  let prev := a.status t
  let stack := if prev = .onStack then unstack t a.stack else a.stack
  { a with
    sets := (a.sets.update prev (·.erase t)).update next (·.insert t)
    stack := if next = .onStack then t :: stack else stack
    statuses := a.statuses.insert t next }

/-- A change of status concerns one temporary only. -/
theorem status_place (a : Allocator) (t u : Temp) (next : NodeStatus) :
    (a.place t next).status u = if t = u then next else a.status u := by
  simp [place, status, Std.ExtTreeMap.getD_insert]

/-- Whether a temporary still counts as a neighbour: it is neither on the stack
nor merged into another one. -/
def isPresent (a : Allocator) (t : Temp) : Bool :=
  match a.status t with
  | .onStack => false
  | .coalesced => false
  | _ => true

/-- The neighbours of a temporary that are present. -/
def adjacent (a : Allocator) (t : Temp) : List Temp :=
  (a.graph.neighbors t).toList.filter a.isPresent

/-- Whether a temporary has at least as many neighbours as there are registers. -/
def isSignificant (a : Allocator) (t : Temp) : Bool :=
  a.registers ≤ a.graph.degree t

/-! ### Moves -/

/-- Whether a move may still be coalesced. -/
def isPending (a : Allocator) (index : Nat) : Bool :=
  a.moveStatuses[index]?.any MoveStatus.isPending

/-- The moves of a temporary that may still be coalesced. -/
def pendingMoves (a : Allocator) (t : Temp) : List Nat :=
  (a.graph.movesOf t).toList.filter a.isPending

/-- Whether some move of a temporary may still be coalesced. -/
def isMoveRelated (a : Allocator) (t : Temp) : Bool :=
  !(a.pendingMoves t).isEmpty

/-- Give a move a new status. -/
def placeMove (a : Allocator) (index : Nat) (next : MoveStatus) : Allocator :=
  let prev := a.moveStatuses[index]?
  let waiting := if prev = some .worklist then a.waiting.erase index else a.waiting
  let active := if prev = some .active then a.active.erase index else a.active
  { a with
    waiting := if next = .worklist then waiting.insert index else waiting
    active := if next = .active then active.insert index else active
    moveStatuses := a.moveStatuses.setIfInBounds index next }

/-- Look again at the moves of a temporary that were put aside. -/
def wakeMoves (a : Allocator) (t : Temp) : Allocator :=
  (a.pendingMoves t).foldl
    (fun a index =>
      if a.moveStatuses[index]? = some .active then a.placeMove index .worklist else a)
    a

end Allocator

/-!
## Representatives

A coalesced temporary stands for the one it was merged into, which may have
been merged in turn. The end of this chain is its representative. Looking one
up shortens the chain: all temporaries on the way then point straight to the
representative.
-/

namespace Allocator

/-- The end of a chain of merges, after at most `fuel` links. -/
def followWithin (a : Allocator) : Nat → Temp → Temp
  | 0, t => t
  | fuel + 1, t =>
      if a.status t = .coalesced then
        match a.aliases[t]? with
        | some next => followWithin a fuel next
        | none => t
      else t

/-- The representative of a temporary. A chain has at most one link per entry. -/
def representative (a : Allocator) (t : Temp) : Temp :=
  a.followWithin a.aliases.size t

/-- Let all temporaries on a chain point to its end, for at most `fuel` links. -/
def compressWithin (root : Temp) : Nat → Temp → TempMap Temp → TempMap Temp
  | 0, _, aliases => aliases
  | fuel + 1, t, aliases =>
      if t = root then aliases
      else
        match aliases[t]? with
        | some next => compressWithin root fuel next (aliases.insert t root)
        | none => aliases

/-- Shorten the chain of a temporary. -/
def compress (a : Allocator) (t : Temp) : Allocator :=
  { a with aliases := compressWithin (a.representative t) a.aliases.size t a.aliases }

/-- Shorten the chains of some temporaries. -/
def compressAll (a : Allocator) (ts : List Temp) : Allocator :=
  ts.foldl compress a

end Allocator

end MmixCodegen
