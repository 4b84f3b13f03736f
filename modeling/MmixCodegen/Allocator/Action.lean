import MmixCodegen.Allocator.State
import MmixCodegen.Event

/-!
# The steps of an allocation

As long as there is something to do, an allocation takes one of these actions,
the first that applies:

* take a temporary of low degree that is in no pending move out of the graph;
* look at a waiting move, and merge its ends, give it up, or put it aside;
* give up the moves of a temporary of low degree;
* let a temporary of high degree be treated like one of low degree, in the hope
  that a register will be left for it.

`Allocator.next?` decides on an action, `Allocator.perform` carries it out, and
`Allocator.drain` takes actions until there are none left.
-/

set_option autoImplicit false

namespace MmixCodegen

/-- A step of an allocation. -/
inductive Action where
  /-- Take a temporary out of the graph. -/
  | simplify (t : Temp)
  /-- Settle a move whose ends have the representative `u`. -/
  | join (index : Nat) (move : Move) (u : Temp)
  /-- Give up a move whose ends are represented by `u` and `v`, which interfere. -/
  | constrain (index : Nat) (move : Move) (u v : Temp)
  /-- Merge `v`, which represents the source of a move, into `u`, which
  represents its destination. -/
  | merge (index : Nat) (move : Move) (u v : Temp)
  /-- Put a move aside. -/
  | postpone (index : Nat) (move : Move)
  /-- Give up the moves of a temporary of low degree. -/
  | freeze (t : Temp)
  /-- Treat a temporary as one of low degree. It was `forced` if only shielded
  ones were left to choose from. -/
  | spill (t : Temp) (forced : Bool)
deriving DecidableEq, Repr

namespace Action

/-- The events of an action. -/
def events : Action → List Event
  | simplify t => [.simplified t]
  | join _ m _ => [.alreadyMerged m.dst m.src]
  | constrain _ m _ _ => [.constrained m.dst m.src]
  | merge _ _ u v => [.merged v u]
  | postpone _ _ => []
  | freeze t => [.frozen t]
  | spill t forced => if forced then [.onlyProtected t, .potentialSpill t] else [.potentialSpill t]

end Action

namespace Allocator

/-! ### Deciding -/

/-- Merging is safe if the merged temporary would have fewer neighbours of high
degree than there are registers. -/
def canMerge (a : Allocator) (u v : Temp) : Bool :=
  let neighbors := TempSet.ofList (a.adjacent u ++ a.adjacent v)
  (neighbors.toList.filter a.isSignificant).length < a.registers

/-- What to do about a waiting move. -/
def moveAction (a : Allocator) (index : Nat) (m : Move) : Action :=
  let u := a.representative m.dst
  let v := a.representative m.src
  if u = v then .join index m u
  else if a.graph.interferes u v then .constrain index m u v
  else if a.canMerge u v then .merge index m u v
  else .postpone index m

/-- Of two temporaries, the one that belongs to more live sets; `t` if both
belong to the same number. -/
def heavier (a : Allocator) (t u : Temp) : Temp :=
  if a.graph.weight t < a.graph.weight u then u else t

/-- The temporary that belongs to the most live sets, the first one in case of
a tie. -/
def heaviest? (a : Allocator) : List Temp → Option Temp
  | [] => none
  | t :: ts => some (ts.foldl a.heavier t)

/-- Which temporary of high degree to choose. -/
def spillAction? (a : Allocator) : Option Action :=
  let candidates := a.sets.spill.toList
  match a.heaviest? (candidates.filter fun t => !a.shielded.contains t) with
  | some t => some (.spill t false)
  | none => (a.heaviest? candidates).map (.spill · true)

/-- The next action, if there is anything left to do. -/
def next? (a : Allocator) : Option Action :=
  match a.sets.simplify.least? with
  | some t => some (.simplify t)
  | none =>
    match a.waiting.least?.bind fun index => a.graph.moves[index]?.map (index, ·) with
    | some (index, m) => some (a.moveAction index m)
    | none =>
      match a.sets.freeze.least? with
      | some t => some (.freeze t)
      | none => a.spillAction?

/-! ### Performing -/

/-- Count one neighbour less for a temporary. -/
def lowerDegree (a : Allocator) (t : Temp) : Allocator :=
  { a with graph := a.graph.setDegree t (a.graph.degree t - 1) }

/-- Look again at the moves of a temporary and of its neighbours. -/
def wakeAround (a : Allocator) (t : Temp) : Allocator :=
  (t :: a.adjacent t).foldl wakeMoves a

/-- Sort a temporary that is no longer one of high degree. -/
def lighten (a : Allocator) (t : Temp) : Allocator :=
  if a.status t = .spill then a.place t (if a.isMoveRelated t then .freeze else .simplify)
  else a

/-- Lower the degree of a temporary that lost a neighbour. When it drops below
the number of registers, moves nearby deserve another look, and the temporary
itself is no longer one of high degree. -/
def loseNeighbor (a : Allocator) (t : Temp) : Allocator :=
  if a.graph.degree t = 0 then a
  else if a.graph.degree t = a.registers then ((a.lowerDegree t).wakeAround t).lighten t
  else a.lowerDegree t

/-- Let a temporary that is no longer in a pending move be simplified. -/
def release (a : Allocator) (t : Temp) : Allocator :=
  if a.status t = .freeze && !a.isMoveRelated t && !a.isSignificant t then a.place t .simplify
  else a

/-- Take a temporary out of the graph. -/
def simplify (a : Allocator) (t : Temp) : Allocator :=
  let removed := a.place t .onStack
  (removed.adjacent t).foldl loseNeighbor removed

/-- Let `v` stand for `u`, and give its moves to `u`. -/
def join (a : Allocator) (u v : Temp) : Allocator :=
  let gone := a.place v .coalesced
  { gone with
    aliases := gone.aliases.insert v u
    graph := { gone.graph with
      moveIndex := gone.graph.moveIndex.insert u (gone.graph.movesOf u ∪ gone.graph.movesOf v) } }

/-- Let `u` take over a neighbour of a temporary that was merged into it. -/
def takeOver (u : Temp) (a : Allocator) (neighbor : Temp) : Allocator :=
  loseNeighbor { a with graph := a.graph.addEdge neighbor u } neighbor

/-- Sort a temporary that may have become one of high degree. -/
def burden (a : Allocator) (t : Temp) : Allocator :=
  if a.isSignificant t && a.status t = .freeze then a.place t .spill else a

/-- Let the moves and the neighbours of `v` become those of `u`. -/
def absorb (a : Allocator) (u v : Temp) : Allocator :=
  let woken := (a.join u v).wakeMoves v
  (woken.adjacent v).foldl (takeOver u) woken

/-- Merge `v` into `u`. -/
def merge (a : Allocator) (u v : Temp) : Allocator :=
  (a.absorb u v).burden u

/-- Give up one move of a temporary represented by `root`. The other end may
then be in no pending move any more. -/
def freezeMove (root : Temp) (a : Allocator) (index : Nat) : Allocator :=
  match a.graph.moves[index]? with
  | none => a
  | some m =>
      let other := if a.representative m.src = root then m.dst else m.src
      (((a.compress m.src).compress other).placeMove index .frozen).release (a.representative other)

/-- Give up the moves of a temporary. -/
def freezeMoves (a : Allocator) (t : Temp) : Allocator :=
  (a.pendingMoves t).foldl (freezeMove (a.representative t)) (a.compress t)

/-- Shorten the chains of the ends of a move. -/
def compressEnds (a : Allocator) (m : Move) : Allocator :=
  (a.compress m.dst).compress m.src

/-- Carry out an action. -/
def perform (a : Allocator) : Action → Allocator
  | .simplify t => a.simplify t
  | .join index m u => ((a.compressEnds m).placeMove index .coalesced).release u
  | .constrain index m u v =>
      (((a.compressEnds m).placeMove index .constrained).release u).release v
  | .merge index m u v => (((a.compressEnds m).placeMove index .coalesced).merge u v).release u
  | .postpone index m => (a.compressEnds m).placeMove index .active
  | .freeze t => (a.place t .simplify).freezeMoves t
  | .spill t _ => (a.place t .simplify).freezeMoves t

end Allocator

/-!
## Running an allocation to its end

Actions are taken as long as there are any. Each of them lowers the potential
of the state: taking a temporary out of the graph or merging it outweighs all
moves that may have to be looked at again, and every other action settles a
move, puts one aside, or moves a temporary closer to leaving the graph.
-/

namespace Allocator

/-- How far a temporary is from leaving the graph for good. -/
def presence : NodeStatus → Nat
  | .coalesced => 0
  | .onStack => 1
  | _ => 2

/-- How far a temporary that is present is from being simplified. -/
def reluctance : NodeStatus → Nat
  | .spill => 2
  | .freeze => 1
  | _ => 0

/-- How much work a temporary may still make, if taking it out of the graph
counts for `weight` actions. -/
def charge (weight : Nat) (s : NodeStatus) : Nat :=
  presence s * weight + reluctance s

/-- A bound on the number of actions that are left. -/
def potential (a : Allocator) : Nat :=
  (a.graph.nodes.toList.map fun t => charge (a.graph.moves.size + 2) (a.status t)).foldr (· + ·) 0
    + a.waiting.size

/-- Take up to `fuel` actions. Gives the actions in order and the final state. -/
def drainWithin : Nat → Allocator → List Action × Allocator
  | 0, a => ([], a)
  | fuel + 1, a =>
      match a.next? with
      | none => ([], a)
      | some action =>
          let (rest, final) := drainWithin fuel (a.perform action)
          (action :: rest, final)

/-- Take actions until there are none left. -/
def drain (a : Allocator) : List Action × Allocator :=
  drainWithin a.potential a

end Allocator

end MmixCodegen
