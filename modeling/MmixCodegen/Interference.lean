import MmixCodegen.Instr

/-!
# Interference graphs

Two temporaries interfere if they must not share a register: because both are
live at the same place, or because one is written where the other one stays
live. The source of a copy does not interfere with its destination on account
of the copy itself.

The graph also holds what an allocation wants to know about each temporary: its
degree, which goes down as neighbours leave the graph while the edges stay, the
copies it takes part in, and how many live sets it belongs to.
-/

set_option autoImplicit false

namespace MmixCodegen

/-- A copy that may be coalesced. -/
structure Move where
  dst : Temp
  src : Temp
deriving DecidableEq, Repr

/-- A pair of different temporaries that interfere, the one with the lower
number first. -/
structure Edge where
  low : Temp
  high : Temp
deriving DecidableEq, Repr

namespace Edge

/-- Edges are ordered by their lower ends, then by their higher ends. -/
instance : Ord Edge where
  compare := compareLex (compareOn Edge.low) (compareOn Edge.high)

/-- The order of edges, spelled out. -/
theorem compare_def :
    (compare : Edge → Edge → Ordering) = compareLex (compareOn Edge.low) (compareOn Edge.high) :=
  rfl

instance : Std.TransOrd Edge :=
  inferInstanceAs (Std.TransCmp (compareLex (compareOn Edge.low) (compareOn Edge.high)))

instance : Std.LawfulEqOrd Edge where
  eq_of_compare := by
    intro a b h
    rw [compare_def, compareLex_eq_eq] at h
    obtain ⟨low, high⟩ := a
    obtain ⟨low', high'⟩ := b
    have hlow : low = low' := Std.LawfulEqCmp.eq_of_compare h.1
    have hhigh : high = high' := Std.LawfulEqCmp.eq_of_compare h.2
    rw [hlow, hhigh]

/-- The edge between two temporaries, whichever is named first. -/
def between (u v : Temp) : Edge :=
  if u.number < v.number then ⟨u, v⟩ else ⟨v, u⟩

end Edge

/-- A set of edges. -/
abbrev EdgeSet := Std.ExtTreeSet Edge

/-- A set of moves, each known by its index. -/
abbrev MoveSet := Std.ExtTreeSet Nat

namespace MoveSet

/-- The move with the lowest index. -/
def least? (s : MoveSet) : Option Nat :=
  s.toList.head?

end MoveSet

/-- An interference graph. -/
structure Interference where
  /-- Every temporary that is mentioned anywhere. -/
  nodes : TempSet
  /-- The pairs that interfere. -/
  edges : EdgeSet
  /-- The temporaries that each one interferes with. -/
  adjacency : TempMap TempSet
  /-- How many neighbours are counted for each temporary. -/
  degrees : TempMap Nat
  /-- All copies in program order. -/
  moves : Array Move
  /-- The copies that each temporary takes part in. -/
  moveIndex : TempMap MoveSet
  /-- How many live sets each temporary belongs to. -/
  weights : TempMap Nat

namespace Interference

/-- A graph without temporaries. -/
def empty : Interference := ⟨∅, ∅, ∅, ∅, #[], ∅, ∅⟩

/-- The temporaries that `t` interferes with. -/
def neighbors (g : Interference) (t : Temp) : TempSet :=
  g.adjacency.getD t ∅

/-- Whether two temporaries interfere. -/
def interferes (g : Interference) (u v : Temp) : Bool :=
  g.edges.contains (.between u v)

/-- The degree of a temporary. -/
def degree (g : Interference) (t : Temp) : Nat :=
  g.degrees.getD t 0

/-- The copies that a temporary takes part in. -/
def movesOf (g : Interference) (t : Temp) : MoveSet :=
  g.moveIndex.getD t ∅

/-- How many live sets a temporary belongs to. -/
def weight (g : Interference) (t : Temp) : Nat :=
  g.weights.getD t 0

/-- How many neighbours are listed for all temporaries together. -/
def listed (g : Interference) : Nat :=
  (g.adjacency.toList.map fun (_, neighbors) => neighbors.size).foldr (· + ·) 0

/-- Count a number of neighbours for a temporary. -/
def setDegree (g : Interference) (t : Temp) (degree : Nat) : Interference :=
  { g with degrees := g.degrees.insert t degree }

/-- Add a temporary. -/
def addNode (g : Interference) (t : Temp) : Interference :=
  { g with nodes := g.nodes.insert t }

/-- Let two different temporaries interfere. -/
def addEdge (g : Interference) (u v : Temp) : Interference :=
  if u = v || g.interferes u v then g
  else
    { g with
      edges := g.edges.insert (.between u v)
      adjacency := (g.adjacency.insert u ((g.neighbors u).insert v)).insert v
        ((g.neighbors v).insert u)
      degrees := (g.degrees.insert u (g.degree u + 1)).insert v (g.degree v + 1) }

/-- Let all temporaries of a list without repetitions interfere. -/
def addClique (g : Interference) : List Temp → Interference
  | [] => g
  | t :: ts => addClique (ts.foldl (fun g u => g.addEdge t u) g) ts

/-- Let each written temporary interfere with those that stay live. -/
def addDefs (g : Interference) (defs live : List Temp) : Interference :=
  defs.foldl (fun g d => live.foldl (fun g t => g.addEdge d t) g) g

/-- Add a copy. -/
def addMove (g : Interference) (dst src : Temp) : Interference :=
  let index := g.moves.size
  let atDst := g.moveIndex.insert dst ((g.movesOf dst).insert index)
  { g with
    moves := g.moves.push ⟨dst, src⟩
    moveIndex := atDst.insert src ((atDst.getD src ∅).insert index) }

/-- Count one more live set for a temporary. -/
def addWeight (g : Interference) (t : Temp) : Interference :=
  { g with weights := g.weights.insert t (g.weight t + 1) }

/-- Add the temporaries that an instruction mentions, and let those that it
keeps apart interfere. -/
def addConflicts (g : Interference) (i : Instr) : Interference :=
  let after := i.live.after.toList
  let source := i.movePair?.map Prod.snd
  let cliques := ((i.temps.foldl addNode g).addClique i.live.before.toList).addClique after
  cliques.addDefs i.defs (after.filter fun t => some t ≠ source)

/-- Add an instruction to the moves if it is a copy. -/
def addCopy (g : Interference) (i : Instr) : Interference :=
  match i.movePair? with
  | some (dst, src) => g.addMove dst src
  | none => g

/-- Add everything that an instruction says. -/
def addInstr (g : Interference) (i : Instr) : Interference :=
  (i.live.before.toList ++ i.live.after.toList).foldl addWeight ((g.addConflicts i).addCopy i)

/-- Add everything that the instructions of some routines say. -/
def addRoutines (g : Interference) (rs : List Routine) : Interference :=
  rs.foldl (fun g r => r.instrs.foldl addInstr g) g

/-- The interference graph of some routines. -/
def ofRoutines (rs : List Routine) : Interference :=
  empty.addRoutines rs

end Interference

end MmixCodegen
