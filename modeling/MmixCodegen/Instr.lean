import MmixCodegen.Failure
import MmixCodegen.Temp

/-!
# Instructions, routines and programs

Instructions come in two forms: over temporaries, with their live sets, and
over registers. A routine is a list of the first kind with its frame slots, and
a program is a list of routines.
-/

set_option autoImplicit false

namespace MmixCodegen

/-!
## Instructions over temporaries

An instruction is an operation with ordered operands, a copy of one temporary
into another, or a label. It carries the set of temporaries that are live
before it and the set of those that are live after it.
-/

/-- The temporaries that are live before and after an instruction. -/
@[ext]
structure Live where
  before : TempSet
  after : TempSet

namespace Live

/-- Live sets are compared one after the other. -/
instance : DecidableEq Live := fun a b =>
  decidable_of_iff (a.before = b.before ∧ a.after = b.after) Live.ext_iff.symm

/-- Nothing is live. -/
def none : Live := ⟨∅, ∅⟩

end Live

namespace Instr

/-- What an instruction does. -/
inductive Kind where
  /-- An operation that reads `uses`, writes `defs` and, if there are `jumps`,
  goes on at one of them. -/
  | oper (template : String) (uses defs : List Temp) (jumps : List Label)
  /-- Copy `src` into `dst`. -/
  | move (template : String) (dst src : Temp)
  /-- A place to jump to. -/
  | label (l : Label)
deriving DecidableEq, Repr

end Instr

/-- An instruction with its live sets. -/
structure Instr where
  kind : Instr.Kind
  live : Live
deriving DecidableEq

namespace Instr

/-- The template of a copy. -/
def moveTemplate : String := "ADD `d0,`s0,0"

/-- An instruction about whose live sets nothing is known yet. -/
def ofKind (kind : Kind) : Instr :=
  ⟨kind, .none⟩

/-- A copy of `src` into `dst`. -/
def copy (dst src : Temp) : Instr :=
  ofKind (.move moveTemplate dst src)

/-- The temporaries that an instruction reads, in operand order. -/
def uses (i : Instr) : List Temp :=
  match i.kind with
  | .oper _ uses _ _ => uses
  | .move _ _ src => [src]
  | .label _ => []

/-- The temporaries that an instruction writes, in operand order. -/
def defs (i : Instr) : List Temp :=
  match i.kind with
  | .oper _ _ defs _ => defs
  | .move _ dst _ => [dst]
  | .label _ => []

/-- The places where control may go on; empty if it simply goes on. -/
def jumps (i : Instr) : List Label :=
  match i.kind with
  | .oper _ _ _ jumps => jumps
  | .move _ _ _ => []
  | .label _ => []

/-- The template of an instruction, empty for a label. -/
def template (i : Instr) : String :=
  match i.kind with
  | .oper template _ _ _ => template
  | .move template _ _ => template
  | .label _ => ""

/-- The destination and the source of a copy. -/
def movePair? (i : Instr) : Option (Temp × Temp) :=
  match i.kind with
  | .oper _ _ _ _ => none
  | .move _ dst src => some (dst, src)
  | .label _ => none

/-- The label that an instruction sets. -/
def label? (i : Instr) : Option Label :=
  match i.kind with
  | .oper _ _ _ _ => none
  | .move _ _ _ => none
  | .label l => some l

/-- The operands of an instruction: those that are read, then those that are
written. -/
def operands (i : Instr) : List Temp :=
  i.uses ++ i.defs

/-- Every temporary that an instruction mentions: its operands, then the
members of its live sets. -/
def temps (i : Instr) : List Temp :=
  i.operands ++ i.live.before.toList ++ i.live.after.toList

/-- Replace the operands of an instruction. The live sets stay as they are. -/
def rename (f : Temp → Temp) (i : Instr) : Instr :=
  match i.kind with
  | .oper template uses defs jumps =>
      { i with kind := .oper template (uses.map f) (defs.map f) jumps }
  | .move template dst src => { i with kind := .move template (f dst) (f src) }
  | .label _ => i

/-- The assembly text of an instruction over temporaries, if its template can
be expanded. -/
def text? (i : Instr) : Option String :=
  match i.kind with
  | .label l => some (l.name ++ ":")
  | _ => Template.render? i.template (i.uses.map Temp.name) (i.defs.map Temp.name)

end Instr

/-!
## Instructions over registers

Binding an instruction gives each of its operands a register and writes the
register window of calls into the template.
-/

/-- An instruction whose operands are registers. -/
inductive BoundInstr where
  | oper (template : String) (uses defs : List Register) (jumps : List Label)
  | label (l : Label)
deriving DecidableEq, Repr

namespace BoundInstr

/-- The assembly text of an instruction over registers, if its template can be
expanded. -/
def text? : BoundInstr → Option String
  | oper template uses defs _ =>
      Template.render? template (uses.map Register.name) (defs.map Register.name)
  | label l => some (l.name ++ ":")

/-- The line of an instruction in an assembly file: labels start in the first
column, operations are indented. -/
def line? : BoundInstr → Option String
  | label l => (label l).text?.map (· ++ "\n")
  | i => i.text?.map fun text => "\t" ++ text ++ "\n"

end BoundInstr

namespace Instr

/-- The register of an operand. If it has none the failure quotes the
instruction, provided that the instruction has a text. -/
def registerOf (i : Instr) (color : Temp → Option Register) (t : Temp) :
    Except Failure Register :=
  match color t with
  | some r => .ok r
  | none =>
    match i.text? with
    | some text => .error (.unassigned t text)
    | none => .error .unprintableInstr

/-- Write the register window of calls into a template. All other slots keep
their meaning. -/
def bindWindow (template : String) (window : Register) : Except Failure String :=
  let operand : Slot → Except Failure String
    | .window => .ok window.name
    | s => .ok s.text
  Template.expand template operand fun fault => .malformedTemplate fault template

/-- Give each operand its register, those that are read before those that are
written, then fill in the register window. -/
def bind (window : Register) (color : Temp → Option Register) (i : Instr) :
    Except Failure BoundInstr :=
  match i.kind with
  | .label l => .ok (.label l)
  | _ => do
      let uses ← i.uses.mapM (i.registerOf color)
      let defs ← i.defs.mapM (i.registerOf color)
      let template ← bindWindow i.template window
      return .oper template uses defs i.jumps

end Instr

/-!
## Routines and programs

A routine is a procedure after instruction selection. It owns the frame slots
of the temporaries that were spilled from it. A program is a list of routines
together with the supply from which all of them draw fresh temporaries.
-/

/-- The frame slots of spilled temporaries. -/
structure SlotTable where
  /-- Bytes taken by all slots together. -/
  size : Int
  /-- The distance of each slot from the frame pointer. -/
  offsets : TempMap Int

namespace SlotTable

/-- No slot at all. -/
def empty : SlotTable := ⟨0, ∅⟩

end SlotTable

/-- The code of one procedure over temporaries. -/
structure Routine where
  frame : Frame
  entry : Label
  exit : Label
  instrs : List Instr
  slots : SlotTable

namespace Routine

/-- Whether some instruction writes the return value. -/
def definesResult (r : Routine) : Bool :=
  r.instrs.any fun i => i.defs.contains r.frame.rv

/-- The temporaries that the instructions of a routine mention. -/
def temps (r : Routine) : TempSet :=
  TempSet.ofList (r.instrs.flatMap Instr.temps)

end Routine

/-- Routines that share a supply of fresh temporaries. -/
structure Program where
  routines : List Routine
  supply : Supply

namespace Program

/-- How many instructions there are in all routines. -/
def instrCount (p : Program) : Nat :=
  (p.routines.map fun r => r.instrs.length).foldr (· + ·) 0

end Program

end MmixCodegen
