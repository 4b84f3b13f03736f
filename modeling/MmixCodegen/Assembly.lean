import MmixCodegen.Allocator.Round
import MmixCodegen.Failure
import MmixCodegen.Flow
import MmixCodegen.Instr
import MmixCodegen.Select
import MmixCodegen.Spill

/-!
# Register allocation and assembly programs

A target says what register allocation has to work with. A program is coloured
and spilled from in turn until everything has a register, and the result of
code generation are its routines over registers.
-/

set_option autoImplicit false

namespace MmixCodegen

/-!
## Targets

A target says how many registers may be allocated and how often spilling may
be tried.
-/

/-- What register allocation has to work with. -/
structure Target where
  /-- The registers from `$0` up to, but not including, this index may be
  allocated. -/
  registers : Nat := 8
  /-- How many rounds of spilling are allowed. -/
  spillRounds : Nat := 32
deriving DecidableEq, Repr

namespace Target

/-- Reject a target that cannot be used. -/
def validate (t : Target) : Except Failure Unit :=
  if t.registers = 0 then .error .emptyTarget
  else if Failure.maxRegisters < t.registers then .error (.tooManyRegisters t.registers)
  else if t.spillRounds = 0 then .error .noSpillRounds
  else .ok ()

/-- The register window of calls: a call saves all registers below it. -/
def callWindow (t : Target) : Register :=
  Register.ofNat t.registers

end Target

/-!
## Colouring and spilling in turn

A program is coloured; what could not be coloured is spilled, and the changed
program is coloured again. This ends when everything is coloured, or when the
rounds that the target allows are used up. It also ends when only temporaries
that spilling made are left without a register: some instruction then needs
more registers than there are.
-/

/-- Counts of one allocation. -/
structure Stats where
  /-- The rounds of colouring, the last one included. -/
  rounds : Nat
  /-- The temporaries that were spilled in all rounds. -/
  spilled : Nat
  /-- The copies that were coalesced in the last round. -/
  coalescedMoves : Nat
deriving DecidableEq, Repr

/-- A program whose temporaries all have registers. -/
structure Settled where
  program : Program
  coloring : Coloring
  stats : Stats

namespace Program

/-- Up to `budget` rounds, after `rounds` others in which `spilledBefore`
temporaries were spilled. -/
def settleWithin (target : Target) :
    (budget rounds spilledBefore : Nat) → TempSet → Program → Logged Settled
  | 0, _, _, _, _ => .fail (.spillLimit target.spillRounds)
  | budget + 1, rounds, spilledBefore, shielded, p => do
      let (analyzed, passes) := p.analyze
      Logged.emitAll (liveEvents p.routines passes)
      let coloring ← Coloring.ofRoutines target.registers shielded analyzed.routines
      if coloring.spilled.isEmpty then
        Logged.emit (.converged (rounds + 1) spilledBefore analyzed.instrCount)
        return ⟨analyzed, coloring, ⟨rounds + 1, spilledBefore, coloring.coalescedMoves⟩⟩
      else if coloring.spilled.all shielded.contains then
        Logged.emit (.stuck (rounds + 1) coloring.spilled)
        Logged.fail (.spillLimit rounds)
      else
        let next ← analyzed.spill coloring.spilled shielded
        Logged.emit (.spillRound (rounds + 1) coloring.spilled next.added coloring.coalescedMoves
          next.program.supply.next)
        settleWithin target budget (rounds + 1) (spilledBefore + coloring.spilled.size)
          next.shielded next.program

/-- Colour a program and spill from it until everything has a register. -/
def settle (target : Target) (p : Program) : Logged Settled :=
  settleWithin target (target.spillRounds + 1) 0 0 ∅ p

end Program

/-!
## Assembly programs

The result of code generation: routines over registers. Copies within one
register are dropped.
-/

/-- A routine over registers. -/
structure AssemblyRoutine where
  /-- The final code over temporaries. -/
  source : Routine
  /-- The register of the return value, if its temporary has one. -/
  resultRegister : Option Register
  /-- The final code over registers. -/
  instrs : List BoundInstr

namespace AssemblyRoutine

/-- The assembly text of a routine, if all of its instructions have one. -/
def render? (r : AssemblyRoutine) : Option String :=
  (r.instrs.mapM BoundInstr.line?).map String.join

end AssemblyRoutine

/-- A program over registers. -/
structure Assembly where
  routines : List AssemblyRoutine
  /-- The register of each temporary. -/
  colors : TempMap Register
  stats : Stats

namespace Coloring

/-- Whether an instruction copies a register to itself. -/
def isRedundant (c : Coloring) (i : Instr) : Bool :=
  match i.movePair? with
  | some (dst, src) => c.colors[dst]?.isSome && c.colors[dst]? = c.colors[src]?
  | none => false

/-- A routine without copies of a register to itself. -/
def dropRedundant (c : Coloring) (r : Routine) : Routine :=
  { r with instrs := r.instrs.filter fun i => !c.isRedundant i }

/-- The events that show the final code of a routine. -/
def dump (c : Coloring) (r : Routine) : List Event :=
  [.routine r.frame.label] ++ r.instrs.map .instr ++
    r.temps.toList.map fun t => .assignment t c.colors[t]?

/-- Bind the instructions of a routine to registers. -/
def bind (c : Coloring) (window : Register) (r : Routine) : Except Failure (List BoundInstr) :=
  r.instrs.mapM (Instr.bind window fun t => c.colors[t]?)

/-- Assemble a routine. -/
def assemble (c : Coloring) (window : Register) (r : Routine) : Logged AssemblyRoutine := do
  let source := c.dropRedundant r
  Logged.emitAll (c.dump source)
  let instrs ← Logged.ofExcept (c.bind window source)
  return ⟨source, c.colors[r.frame.rv]?, instrs⟩

end Coloring

namespace Program

/-- Allocate registers to a program. -/
def allocate (target : Target) (p : Program) : Logged Assembly := do
  Logged.ofExcept target.validate
  let settled ← p.settle target
  let routines ← settled.program.routines.mapM (settled.coloring.assemble target.callWindow)
  return ⟨routines, settled.coloring.colors, settled.stats⟩

/-- Select instructions for procedures and allocate registers to them. -/
def compile (target : Target) (ps : List Procedure) : Logged Assembly := do
  Logged.ofExcept target.validate
  let p ← select ps
  p.allocate target

end Program

end MmixCodegen
