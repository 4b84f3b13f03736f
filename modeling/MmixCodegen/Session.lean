import MmixCodegen.Assembly

/-!
# Sessions

A session keeps a program, the temporaries that must not be spilled, and the
last colouring, so that the stages of code generation can be run one by one in
any order. A step that fails leaves the session as it was, except that the
temporaries it took stay taken.
-/

set_option autoImplicit false

namespace MmixCodegen

/-- What a session keeps from step to step. -/
structure Session where
  program : Program
  shielded : TempSet
  coloring : Coloring

namespace Session

/-- A session with an empty program. -/
def start (supply : Supply) (shielded : TempSet) : Session :=
  ⟨⟨[], supply⟩, shielded, .empty⟩

/-- Go on with `s` after a success, and with `failed` after a failure. -/
def after {α β : Type} (failed : Session) (run : Logged α) (f : α → Session × β) :
    Session × Logged β :=
  match run.outcome with
  | .ok a =>
      let (s, b) := f a
      (s, ⟨run.events, .ok b⟩)
  | .error e => (failed, ⟨run.events, .error e⟩)

/-- Take a fresh temporary. -/
def fresh (s : Session) : Session × Logged Temp :=
  match s.program.supply.fresh? with
  | some (t, supply) => ({ s with program := { s.program with supply } }, pure t)
  | none => (s, .fail .temporariesExhausted)

/-- Append a routine. -/
def push (s : Session) (r : Routine) : Session :=
  { s with program := { s.program with routines := s.program.routines ++ [r] } }

/-- Select the routine of a procedure and append it. -/
def select (s : Session) (p : Procedure) : Session × Logged Routine :=
  let (run, supply) := p.select s.program.supply
  let drawn : Session := { s with program := { s.program with supply } }
  drawn.after run fun r => (drawn.push r, r)

/-- Compute all live sets anew. Gives the sum of the passes. -/
def analyze (s : Session) : Session × Logged Nat :=
  let (program, passes) := s.program.analyze
  ({ s with program }, ⟨Program.liveEvents s.program.routines passes, .ok (passes.foldr (· + ·) 0)⟩)

/-- Protect temporaries from being spilled. -/
def shield (s : Session) (ts : List Temp) : Session :=
  { s with shielded := s.shielded ∪ TempSet.ofList ts }

/-- Colour the program as it is. -/
def color (s : Session) (registers : Nat) : Session × Logged Coloring :=
  s.after (Coloring.ofRoutines registers s.shielded s.program.routines) fun coloring =>
    ({ s with coloring }, coloring)

/-- Spill temporaries from all routines. Gives the number of new slots. -/
def spill (s : Session) (spilled : TempSet) : Session × Logged Nat :=
  s.after (s.program.spill spilled s.shielded) fun out =>
    ({ s with program := out.program, shielded := out.shielded }, out.added)

/-- Spill temporaries from one routine. Gives the number of new slots. -/
def spillFrom (s : Session) (index : Nat) (spilled : TempSet) : Session × Logged Nat :=
  match s.program.routines[index]? with
  | none => (s, pure 0)
  | some r =>
      s.after (r.spill spilled s.program.supply s.shielded) fun out =>
        ({ s with
            program := ⟨s.program.routines.set index out.routine, out.supply⟩
            shielded := out.shielded }, out.added)

/-- Rename the operands of all instructions of one routine. -/
def rename (s : Session) (index : Nat) (f : Temp → Temp) : Session :=
  let renamed := s.program.routines.modify index fun r =>
    { r with instrs := r.instrs.map (Instr.rename f) }
  { s with program := { s.program with routines := renamed } }

/-- Bind one routine to the registers of the last colouring. -/
def bind (s : Session) (index : Nat) (window : Register) : Logged (List BoundInstr) :=
  match s.program.routines[index]? with
  | none => pure []
  | some r => .ofExcept (s.coloring.bind window r)

/-- Allocate registers to the program. The session does not change. -/
def allocate (s : Session) (target : Target) : Logged Assembly :=
  s.program.allocate target

end Session

end MmixCodegen
