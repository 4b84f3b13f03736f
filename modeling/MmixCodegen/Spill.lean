import MmixCodegen.Event
import MmixCodegen.Failure
import MmixCodegen.Instr
import MmixCodegen.Operation

/-!
# Spilling

A temporary without a register lives in a slot of the stack frame. Spilling
gives it a slot, puts loads and stores around the instructions that touch it,
and goes through all routines of a program.
-/

set_option autoImplicit false

namespace MmixCodegen

/-!
## Frame slots

A spilled temporary lives in a slot of 8 bytes. The slots of a routine lie
below its locals and the 16 bytes in which a caller's registers are saved, and
are laid out in the order in which they are first needed. A slot is never given
back.
-/

namespace SlotTable

/-- The bytes of one slot. -/
def slotSize : Int := 8

/-- The bytes between the locals and the first slot. -/
def savedArea : Int := 16

/-- The largest offset that a signed 64-bit word can hold. -/
def maxOffset : Int := Int64.maxValue.toInt

/-- The offset of a temporary's slot below the frame pointer, and the table in
which it surely has one. -/
def slotOf (s : SlotTable) (localsSize : Int) (t : Temp) : Except Failure (Int × SlotTable) :=
  match s.offsets[t]? with
  | some offset => .ok (offset, s)
  | none =>
    let size := s.size + slotSize
    let offset := localsSize + savedArea + size
    if offset ≤ maxOffset then .ok (offset, ⟨size, s.offsets.insert t offset⟩)
    else .error .slotOffsetTooLarge

end SlotTable

/-!
## Instructions around spilled temporaries

An instruction that touches spilled temporaries becomes a block. In it a fresh
temporary takes the place of each spilled one: it is loaded from the slot
before the instruction if it is read, and stored after it if it is written. So
nothing that is made here lives longer than its block.

The return value has to be in its own temporary when control leaves the
routine. If it is spilled, a jump to the exit is preceded by a load into that
temporary.
-/

namespace Spill

/-- What spilling changes as it goes through the instructions of a routine. -/
structure State where
  supply : Supply
  /-- Temporaries that must not be spilled again. -/
  shielded : TempSet
  slots : SlotTable

/-- A computation that changes the state of spilling and may fail. -/
abbrev Step := StateT State (Except Failure)

/-- A fresh temporary, which must not be spilled. -/
def fresh : Step Temp := fun s =>
  match s.supply.fresh? with
  | some (t, supply) => .ok (t, { s with supply, shielded := s.shielded.insert t })
  | none => .error .temporariesExhausted

/-- The offset of a temporary's slot. -/
def slot (frame : Frame) (t : Temp) : Step Int := fun s => do
  let (offset, slots) ← s.slots.slotOf frame.localsSize t
  return (offset, { s with slots })

/-- Protect a temporary from being spilled. -/
def shield (t : Temp) : Step Unit := fun s =>
  .ok ((), { s with shielded := s.shielded.insert t })

/-- The address of a temporary's slot in a fresh temporary, and the
instructions that compute it. -/
def slotAddress (frame : Frame) (t : Temp) : Step (List Instr × Temp) := do
  let offset ← slot frame t
  let addr ← fresh
  let operations :=
    Operation.loadConstant addr (UInt64.ofNat offset.natAbs) ++ [.belowFramePointer addr addr]
  return (operations.map Operation.instr, addr)

/-- Load `dst` from the slot of `t`. -/
def reload (frame : Frame) (t dst : Temp) : Step (List Instr) := do
  let (is, addr) ← slotAddress frame t
  return is ++ [(Operation.load dst addr 0).instr]

/-- Store `src` into the slot of `t`. -/
def save (frame : Frame) (t src : Temp) : Step (List Instr) := do
  let (is, addr) ← slotAddress frame t
  return is ++ [(Operation.store src addr 0).instr]

/-- The spilled temporaries of a list, each of them once, in order of first
occurrence. -/
def spilledOf (spilled : TempSet) (ts : List Temp) : List Temp :=
  (ts.filter spilled.contains).eraseDups

/-- What takes the place of a temporary. -/
def replacement (pairs : List (Temp × Temp)) (t : Temp) : Temp :=
  (pairs.lookup t).getD t

/-- What an instruction turns into. -/
structure Block where
  /-- Loads of the spilled temporaries that are read. -/
  loads : List Instr
  /-- The load of a spilled return value in front of a jump to the exit. -/
  result : List Instr
  /-- The instruction itself, over fresh temporaries. -/
  body : Instr
  /-- Stores of the spilled temporaries that are written. -/
  stores : List Instr

namespace Block

/-- The instructions of a block in order. -/
def toList (b : Block) : List Instr :=
  b.loads ++ b.result ++ [b.body] ++ b.stores

end Block

/-- A fresh temporary for each one of a list. -/
def replacements : List Temp → Step (List (Temp × Temp))
  | [] => return []
  | t :: ts => do
      let new ← fresh
      let pairs ← replacements ts
      return (t, new) :: pairs

/-- Load the replacements of some temporaries. -/
def reloadAll (frame : Frame) (pairs : List (Temp × Temp)) : List Temp → Step (List Instr)
  | [] => return []
  | t :: ts => do
      let is ← reload frame t (replacement pairs t)
      let js ← reloadAll frame pairs ts
      return is ++ js

/-- Store the replacements of some temporaries. -/
def saveAll (frame : Frame) (pairs : List (Temp × Temp)) : List Temp → Step (List Instr)
  | [] => return []
  | t :: ts => do
      let is ← save frame t (replacement pairs t)
      let js ← saveAll frame pairs ts
      return is ++ js

/-- Give each temporary of a list a slot. -/
def reserve (frame : Frame) : List Temp → Step Unit
  | [] => return ()
  | t :: ts => do
      let _ ← slot frame t
      reserve frame ts

/-- Load the return value, which must then keep its temporary. -/
def reloadResult (frame : Frame) : Step (List Instr) := do
  let is ← reload frame frame.rv frame.rv
  shield frame.rv
  return is

/-- The block of an instruction. Slots are laid out by first occurrence, the
temporaries that are read before those that are written. The return value is
loaded if `leaving` says so. -/
def block (frame : Frame) (spilled : TempSet) (leaving : Bool) (i : Instr) : Step Block := do
  let pairs ← replacements (spilledOf spilled i.operands)
  let stored := spilledOf spilled i.defs
  let loads ← reloadAll frame pairs (spilledOf spilled i.uses)
  reserve frame stored
  let result ← if leaving then reloadResult frame else pure []
  let stores ← saveAll frame pairs stored
  return ⟨loads, result, i.rename (replacement pairs), stores⟩

end Spill

/-! ## Spilling temporaries from routines -/

namespace Spill

/-- Whether a routine reads or writes a spilled temporary. -/
def touches (spilled : TempSet) (r : Routine) : Bool :=
  r.instrs.any fun i => i.operands.any spilled.contains

/-- Whether the return value of a routine has to be loaded before it leaves. -/
def reloadsResult (spilled : TempSet) (r : Routine) : Bool :=
  spilled.contains r.frame.rv && r.definesResult

/-- The blocks of some instructions of a routine. -/
def blocks (spilled : TempSet) (r : Routine) : List Instr → Step (List Block)
  | [] => return []
  | i :: is => do
      let leaving := reloadsResult spilled r && i.jumps.contains r.exit
      let b ← block r.frame spilled leaving i
      let bs ← blocks spilled r is
      return b :: bs

end Spill

/-- What spilling makes of a routine. -/
structure SpilledRoutine where
  routine : Routine
  /-- The supply that is left. -/
  supply : Supply
  /-- The temporaries that must not be spilled again. -/
  shielded : TempSet
  /-- How many slots were added. -/
  added : Nat

namespace Routine

/-- Spill temporaries from a routine. A routine that does not touch them stays
as it is. -/
def spill (spilled : TempSet) (supply : Supply) (shielded : TempSet) (r : Routine) :
    Logged SpilledRoutine :=
  if Spill.touches spilled r then do
    let (bs, s) ← Logged.ofExcept
      ((Spill.blocks spilled r r.instrs).run ⟨supply, shielded, r.slots⟩)
    let added := s.slots.offsets.size - r.slots.offsets.size
    Logged.emit (.slotsAdded r.frame.label added s.slots.size)
    return ⟨{ r with instrs := bs.flatMap Spill.Block.toList, slots := s.slots },
      s.supply, s.shielded, added⟩
  else
    return ⟨r, supply, shielded, 0⟩

end Routine

/-- What spilling makes of a program. -/
structure SpilledProgram where
  program : Program
  /-- The temporaries that must not be spilled again. -/
  shielded : TempSet
  /-- How many slots were added to all routines. -/
  added : Nat

namespace Program

/-- Spill temporaries from routines in order. -/
def spillRoutines (spilled : TempSet) (supply : Supply) (shielded : TempSet) :
    List Routine → Logged SpilledProgram
  | [] => return ⟨⟨[], supply⟩, shielded, 0⟩
  | r :: rs => do
      let first ← r.spill spilled supply shielded
      let rest ← spillRoutines spilled first.supply first.shielded rs
      return ⟨⟨first.routine :: rest.program.routines, rest.program.supply⟩, rest.shielded,
        first.added + rest.added⟩

/-- Spill temporaries from all routines of a program. -/
def spill (spilled : TempSet) (shielded : TempSet) (p : Program) : Logged SpilledProgram :=
  spillRoutines spilled p.supply shielded p.routines

end Program

end MmixCodegen
