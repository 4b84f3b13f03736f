import MmixCodegen.Assembly
import MmixCodegen.Proofs.Flow.Analyze
import Mathlib.Logic.Function.Basic

/-!
# `MmixCodegen.Proofs.Machine`: what code does

What an operation does is left open: `Meaning` may be any function of its
template, of the values that it reads and of a hidden state of the machine. The
rest is fixed. A copy copies, a label does nothing, and an operation with jumps
goes on at one of them.

Code over temporaries and code over registers are run by the same machine. Its
instructions are `Effect`s whose operands are locations of some type. A location
holds a value. `Machine.run` gives the state after a number of steps, and the
operations on the way: their templates, the values that they read, the hidden
states in which they are carried out, and the jumps that they take.
-/

set_option autoImplicit false

namespace MmixCodegen

/-- What an instruction does to locations of type `L`. -/
inductive Effect (L : Type) where
  | oper (template : String) (uses defs : List L) (jumps : List Label)
  | copy (dst src : L)
  | label (l : Label)

namespace Effect

variable {L M : Type}

/-- Put other locations in place of the operands. -/
def map (f : L → M) : Effect L → Effect M
  | oper template uses defs jumps => oper template (uses.map f) (defs.map f) jumps
  | copy dst src => copy (f dst) (f src)
  | label l => label l

/-- The label that is set. -/
def label? : Effect L → Option Label
  | label l => some l
  | _ => none

/-- Other operands leave the label of an effect as it is. -/
theorem label?_map (f : L → M) (e : Effect L) : (e.map f).label? = e.label? := by
  cases e <;> rfl

end Effect

/-- What an instruction over temporaries does. -/
def Instr.effect (i : Instr) : Effect Temp :=
  match i.kind with
  | .oper template uses defs jumps => .oper template uses defs jumps
  | .move _ dst src => .copy dst src
  | .label l => .label l

/-- What an instruction over registers does. Which operation it stands for is told
by the instruction over temporaries that it was made from. -/
def BoundInstr.effect (origin : Instr) : BoundInstr → Effect Register
  | label l => .label l
  | oper _ uses defs jumps =>
      match origin.kind, uses, defs with
      | .move _ _ _, [src], [dst] => .copy dst src
      | _, uses, defs => .oper origin.template uses defs jumps

/-- The code of a routine over temporaries. -/
def Routine.effects (r : Routine) : List (Effect Temp) :=
  r.instrs.map Instr.effect

/-- The code of a routine over registers. -/
def AssemblyRoutine.effects (r : AssemblyRoutine) : List (Effect Register) :=
  r.source.instrs.zipWith (fun origin i => i.effect origin) r.instrs

/-- What operations do, given their template, the values that they read and the
hidden state. -/
structure Meaning (V H : Type) where
  /-- The values that are written, by position. -/
  values : String → List V → H → Nat → V
  /-- The new hidden state. -/
  hidden : String → List V → H → H
  /-- Which one of some jumps is taken, by its position modulo their number. -/
  branch : String → List V → H → List Label → Nat

/-- Where control is. -/
inductive Place where
  /-- Before the instruction with this index. -/
  | line (index : Nat)
  /-- Outside of the code, after a jump to a label that it does not set. -/
  | left (l : Label)
deriving DecidableEq

/-- An operation that was carried out. -/
@[ext]
structure Occurrence (V H : Type) where
  template : String
  /-- The values that it read. -/
  operands : List V
  /-- The hidden state in which it was carried out. -/
  hidden : H
  /-- The jump that it took, if it has any. -/
  jump : Option Label

namespace Machine

/-- A state of the machine. -/
structure State (L V H : Type) where
  place : Place
  store : L → V
  hidden : H

variable {L V H : Type}

/-- Where a jump leads. A label that is set twice stands for its last occurrence. -/
def goto (code : List (Effect L)) (l : Label) : Place :=
  match Flow.lastIndex? (fun e => e.label? = some l) 0 code with
  | some index => .line index
  | none => .left l

variable [DecidableEq L]

/-- Write values to locations in order, from position `index` on. -/
def write (values : Nat → V) (index : Nat) : List L → (L → V) → L → V
  | [], store => store
  | l :: ls, store => write values (index + 1) ls (Function.update store l (values index))

/-- Written values agree at a location if no other location that is written to goes to the same
place, and if the values from before agree where nothing is written. -/
theorem write_map {M : Type} [DecidableEq M] {f : L → M} {store : L → V} {store' : M → V}
    {values : Nat → V} {t : L}
    {defs : List L} (index : Nat) (hf : ∀ d ∈ defs, f d = f t → d = t)
    (hstore : t ∉ defs → store' (f t) = store t) :
    write values index (defs.map f) store' (f t) = write values index defs store t := by
  induction defs generalizing index store store' with
  | nil => exact hstore List.not_mem_nil
  | cons d defs ih =>
      refine ih (index + 1) (fun x hx => hf x (List.mem_cons_of_mem d hx)) fun hnot => ?_
      by_cases hd : d = t
      · rw [hd, Function.update_self, Function.update_self]
      · have hne : f t ≠ f d := fun h => hd (hf d List.mem_cons_self h.symm)
        rw [Function.update_of_ne hne, Function.update_of_ne (Ne.symm hd)]
        refine hstore (List.mem_cons.not.mpr (not_or.mpr ⟨Ne.symm hd, hnot⟩))

/-- Carry out an instruction. -/
def perform (m : Meaning V H) (code : List (Effect L)) (index : Nat) (s : State L V H) :
    Effect L → State L V H × List (Occurrence V H)
  | .oper template uses defs jumps =>
      let operands := uses.map s.store
      let jump := jumps[m.branch template operands s.hidden jumps % jumps.length]?
      let values := m.values template operands s.hidden
      (⟨jump.elim (.line (index + 1)) (goto code), write values 0 defs s.store,
          m.hidden template operands s.hidden⟩,
        [⟨template, operands, s.hidden, jump⟩])
  | .copy dst src =>
      (⟨.line (index + 1), Function.update s.store dst (s.store src), s.hidden⟩, [])
  | .label _ => ({ s with place := .line (index + 1) }, [])

/-- One step. Outside of the code nothing happens any more. -/
def step (m : Meaning V H) (code : List (Effect L)) (s : State L V H) :
    State L V H × List (Occurrence V H) :=
  match s.place with
  | .left _ => (s, [])
  | .line index =>
      match code[index]? with
      | none => (s, [])
      | some e => perform m code index s e

/-- The state after some steps, and the operations on the way. -/
def run (m : Meaning V H) (code : List (Effect L)) (s : State L V H) :
    Nat → State L V H × List (Occurrence V H)
  | 0 => (s, [])
  | n + 1 =>
      let (reached, before) := run m code s n
      let (next, now) := step m code reached
      (next, before ++ now)

/-- A run is a first part followed by a run from where that part ends. -/
theorem run_add (m : Meaning V H) (code : List (Effect L)) (s : State L V H) (n k : Nat) :
    run m code s (n + k) =
      ((run m code (run m code s n).1 k).1,
        (run m code s n).2 ++ (run m code (run m code s n).1 k).2) := by
  induction k with
  | zero => simp [run]
  | succ k ih =>
      rw [← Nat.add_assoc, run, ih]
      simp only [run, List.append_assoc]

end Machine

/-! ### The code of a routine -/

namespace Routine

variable {r : Routine} {index : Nat} {i : Instr}

/-- A jump leads to where the flow analysis finds its label, or out of the code. -/
theorem goto_effects (r : Routine) (l : Label) :
    Machine.goto r.effects l = (Flow.labelIndex? l r.instrs).elim (.left l) .line := by
  have hlabel : ∀ i : Instr, i.effect.label? = i.label? := by
    intro i
    unfold Instr.effect Instr.label?
    cases i.kind <;> rfl
  unfold Machine.goto Routine.effects
  rw [Flow.lastIndex?_map]
  simp only [hlabel]
  show (match Flow.labelIndex? l r.instrs with
    | some index => Place.line index
    | none => .left l) = _
  cases Flow.labelIndex? l r.instrs <;> rfl

/-- The effects stand at the places of their instructions. -/
theorem getElem?_effects (r : Routine) (index : Nat) :
    r.effects[index]? = r.instrs[index]?.map Instr.effect := by
  rw [Routine.effects, List.getElem?_map]

/-- At a line of the code, a step carries out the instruction there. -/
theorem step_effects {V H : Type} {m : Meaning V H} {s : Machine.State Temp V H}
    (hplace : s.place = .line index) (hi : r.instrs[index]? = some i) :
    Machine.step m r.effects s = Machine.perform m r.effects index s i.effect := by
  simp only [Machine.step, hplace, getElem?_effects, hi, Option.map_some]

/-- A machine is at an instruction, or it is stuck. -/
theorem at_or_stuck {V H : Type} (r : Routine) (s : Machine.State Temp V H) :
    (∃ index i, s.place = .line index ∧ r.instrs[index]? = some i) ∨
      ∀ index, s.place = .line index → r.instrs[index]? = none := by
  by_cases hstuck : ∀ index, s.place = .line index → r.instrs[index]? = none
  · exact .inr hstuck
  · simp only [not_forall] at hstuck
    obtain ⟨index, hplace, hsome⟩ := hstuck
    obtain ⟨i, hi⟩ := Option.ne_none_iff_exists'.mp hsome
    exact .inl ⟨index, i, hplace, hi⟩

/-- A machine that is stuck stays where it is. -/
theorem step_of_stuck {V H : Type} {m : Meaning V H} {s : Machine.State Temp V H}
    (hstuck : ∀ index, s.place = .line index → r.instrs[index]? = none) :
    Machine.step m r.effects s = (s, []) := by
  cases hplace : s.place with
  | left l => simp only [Machine.step, hplace]
  | line index =>
      simp only [Machine.step, hplace, getElem?_effects, hstuck index hplace, Option.map_none]

end Routine

end MmixCodegen
