import MmixCodegen.Proofs.Select.Program
import MmixCodegen.Proofs.Substitution

/-!
# `MmixCodegen.Proofs.Select.Conform`: what later passes rely on

Allocation, spilling and binding take for granted what selected instructions look like, and none
of them checks it. `Instr.Conforms` lists these rules. There are at most two operands that are read
and one that is written. The frame pointer is none of them, since it has a register of its own. A
jump writes nothing, so that nothing has to be stored behind it. Each slot of the template has an
operand, and an operand without a slot is one that is updated: it is written as well, and its
slot is the one that is written.

`Program.select_conforms` says that selection keeps the rules for all procedures. That the
operands fit the template is a fact about operations (`Operation.fits_template`), and the frame
pointer is gone because code is made of known temporaries and of new ones (`Select.Part`).
-/

set_option autoImplicit false

namespace MmixCodegen

/-! ### Templates and operands -/

/-- The template can be read, each of its slots has an operand, and each operand that is read has a
slot or is written as well. -/
def Template.Fits (template : String) (uses defs : List Temp) : Prop :=
  ∃ ps, Reads template.toList ps ∧ (∀ s, .slot s ∈ ps → s.InRange uses.length defs.length) ∧
    ∀ k t, uses[k]? = some t → .slot (.read k) ∉ ps → t ∈ defs

namespace Operand

/-- An operand that is read is shown by a slot of its own, unless it is updated. -/
theorem read_mem_args {os : List Operand} {reads writes k : Nat} {t : Temp}
    (h : (os.filterMap read?)[k]? = some t) :
    .slot (.read (reads + k)) ∈ args reads writes os ∨ t ∈ os.filterMap write? := by
  induction os generalizing reads writes k with
  | nil => simp at h
  | cons o os ih =>
      cases o with
      | read u =>
          cases k with
          | zero => exact .inl List.mem_cons_self
          | succ k =>
              have htail : .slot (.read (reads + 1 + k)) ∈ args (reads + 1) writes os ∨ _ := ih h
              rw [Nat.add_assoc, Nat.add_comm 1 k] at htail
              exact htail.imp_left (List.mem_cons_of_mem _)
      | update u =>
          cases k with
          | zero =>
              -- The template shows the slot that is written.
              cases h
              exact .inr List.mem_cons_self
          | succ k =>
              have htail : .slot (.read (reads + 1 + k)) ∈ args (reads + 1) (writes + 1) os ∨ _ :=
                ih h
              rw [Nat.add_assoc, Nat.add_comm 1 k] at htail
              exact htail.imp (List.mem_cons_of_mem _) (List.mem_cons_of_mem _)
      | write u => exact (ih h).imp (List.mem_cons_of_mem _) (List.mem_cons_of_mem _)
      | number | label | register | remainder | window =>
          exact (ih h).imp_left (List.mem_cons_of_mem _)

end Operand

namespace Template

variable {template : String} {uses defs : List Temp}

/-- A template that can be filled in fits its operands, if those without a slot
are written as well. -/
theorem Fillable.fits (h : Fillable template uses.length defs.length)
    (hhidden : ∀ k t, uses[k]? = some t → .slot (.read k) ∉ scan template → t ∈ defs) :
    Fits template uses defs := by
  refine ⟨scan template, reads_iff.mpr ⟨rfl, h.wellFormed⟩, fun s hs => ?_, hhidden⟩
  cases s with
  | read k => exact h.read k hs
  | write k => exact h.write k hs
  | window => trivial

/-- Such a template can be filled in with any names. -/
theorem Fits.render?_eq_some (h : Fits template uses defs) (name : Temp → String) :
    ∃ text, render? template (uses.map name) (defs.map name) = some text := by
  obtain ⟨ps, hreads, hslots, -⟩ := h
  simp only [render?_eq_some_iff, exists_expands_iff, List.length_map]
  exact ⟨ps, hreads, hslots⟩

end Template

/-- The template of a plain operation fits its operands. -/
theorem Operation.fits_template {o : Operation} (h : o.Plain) :
    Template.Fits o.template o.uses o.defs := by
  refine (fillable_template h).fits fun k t hk hslot => ?_
  rw [scan_template h, slot_mem_pieces_iff, ← Nat.zero_add k] at hslot
  exact (Operand.read_mem_args hk).resolve_left hslot

/-! ### The rules -/

namespace Instr

/-- What later passes rely on in a routine with frame pointer `fp`. -/
structure Conforms (fp : Temp) (i : Instr) : Prop where
  not_read : fp ∉ i.uses
  not_written : fp ∉ i.defs
  uses_le : i.uses.length ≤ 2
  defs_le : i.defs.length ≤ 1
  jump : i.jumps ≠ [] → i.defs = [] ∧ i.uses.length ≤ 1
  template : Template.Fits i.template i.uses i.defs
  text : ∃ text, i.text? = some text

variable {fp : Temp} {i : Instr}

/-- An instruction whose template fits its operands has a text. -/
theorem exists_text? (h : Template.Fits i.template i.uses i.defs) :
    ∃ text, i.text? = some text := by
  obtain ⟨kind, live⟩ := i
  cases kind with
  | label l => exact ⟨_, rfl⟩
  | oper | move => exact h.render?_eq_some Temp.name

/-- The template of a selected instruction fits its operands. -/
theorem Selected.fits (h : i.Selected) : Template.Fits i.template i.uses i.defs := by
  cases h with
  | sequential h =>
      cases h with
      | oper proper => exact Operation.fits_template proper.toPlain
      | copy dst src =>
          rw [template_copy]
          exact Operation.fits_template (Operation.plain_combineNumber .add 0)
  | jump proper => exact Operation.fits_template proper.toPlain
  | label l =>
      refine ⟨[], .nil, ?_, ?_⟩
      · intro s hs
        cases hs
      · intro k t hk
        cases hk

/-- A selected instruction has few operands, and writes none of them if it jumps. -/
theorem Selected.few (h : i.Selected) : i.uses.length ≤ 2 ∧ i.defs.length ≤ 1 ∧
    (i.jumps ≠ [] → i.defs = [] ∧ i.uses.length ≤ 1) := by
  cases h with
  | sequential h =>
      cases h with
      | oper proper sequential =>
          exact ⟨proper.uses_le, proper.defs_le, fun hjumps => absurd sequential.targets hjumps⟩
      | copy dst src => exact ⟨Nat.le_succ 1, Nat.le_refl 1, fun hjumps => absurd rfl hjumps⟩
  | jump proper hdefs huses => exact ⟨proper.uses_le, proper.defs_le, fun _ => ⟨hdefs, huses⟩⟩
  | label l => exact ⟨Nat.zero_le 2, Nat.zero_le 1, fun hjumps => absurd rfl hjumps⟩

/-- A selected instruction conforms, if the frame pointer is not among its operands. -/
theorem Selected.conforms (h : i.Selected) (hfp : fp ∉ i.operands) : i.Conforms fp where
  not_read := fun hmem => hfp (List.mem_append_left _ hmem)
  not_written := fun hmem => hfp (List.mem_append_right _ hmem)
  uses_le := h.few.1
  defs_le := h.few.2.1
  jump := h.few.2.2
  template := h.fits
  text := exists_text? h.fits

end Instr

namespace Program

variable {ps : List Procedure} {program : Program} {r : Routine} {i : Instr}

/-- No instruction has the frame pointer as an operand. -/
theorem fp_notMem_operands (h : (select ps).outcome = .ok program) (hr : r ∈ program.routines)
    (hi : i ∈ r.instrs) : r.frame.fp ∉ i.operands := by
  obtain ⟨first, htemps, -, hyields⟩ := yields_of_select h
  obtain ⟨p, hp, s, rest, is, hs, -, hprocedure, rfl⟩ := exists_mem_of_forall₂ hyields.flip hr
  have hfp : p.frame.fp.number < s.next :=
    Nat.lt_of_lt_of_le (htemps p hp _ (List.mem_append_right _ (by simp))) hs
  obtain ⟨parts, hparts, rfl⟩ := Select.exists_mapM_stmt hprocedure
  -- Let all temporaries be known but this one. Those that are made lie above it.
  have hall : ∀ part ∈ parts, Select.Part (· ≠ p.frame.fp) s.next rest.next part :=
    (Select.part_of_mem (fun _ _ _ _ hne => hne) hparts).2
  obtain ⟨part, hpart, hi⟩ := List.mem_flatten.mp hi
  intro hmem
  rcases (hall part hpart).mem_operands hi hmem with hne | hnew
  · exact hne rfl
  · have hnew : s.next ≤ p.frame.fp.number := hnew.1
    omega

/-- Whatever is selected keeps the rules that later passes rely on. -/
theorem select_conforms (hlabels : ∀ p ∈ ps, ∀ l ∈ p.labels, l.Plain)
    (h : (select ps).outcome = .ok program) :
    ∀ r ∈ program.routines, ∀ i ∈ r.instrs, i.Conforms r.frame.fp := by
  intro r hr i hi
  have hselected := (emitsAll_of_select hlabels h hr).2.all i hi
  exact hselected.conforms (fp_notMem_operands h hr hi)

end Program

/-- The frame pointer is read in an address, as an argument, in a sum and in a branch. The constant
takes two instructions, the second of which updates it. -/
def Procedure.anchored : Procedure where
  frame := ⟨⟨"anchored"⟩, 0, 8, 16, 40, ⟨0⟩, ⟨1⟩⟩
  entry := ⟨"anchored"⟩
  exit := ⟨"exit"⟩
  body := [
    .move (.mem (.binary .sub (.temp ⟨0⟩) (.const 8))) (.const 65537),
    .move (.temp ⟨1⟩) (.call ⟨"f"⟩ [.temp ⟨0⟩, .binary .add (.temp ⟨0⟩) (.temp ⟨2⟩)]),
    .branch (.temp ⟨0⟩) ⟨"more"⟩ ⟨"exit"⟩,
    .label ⟨"more"⟩,
    .jump ⟨"exit"⟩]

/-- All twelve instructions that are selected for `Procedure.anchored` conform. -/
theorem Program.anchored_conforms :
    ∃ program, (select [Procedure.anchored]).outcome = .ok program ∧
      (program.routines.flatMap Routine.instrs).length = 12 ∧
      ∀ r ∈ program.routines, ∀ i ∈ r.instrs, i.Conforms r.frame.fp := by
  have hlength : (select [Procedure.anchored]).outcome.toOption.map
      (fun program => (program.routines.flatMap Routine.instrs).length) = some 12 := by
    decide +kernel
  cases hselect : (select [Procedure.anchored]).outcome with
  | error e =>
      rw [hselect] at hlength
      cases hlength
  | ok program =>
      rw [hselect] at hlength
      exact ⟨program, rfl, Option.some.inj hlength,
        select_conforms (List.forall_mem_singleton.mpr (by decide)) hselect⟩

end MmixCodegen
