import MmixCodegen.Proofs.Layout
import MmixCodegen.Proofs.Select.Program

/-!
# `MmixCodegen.Proofs.Select.Runs`: selected code runs like tree code

The code of a procedure consists of one part for each of its statements
(`Select.parts_of_stmts`). `Procedure.Matches` relates the states of the two machines:
the one with instructions is where the part of the next statement begins, the temporaries
of the procedure have the same values, the frame pointer being in its register, and
memory is the same. `Select.Translated.matches_step` is the simulation: a statement of
tree code is a run through its part. Its cases are straight parts (`run_part`) and parts
that end with a jump (`run_part_jump`).

`Program.select_preserves_runs` is the same for runs of any length and all procedures of
a program. Where the part of a statement is empty, the machine with instructions waits.
-/

set_option autoImplicit false

namespace MmixCodegen

/-! ### Runs through a part -/

namespace Mmix

variable {E : Type} {w : World E} {parts : List (List Instr)} {part : List Instr} {index : Nat}

/-- A part without jumps is run through to where the next one begins. -/
theorem run_part (hpart : parts[index]? = some part) (h : ∀ i ∈ part, Straight i) (c : Core E) :
    run w parts.flatten ⟨.line (Layout.start parts index), c⟩ part.length =
      (⟨.line (Layout.start parts (index + 1)), performAll w part c⟩, []) := by
  rw [Layout.flatten_eq hpart, Layout.start_succ hpart]
  exact run_straight h w _ _ c

/-- A part that ends with an operation that may jump. -/
theorem run_part_jump {is : List Instr} {o : Operation}
    (hpart : parts[index]? = some (is ++ [o.instr])) (h : ∀ i ∈ is, Straight i) (ho : o.Readable)
    (c : Core E) :
    let d := performAll w is c
    let jump := target? o.mnemonic o.args (o.inputs w d.store d.hidden)
    run w parts.flatten ⟨.line (Layout.start parts index), c⟩ (is ++ [o.instr]).length =
      (⟨jump.elim (.line (Layout.start parts (index + 1))) (goto parts.flatten),
        perform w o.instr d⟩, jump.toList) := by
  intro d jump
  -- First the straight part, which the jump stands behind.
  have hcode := Layout.flatten_eq hpart
  rw [← List.append_assoc, List.append_assoc _ [o.instr]] at hcode
  have hstraight : run w parts.flatten ⟨.line (Layout.start parts index), c⟩ is.length =
      (⟨.line (Layout.start parts index + is.length), d⟩, []) := by
    rw [hcode]
    exact run_straight h w _ _ c
  have hget : parts.flatten[Layout.start parts index + is.length]? = some o.instr := by
    rw [hcode, Layout.start, ← List.length_append, List.getElem?_append_right (Nat.le_refl _),
      Nat.sub_self]
    rfl
  have hjump : jump? w o.instr.template (o.instr.uses.map d.store) d.hidden = jump :=
    Operation.jump?_template ho w d.store d.hidden
  have hread : read? o.instr.template = some (o.mnemonic, o.args) := Operation.read?_template ho
  have hlabel : o.instr.label? = none := rfl
  rw [List.length_append, List.length_singleton, run, hstraight, Layout.start_succ hpart]
  simp [step, hget, hjump, hread, hlabel, Nat.add_assoc]

end Mmix

/-! ### The parts of a procedure -/

namespace Select

/-- What is selected for a statement while the temporaries in `T` are not in the supply. -/
def Translated (fp : Temp) (T : Temp → Prop) (st : Stmt) (part : List Instr) : Prop :=
  ∃ s rest : Supply, (∀ t, T t → t.number < s.next) ∧ stmt fp st s = .ok part rest

/-- The code of statements consists of one part for each of them. -/
theorem parts_of_stmts {fp : Temp} {T : Temp → Prop} {body : List Stmt} {s rest : Supply}
    {is : List Instr} (hlabels : ∀ st ∈ body, ∀ l ∈ st.labels, l.Plain)
    (htemps : ∀ st ∈ body, ∀ u ∈ st.temps, T u) (hT : ∀ t, T t → t.number < s.next)
    (h : stmts fp body s = .ok is rest) :
    ∃ parts : List (List Instr), is = parts.flatten ∧
      List.Forall₂ (Translated fp T) body parts := by
  induction body generalizing s is with
  | nil =>
      obtain ⟨rfl, rfl⟩ := pure_eq_ok.mp h
      exact ⟨[], rfl, .nil⟩
  | cons st body ih =>
      rw [List.forall_mem_cons] at hlabels htemps
      obtain ⟨part, mid, others, hpart, hothers, rfl⟩ := stmts_cons_eq_ok.mp h
      have hle := (emitsAll_stmt hlabels.1 (fun u hu => hT u (htemps.1 u hu)) hpart).le
      obtain ⟨parts, rfl, hparts⟩ := ih hlabels.2 htemps.2
        (fun t ht => Nat.lt_of_lt_of_le (hT t ht) hle) hothers
      exact ⟨part :: parts, rfl, .cons ⟨s, mid, hT, hpart⟩ hparts⟩

/-- The parts are the code of a procedure without calls. -/
structure Translation (p : Procedure) (parts : List (List Instr)) : Prop where
  plain : ∀ l ∈ p.labels, l.Plain
  callFree : p.callFree = true
  fallsThrough : p.FallsThrough
  parts : List.Forall₂ (Translated p.frame.fp (· ∈ p.temps)) p.body parts

end Select

namespace Procedure

/-- The frame pointer is a temporary of the procedure. -/
theorem fp_mem_temps (p : Procedure) : p.frame.fp ∈ p.temps :=
  List.mem_append_right _ List.mem_cons_self

/-- The machine with instructions does what the one with tree code does. The frame pointer
is in its register. -/
structure Matches {E : Type} (p : Procedure) (parts : List (List Instr)) (s : Tree.State)
    (m : Mmix.State E) : Prop where
  place : m.place = Layout.place parts s.place
  temps : ∀ t ∈ p.temps, m.core.get p.frame.fp t = s.temps t
  memory : m.core.hidden.memory = s.memory

end Procedure

namespace Select.Translation

variable {E : Type} {w : Mmix.World E} {p : Procedure} {parts : List (List Instr)}
  {part : List Instr} {index : Nat} {st : Stmt} {s : Tree.State} {m : Mmix.State E}

/-- A jump leads to where the part of its label begins. -/
theorem goto_flatten (h : Translation p parts) (l : Label) :
    Mmix.goto parts.flatten l = Layout.place parts (Tree.goto p.body l) := by
  have hkeeps : List.Forall₂
      (Layout.Keeps (fun st : Stmt => st.label? = some l) fun i : Instr => i.label? = some l)
      p.body parts := by
    refine List.forall₂_iff_get.mpr ⟨h.parts.length_eq, fun index hbody hparts => ?_⟩
    obtain ⟨s, rest, hT, hpart⟩ := (List.forall₂_iff_get.mp h.parts).2 index hbody hparts
    have hst := List.get_mem p.body ⟨index, hbody⟩
    generalize p.body.get ⟨index, hbody⟩ = st at hst hpart
    generalize parts.get ⟨index, hparts⟩ = part at hpart
    have hall := (emitsAll_stmt (Procedure.plain_of_mem_body h.plain hst)
      (fun u hu => hT u (Procedure.mem_temps_of_mem_body hst hu)) hpart).all
    rw [Layout.Keeps]
    split
    · next hl =>
        -- A label becomes a label.
        cases st with
        | label l' =>
            obtain ⟨rfl, -⟩ := pure_eq_ok.mp hpart
            exact ⟨_, rfl, hl⟩
        | _ => simp [Stmt.label?] at hl
    · next hl =>
        intro i hi
        rw [(hall i hi).2]
        simpa using hl
  rw [Mmix.goto, Tree.goto, Flow.labelIndex?, Layout.lastIndex?_flatten hkeeps]
  cases Flow.lastIndex? (fun st : Stmt => st.label? = some l) 0 p.body <;> rfl

/-- A branch jumps if its operand is not zero. -/
theorem target?_branch (fp value : Temp) (pos neg : Label) (x y : Word) :
    Mmix.target? .bnz ((Operation.branch value pos neg).inline fp).args [x, y] =
      if x = 0 then none else some pos := by
  by_cases hvalue : value = fp <;>
    simp [Operation.args, Operation.inline, Operation.branch, Operand.inline, hvalue,
      Operand.args, Mmix.target?]

/-- After a run through a part that does not jump, the next statement is up. -/
theorem matches_straight {c : Mmix.Core E} {temps : Temp → Word} {memory : Memory}
    (hpart : parts[index]? = some part) (hstraight : ∀ i ∈ part, i.Sequential)
    (hagrees : Agrees p.frame.fp (· ∈ p.temps) temps memory (Mmix.performAll w part c)) :
    let reached := Mmix.run w parts.flatten ⟨.line (Layout.start parts index), c⟩ part.length
    p.Matches parts ⟨.line (index + 1), temps, memory⟩ reached.1 ∧ reached.2 = [] := by
  intro reached
  have hreached : reached = _ := Mmix.run_part hpart (fun i hi => (hstraight i hi).straight) c
  rw [hreached]
  exact ⟨⟨rfl, hagrees.temps, hagrees.memory⟩, rfl⟩

/-- The simulation for a branch: its condition is computed, and decides where to go on. -/
theorem matches_branch {cond : Expr} {pos neg : Label} {c : Mmix.Core E}
    (h : Translation p parts) (hst : p.body[index]? = some (.branch cond pos neg))
    (hpart : parts[index]? = some part)
    (hsel : Translated p.frame.fp (· ∈ p.temps) (.branch cond pos neg) part)
    (hagrees : Agrees p.frame.fp (· ∈ p.temps) s.temps s.memory c) :
    let reached := Mmix.run w parts.flatten ⟨.line (Layout.start parts index), c⟩ part.length
    let next := Tree.perform w.address p.body index s (.branch cond pos neg)
    p.Matches parts next.1 reached.1 ∧ reached.2 = next.2 := by
  have hmem := List.mem_of_getElem? hst
  have hplain := Procedure.plain_of_mem_body h.plain hmem
  rw [Stmt.labels, List.forall_mem_append] at hplain
  have htemps : ∀ u ∈ cond.temps, u ∈ p.temps := fun u hu =>
    Procedure.mem_temps_of_mem_body hmem hu
  have hcalls : cond.callFree = true := List.all_eq_true.mp h.callFree _ hmem
  obtain ⟨start, rest, hT, hsel⟩ := hsel
  obtain ⟨is, value, mid, i, hvalue, hi, rfl⟩ := stmt_branch_eq_ok.mp hsel
  have hproper : (Operation.branch value pos neg).Proper :=
    Operation.proper_branch (hplain.2 pos List.mem_cons_self)
  obtain ⟨-, rfl, -⟩ := (emit_eq_ok hproper.toPlain).mp hi
  have his := hagrees.computes (w := w) hvalue hcalls hplain.1 p.fp_mem_temps htemps hT
  have hseq := (emits_expr hplain.1 (fun u hu => hT u (htemps u hu)) hvalue).1.sequential
  have hkept := hagrees.keeps his.keeps hT
  have hrun := Mmix.run_part_jump (w := w) hpart (fun i hi => (hseq i hi).straight)
    (hproper.toReadable.inline p.frame.fp) c
  -- The branch reads the value of the condition, and changes nothing.
  have hinputs : ((Operation.branch value pos neg).inline p.frame.fp).inputs w
      (Mmix.performAll w is c).store (Mmix.performAll w is c).hidden =
        [s.value w.address cond, w.address pos] := by
    rw [Operation.inputs_inline, Tree.State.value, ← his.value]
    rfl
  have hperform : Mmix.perform w ((Operation.branch value pos neg).inline p.frame.fp).instr
      (Mmix.performAll w is c) = Mmix.performAll w is c :=
    Operation.perform_inline hproper.toReadable p.frame.fp w _
  simp only [hinputs, hperform] at hrun
  rw [show ((Operation.branch value pos neg).inline p.frame.fp).mnemonic = .bnz from rfl,
    target?_branch] at hrun
  rw [hrun, Tree.perform]
  by_cases hzero : s.value w.address cond = 0
  · -- Behind the branch its second label is set.
    have hfalls : p.body[index + 1]?.bind Stmt.label? = some neg := by
      rw [h.fallsThrough index cond pos neg hst]
      rfl
    rw [if_pos hzero, if_neg (not_not.mpr hzero), if_pos hfalls]
    exact ⟨⟨rfl, hkept.temps, hkept.memory⟩, rfl⟩
  · rw [if_neg hzero, if_pos hzero]
    exact ⟨⟨h.goto_flatten pos, hkept.temps, hkept.memory⟩, rfl⟩

/-- The simulation for a jump. -/
theorem matches_jump {target : Label} {c : Mmix.Core E} (h : Translation p parts)
    (hst : p.body[index]? = some (.jump target)) (hpart : parts[index]? = some part)
    (hsel : Translated p.frame.fp (· ∈ p.temps) (.jump target) part)
    (hagrees : Agrees p.frame.fp (· ∈ p.temps) s.temps s.memory c) :
    let reached := Mmix.run w parts.flatten ⟨.line (Layout.start parts index), c⟩ part.length
    let next := Tree.perform w.address p.body index s (.jump target)
    p.Matches parts next.1 reached.1 ∧ reached.2 = next.2 := by
  obtain ⟨start, rest, -, hsel⟩ := hsel
  obtain ⟨i, hi, rfl⟩ := stmt_jump_eq_ok.mp hsel
  have hproper : (Operation.jump target).Proper := Operation.proper_jump <|
    Procedure.plain_of_mem_body h.plain (List.mem_of_getElem? hst) target
      (List.mem_singleton_self target)
  obtain ⟨-, rfl, -⟩ := (emit_eq_ok hproper.toPlain).mp hi
  have halone : parts[index]? = some ([] ++ [((Operation.jump target).inline p.frame.fp).instr]) :=
    hpart
  have hrun := Mmix.run_part_jump (w := w) halone nofun (hproper.toReadable.inline p.frame.fp) c
  have hperform : Mmix.perform w ((Operation.jump target).inline p.frame.fp).instr c = c :=
    Operation.perform_inline hproper.toReadable p.frame.fp w c
  intro reached next
  have hreached : reached = (⟨Mmix.goto parts.flatten target, c⟩, [target]) := by
    rw [← hperform]
    exact hrun
  rw [hreached]
  exact ⟨⟨h.goto_flatten target, hagrees.temps, hagrees.memory⟩, rfl⟩

/-- The simulation for a label, which changes nothing. -/
theorem matches_label {l : Label} {c : Mmix.Core E} (hpart : parts[index]? = some part)
    (hsel : Translated p.frame.fp (· ∈ p.temps) (.label l) part)
    (hagrees : Agrees p.frame.fp (· ∈ p.temps) s.temps s.memory c) :
    let reached := Mmix.run w parts.flatten ⟨.line (Layout.start parts index), c⟩ part.length
    p.Matches parts { s with place := .line (index + 1) } reached.1 ∧ reached.2 = [] := by
  obtain ⟨start, rest, -, hsel⟩ := hsel
  obtain ⟨rfl, -⟩ := pure_eq_ok.mp hsel
  have hget := Layout.getElem?_flatten_start hpart
  intro reached
  have hreached : reached = (⟨.line (Layout.start parts (index + 1)), c⟩, []) := by
    show Mmix.run w _ _ 1 = _
    rw [Layout.start_succ hpart]
    simp [Mmix.run, Mmix.step, hget, Instr.ofKind, Instr.label?]
  rw [hreached]
  exact ⟨⟨rfl, hagrees.temps, hagrees.memory⟩, rfl⟩

/-- The simulation for any statement, by the cases above. -/
theorem matches_perform {c : Mmix.Core E} (h : Translation p parts)
    (hst : p.body[index]? = some st) (hpart : parts[index]? = some part)
    (hsel : Translated p.frame.fp (· ∈ p.temps) st part)
    (hagrees : Agrees p.frame.fp (· ∈ p.temps) s.temps s.memory c) :
    let reached := Mmix.run w parts.flatten ⟨.line (Layout.start parts index), c⟩ part.length
    let next := Tree.perform w.address p.body index s st
    p.Matches parts next.1 reached.1 ∧ reached.2 = next.2 := by
  have hmem := List.mem_of_getElem? hst
  have hplain := Procedure.plain_of_mem_body h.plain hmem
  have htemps : ∀ u ∈ st.temps, u ∈ p.temps := fun u hu => Procedure.mem_temps_of_mem_body hmem hu
  have hcalls : st.callFree = true := List.all_eq_true.mp h.callFree _ hmem
  -- Only a branch and a jump can leave the part; all else runs through it.
  cases st with
  | move dst src =>
      rw [Stmt.labels, List.forall_mem_append] at hplain
      rw [Stmt.temps, List.forall_mem_append] at htemps
      rw [Stmt.callFree, Bool.and_eq_true] at hcalls
      obtain ⟨start, rest, hT, hsel⟩ := hsel
      cases dst with
      | temp dst =>
          rw [stmt] at hsel
          have hdst : dst.number < start.next := hT dst (htemps.1 dst (List.mem_singleton_self dst))
          have hseq := (emitsAll_assign hplain.2 hdst (fun u hu => hT u (htemps.2 u hu)) hsel).all
          exact matches_straight hpart hseq
            (hagrees.assign hsel hcalls.2 hplain.2 p.fp_mem_temps htemps.2 hT)
      | mem addr =>
          rw [stmt] at hsel
          have hseq := (emitsAll_store hsel hplain.1 hplain.2 (fun u hu => hT u (htemps.1 u hu))
            fun u hu => hT u (htemps.2 u hu)).all
          exact matches_straight hpart hseq
            (hagrees.store hsel hcalls hplain.1 hplain.2 p.fp_mem_temps htemps.1 htemps.2 hT)
      | _ => exact absurd hsel throw_ne_ok
  | branch cond pos neg => exact matches_branch h hst hpart hsel hagrees
  | jump target => exact matches_jump h hst hpart hsel hagrees
  | label l => exact matches_label hpart hsel hagrees
  | eval e =>
      obtain ⟨start, rest, hT, hsel⟩ := hsel
      obtain ⟨l, es, rfl, -⟩ | ⟨-, value, hvalue⟩ := stmt_eval_eq_ok.mp hsel
      · cases hcalls
      · have hseq := (emits_expr hplain (fun u hu => hT u (htemps u hu)) hvalue).1.sequential
        have his := hagrees.computes (w := w) hvalue hcalls hplain p.fp_mem_temps htemps hT
        exact matches_straight hpart hseq (hagrees.keeps his.keeps hT)

/-- A step of tree code is a run through the part of its statement. -/
theorem matches_step (h : Translation p parts) (hm : p.Matches parts s m) :
    let reached := Mmix.run w parts.flatten m (Layout.size parts s.place)
    let next := Tree.step w.address p.body s
    p.Matches parts next.1 reached.1 ∧ reached.2 = next.2 := by
  cases hplace : s.place with
  | left l =>
      rw [Tree.step, hplace]
      exact ⟨hm, rfl⟩
  | line index =>
      have hlength := h.parts.length_eq
      have hagrees : Agrees p.frame.fp (· ∈ p.temps) s.temps s.memory m.core :=
        ⟨hm.temps, hm.memory⟩
      cases hst : p.body[index]? with
      -- Behind the last statement there is no part either, and neither side moves.
      | none =>
          have hnone : parts[index]? = none := by
            rw [List.getElem?_eq_none_iff, ← hlength]
            exact List.getElem?_eq_none_iff.mp hst
          simp only [Tree.step, hplace, hst, Layout.size, hnone]
          exact ⟨hm, rfl⟩
      | some st =>
          obtain ⟨hlt, hget⟩ := List.getElem?_eq_some_iff.mp hst
          have hpart : parts[index]? = some parts[index] := List.getElem?_eq_getElem (hlength ▸ hlt)
          have hsel := (List.forall₂_iff_get.mp h.parts).2 index hlt (hlength ▸ hlt)
          rw [List.get_eq_getElem, hget] at hsel
          have hmplace : m.place = .line (Layout.start parts index) := by
            rw [hm.place, hplace]
            rfl
          have hstate : m = ⟨.line (Layout.start parts index), m.core⟩ := by rw [← hmplace]
          simp only [Tree.step, hplace, hst, Layout.size, hpart]
          rw [hstate]
          exact h.matches_perform hst hpart hsel hagrees

end Select.Translation

/-! ### Runs -/

namespace Layout

/-- How many steps the code in parts takes for `n` steps of tree code. -/
def pace (symbols : Label → Word) (body : List Stmt) (parts : List (List Instr)) (s : Tree.State) :
    (n : Nat) → Nat
  | 0 => 0
  | n + 1 => pace symbols body parts s n + size parts (Tree.run symbols body s n).1.place

end Layout

namespace Select.Translation

variable {E : Type} {w : Mmix.World E} {p : Procedure} {parts : List (List Instr)}
  {s : Tree.State} {m : Mmix.State E}

/-- The simulation for runs, statement by statement. -/
theorem matches_run (h : Translation p parts) (hm : p.Matches parts s m) (n : Nat) :
    let reached := Mmix.run w parts.flatten m (Layout.pace w.address p.body parts s n)
    let next := Tree.run w.address p.body s n
    p.Matches parts next.1 reached.1 ∧ reached.2 = next.2 := by
  induction n with
  | zero => exact ⟨hm, rfl⟩
  | succ n ih =>
      obtain ⟨hmatches, htrace⟩ := ih
      obtain ⟨hmatches', htrace'⟩ := h.matches_step (w := w) hmatches
      rw [Layout.pace, Mmix.run_add, Tree.run]
      exact ⟨hmatches', by rw [htrace, htrace']⟩

end Select.Translation

/-- The code of a routine runs like the tree code of a procedure. It consists of one part
for each statement. Whenever tree code has taken `n` steps, the code has run through the
parts of the statements on the way; it is where the part of the next statement begins, the
temporaries of the procedure and memory agree, and the same jumps were taken. -/
def Routine.Simulates {E : Type} (w : Mmix.World E) (r : Routine) (p : Procedure) : Prop :=
  ∃ parts : List (List Instr), r.instrs = parts.flatten ∧ parts.length = p.body.length ∧
    ∀ (s : Tree.State) (m : Mmix.State E), p.Matches parts s m → ∀ n,
      let reached := Mmix.run w r.instrs m (Layout.pace w.address p.body parts s n)
      let next := Tree.run w.address p.body s n
      p.Matches parts next.1 reached.1 ∧ reached.2 = next.2

/-- Both machines can be started in corresponding states. -/
theorem Procedure.matches_start {E : Type} (p : Procedure) (parts : List (List Instr))
    (temps : Temp → Word) (memory : Memory) (rest : E) :
    p.Matches parts ⟨.line 0, temps, memory⟩
      ⟨.line 0, temps, ⟨fun _ => temps p.frame.fp, 0, memory, rest⟩⟩ where
  place := rfl
  temps := by
    intro t _
    rw [Mmix.Core.get]
    split
    · next ht => rw [ht]
    · rfl
  memory := rfl

/-- **Selection preserves meaning.** In a program without calls, in which the second label of each
branch is set right behind it, every routine that is selected runs like its procedure. -/
theorem Program.select_preserves_runs {E : Type} (w : Mmix.World E) {ps : List Procedure}
    {program : Program} (hselect : (select ps).outcome = .ok program)
    (hcalls : ∀ p ∈ ps, p.callFree = true) (hlabels : ∀ p ∈ ps, ∀ l ∈ p.labels, l.Plain)
    (hfalls : ∀ p ∈ ps, p.FallsThrough) :
    List.Forall₂ (fun p r => r.Simulates w p) ps program.routines := by
  obtain ⟨first, htemps, -, hyields⟩ := yields_of_select hselect
  refine List.forall₂_iff_get.mpr ⟨hyields.length_eq, fun index hps hroutines => ?_⟩
  obtain ⟨supply, rest, is, hfirst, -, his, hr⟩ :=
    (List.forall₂_iff_get.mp hyields).2 index hps hroutines
  have hp := List.get_mem ps ⟨index, hps⟩
  generalize ps.get ⟨index, hps⟩ = p at hp his hr ⊢
  obtain ⟨parts, rfl, hparts⟩ := Select.parts_of_stmts
    (fun st hst => Procedure.plain_of_mem_body (hlabels p hp) hst)
    (fun st hst u hu => Procedure.mem_temps_of_mem_body hst hu)
    (fun t ht => Nat.lt_of_lt_of_le (htemps p hp t ht) hfirst) his
  have htranslation : Select.Translation p parts :=
    ⟨hlabels p hp, hcalls p hp, hfalls p hp, hparts⟩
  rw [hr]
  exact ⟨parts, rfl, hparts.length_eq.symm, fun s m hm n => htranslation.matches_run hm n⟩

/-- Count down to zero, and keep each remainder by six in the frame. -/
def Procedure.countdown : Procedure where
  frame := ⟨⟨"count"⟩, 0, 16, 0, 0, ⟨0⟩, ⟨1⟩⟩
  entry := ⟨"enter"⟩
  exit := ⟨"exit"⟩
  body := [
    .label ⟨"again"⟩,
    .move (.temp ⟨2⟩) (.binary .sub (.temp ⟨2⟩) (.const 1)),
    .move (.mem (.binary .add (.temp ⟨0⟩) (.const (-16))))
      (.binary .mod (.temp ⟨2⟩) (.const 6)),
    .branch (.binary .gt (.temp ⟨2⟩) (.const 0)) ⟨"again"⟩ ⟨"done"⟩,
    .label ⟨"done"⟩,
    .move (.temp ⟨1⟩) (.mem (.binary .sub (.temp ⟨0⟩) (.const 16))),
    .jump ⟨"exit"⟩]

/-- The selected code of a countdown from three goes back twice before it leaves. -/
theorem Program.countdown_preserves_runs :
    ∃ program, (select [Procedure.countdown]).outcome = .ok program ∧
      List.Forall₂ (fun _ r => ∃ steps,
        (Mmix.run (⟨fun _ => 64, fun _ => id⟩ : Mmix.World Unit) r.instrs
          ⟨.line 0, fun _ => 3, fun _ => 3, 0, fun _ => 0, ()⟩ steps).2 =
            [⟨"again"⟩, ⟨"again"⟩, ⟨"exit"⟩]) [Procedure.countdown] program.routines := by
  have hok : (select [Procedure.countdown]).outcome.isOk = true := by decide +kernel
  have hfalls : Procedure.countdown.FallsThrough := by
    intro index cond pos neg h
    rcases index with _ | _ | _ | _ | _ | _ | _ | index <;> simp_all [Procedure.countdown]
  have htree : (Tree.run (fun _ => 64) Procedure.countdown.body
      ⟨.line 0, fun _ => 3, fun _ => 0⟩ 15).2 = [⟨"again"⟩, ⟨"again"⟩, ⟨"exit"⟩] := by
    decide +kernel
  cases hselect : (select [Procedure.countdown]).outcome with
  | error e => rw [hselect] at hok; cases hok
  | ok program =>
      have hruns := select_preserves_runs (⟨fun _ => 64, fun _ => id⟩ : Mmix.World Unit) hselect
        (List.forall_mem_singleton.mpr (by decide)) (List.forall_mem_singleton.mpr (by decide))
        (List.forall_mem_singleton.mpr hfalls)
      obtain ⟨r, rest, ⟨parts, -, -, hsimulates⟩, hrest, hroutines⟩ :=
        List.forall₂_cons_left_iff.mp hruns
      cases hrest
      have hstart := Procedure.countdown.matches_start parts (fun _ => 3) (fun _ => 0) ()
      exact ⟨program, rfl, hroutines ▸ .cons ⟨_, (hsimulates _ _ hstart 15).2.trans htree⟩ .nil⟩

end MmixCodegen
