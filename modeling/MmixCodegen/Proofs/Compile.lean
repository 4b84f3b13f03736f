import MmixCodegen.Proofs.Printable
import MmixCodegen.Proofs.Select.Failure
import MmixCodegen.Proofs.Spill.Round

/-!
# `MmixCodegen.Proofs.Compile`: compiled code can be printed

All code that occurs on the way from tree code to assembly is `Program.Printable`: selected
code is (`printable_of_select`), an analysis changes live sets alone, and a round of spilling
makes operations and gives other operands to the instructions that it finds
(`Printable.round`). This does not depend on which temporaries are spilled, nor on how many
registers there are.

So allocation fails only if the rounds are used up, or if spilling runs out of temporaries or
of room for slots (`settleWithin_cases`), and what an allocation ends with can be bound
(`Printable.allocate_eq_ok`). `compile_resolves` puts this together.
-/

set_option autoImplicit false

namespace MmixCodegen

open Spill

/-! ### Selected code -/

namespace Instr

/-- A selected instruction is printable, if the label that it sets is plain. -/
theorem Selected.printable {i : Instr} (h : i.Selected)
    (hlabel : ∀ l, i.label? = some l → l.Plain) :
    i.Printable := by
  cases h with
  | sequential h =>
      cases h with
      | oper proper sequential => exact Operation.printable_instr proper.toPlain
      | copy dst src => exact printable_copy dst src
  | jump proper defs uses => exact Operation.printable_instr proper.toPlain
  | label l => exact printable_label (hlabel l rfl)

/-- Other operands leave an instruction printable. -/
theorem Printable.rename {i : Instr} (h : i.Printable) (ρ : Temp → Temp) :
    (i.rename ρ).Printable where
  label := by
    rw [label?_rename]
    exact h.label
  fillable := by
    rw [template_rename, uses_rename, defs_rename, List.length_map, List.length_map]
    exact h.fillable

end Instr

namespace Select

variable {fp : Temp} {s rest : Supply} {is : List Instr}

/-- The code of a statement with plain labels is printable. -/
theorem printable_stmt {st : Stmt} (hlabels : ∀ l ∈ st.labels, l.Plain)
    (htemps : ∀ u ∈ st.temps, u.number < s.next) (h : stmt fp st s = .ok is rest) :
    ∀ i ∈ is, i.Printable := by
  intro i hi
  obtain ⟨hselected, hlabel⟩ := (emitsAll_stmt hlabels htemps h).all i hi
  refine hselected.printable fun l hl => hlabels l ?_
  rw [hlabel] at hl
  cases st <;> cases hl
  exact List.mem_singleton_self l

/-- The code of statements with plain labels is printable. -/
theorem printable_stmts {body : List Stmt} (hlabels : ∀ st ∈ body, ∀ l ∈ st.labels, l.Plain)
    (htemps : ∀ st ∈ body, ∀ u ∈ st.temps, u.number < s.next) (h : stmts fp body s = .ok is rest) :
    ∀ i ∈ is, i.Printable := by
  induction body generalizing s is with
  | nil =>
      obtain ⟨rfl, rfl⟩ := pure_eq_ok.mp h
      exact nofun
  | cons st body ih =>
      rw [List.forall_mem_cons] at hlabels htemps
      obtain ⟨part, mid, others, hpart, hothers, rfl⟩ := stmts_cons_eq_ok.mp h
      have hle := (emitsAll_stmt hlabels.1 htemps.1 hpart).le
      exact List.forall_mem_append.mpr ⟨printable_stmt hlabels.1 htemps.1 hpart, ih hlabels.2
        (fun st hst u hu => Nat.lt_of_lt_of_le (htemps.2 st hst u hu) hle) hothers⟩

end Select

/-! ### Spilled code -/

namespace Spill

variable {spilled : TempSet} {r : Routine} {is : List Instr} {cs : List Cell} {st st' : State}

/-- The instructions that load a slot or store to it are printable. -/
theorem Access.printable_of_mem {a : Access} {i : Instr} (hi : i ∈ a.load ∨ i ∈ a.store) :
    i.Printable := by
  obtain ⟨o, ho, rfl⟩ := mem_code hi
  refine Operation.printable_instr ?_
  rcases mem_operations ho with ho | rfl | rfl
  · rcases mem_locate ho with hpacks | rfl
    · exact hpacks.proper.toPlain
    · exact Operation.proper_belowFramePointer.toPlain
  · exact Operation.plain_load 0
  · exact Operation.plain_store 0

/-- With a printable instruction in the middle, all of a cell is printable. -/
theorem Cell.printable_of_mem {c : Cell} (hbody : c.body.Printable) {i : Instr}
    (hi : i ∈ c.toList) :
    i.Printable := by
  rw [toList, List.mem_append, List.mem_cons, List.mem_flatMap, List.mem_flatMap] at hi
  rcases hi with ⟨a, -, hi⟩ | rfl | ⟨a, -, hi⟩
  · exact Access.printable_of_mem (.inl hi)
  · exact hbody
  · exact Access.printable_of_mem (.inr hi)

/-- Spilling keeps printable code printable. -/
theorem Rendered.printable (h : Rendered spilled r is cs st st') (his : ∀ i ∈ is, i.Printable) :
    ∀ i ∈ cs.flatMap Cell.toList, i.Printable := by
  induction h with
  | nil st => exact nofun
  | @cons i is c cs st mid st' ρ hrenders _ _ ih =>
      rw [List.forall_mem_cons] at his
      rw [List.flatMap_cons, List.forall_mem_append]
      refine ⟨fun j hj => Cell.printable_of_mem ?_ hj, ih his.2⟩
      rw [hrenders.body]
      exact his.1.rename ρ

end Spill

namespace Program

/-- All instructions of the program are printable. -/
def Printable (p : Program) : Prop :=
  ∀ r ∈ p.routines, ∀ i ∈ r.instrs, i.Printable

variable {target : Target} {p : Program} {ps : List Procedure} {shielded : TempSet}

/-- Selected programs with plain labels are printable. -/
theorem printable_of_select (hlabels : ∀ q ∈ ps, ∀ l ∈ q.labels, l.Plain)
    (h : (select ps).outcome = .ok p) : p.Printable := by
  obtain ⟨first, htemps, -, hyields⟩ := yields_of_select h
  intro r hr
  obtain ⟨q, hq, s, rest, is, hs, -, hprocedure, rfl⟩ := exists_mem_of_forall₂ hyields.flip hr
  exact Select.printable_stmts (fun st hst => Procedure.plain_of_mem_body (hlabels q hq) hst)
    (fun st hst u hu => Nat.lt_of_lt_of_le
      (htemps q hq u (Procedure.mem_temps_of_mem_body hst hu)) hs) hprocedure

/-- An analysis keeps programs printable, since it changes live sets only. -/
theorem Printable.analyze (h : p.Printable) : p.analyze.1.Printable := by
  intro r hr i hi
  rw [routines_analyze] at hr
  obtain ⟨s, hs, rfl⟩ := List.mem_map.mp hr
  -- An analysis keeps the kinds of instructions.
  have hkind : i.kind ∈ s.instrs.map Instr.kind := by
    rw [← s.map_kind_analyze]
    exact List.mem_map_of_mem hi
  obtain ⟨j, hj, hkind⟩ := List.mem_map.mp hkind
  exact (h s hs j hj).congr hkind.symm

/-- A round of spilling keeps programs printable. -/
theorem Printable.round {spilled shielded' : TempSet} {supply supply' : Supply}
    {rs rs' : List Routine} (hround : Round spilled supply shielded rs rs' supply' shielded')
    (h : ∀ r ∈ rs, ∀ i ∈ r.instrs, i.Printable) : ∀ r ∈ rs', ∀ i ∈ r.instrs, i.Printable := by
  induction hround with
  | nil => exact h
  | cons hrendered _ ih =>
      rw [List.forall_mem_cons] at h
      exact List.forall_mem_cons.mpr ⟨hrendered.printable h.1, ih h.2⟩

/-! ### Allocation -/

/-- One round of an allocation. None of the checks of a colouring fails. -/
theorem outcome_settleWithin (hpos : target.registers ≠ 0) (budget rounds spilledBefore : Nat)
    (shielded : TempSet) (p : Program) :
    (settleWithin target (budget + 1) rounds spilledBefore shielded p).outcome =
      let c := Allocator.finalColoring target.registers shielded p.analyze.1.routines
      if c.spilled.isEmpty then
        .ok ⟨p.analyze.1, c, ⟨rounds + 1, spilledBefore, c.coalescedMoves⟩⟩
      else if c.spilled.all shielded.contains then .error (.spillLimit rounds)
      else (p.analyze.1.spill c.spilled shielded).outcome.bind fun next =>
        (settleWithin target budget (rounds + 1) (spilledBefore + c.spilled.size) next.shielded
          next.program).outcome := by
  have hcolors := congrArg Logged.outcome
    (Allocator.ofRoutines_eq target.registers shielded p.analyze.1.routines hpos)
  rw [settleWithin]
  simp only [Logged.outcome_bind, hcolors]
  -- The log is dropped, so only the two tests and the next round are left.
  show Logged.outcome (ite _ _ _) = _
  split
  · rfl
  · split
    · rfl
    · rw [Logged.outcome_bind]
      rfl

/-- An allocation gives each temporary a register, or its rounds are used up, or spilling runs
out of temporaries or of room. -/
theorem Printable.settleWithin_cases (h : p.Printable) (hpos : target.registers ≠ 0)
    (budget rounds spilledBefore : Nat) (shielded : TempSet) :
    (∃ e, (settleWithin target budget rounds spilledBefore shielded p).outcome = .error e ∧
        (e.Exhausted ∨ ∃ n, e = .spillLimit n)) ∨
      ∃ settled,
        (settleWithin target budget rounds spilledBefore shielded p).outcome = .ok settled ∧
        settled.program.Printable := by
  induction budget generalizing rounds spilledBefore shielded p with
  | zero => exact .inl ⟨_, rfl, .inr ⟨_, rfl⟩⟩
  | succ budget ih =>
      rw [outcome_settleWithin hpos]
      dsimp only
      split
      · exact .inr ⟨_, rfl, h.analyze⟩
      · split
        · exact .inl ⟨_, rfl, .inr ⟨_, rfl⟩⟩
        · rcases p.analyze.1.spill_cases _ shielded with ⟨e, he, hexhausted⟩ | ⟨next, hnext, hround⟩
          · exact .inl ⟨e, by rw [he]; rfl, .inl hexhausted⟩
          · rw [hnext]
            exact ih (Printable.round hround h.analyze) _ _ _

/-- The program that an allocation settles with is printable. -/
theorem Printable.of_settle (h : p.Printable) (hpos : target.registers ≠ 0) {settled : Settled}
    (hsettled : (p.settle target).outcome = .ok settled) : settled.program.Printable := by
  rcases h.settleWithin_cases hpos (target.spillRounds + 1) 0 0 ∅ with
    ⟨e, he, -⟩ | ⟨settled', hsettled', hprintable⟩
  · cases hsettled.symm.trans he
  · cases hsettled.symm.trans hsettled'
    exact hprintable

/-- A round gives out only registers that may be allocated. -/
theorem lt_registers_of_ofRoutines {registers : Nat} {rs : List Routine} {c : Coloring}
    (hpos : registers ≠ 0) (h : (Coloring.ofRoutines registers shielded rs).outcome = .ok c)
    {t : Temp} {r : Register} (hr : c.colors[t]? = some r) : r.index.toNat < registers := by
  rw [Allocator.ofRoutines_eq registers shielded rs hpos] at h
  obtain rfl := Except.ok.inj h
  have hlt := (Allocator.finished_drained registers shielded rs).lt_registers hr
  rwa [Allocator.registers_drained] at hlt

/-- The code of the last round can be bound to the registers that the round gave out. -/
theorem Printable.bind_eq_ok {settled : Settled} (h : settled.program.Printable)
    (hvalid : target.validate = .ok ()) (hsettled : (p.settle target).outcome = .ok settled)
    {r : Routine} (hr : r ∈ settled.program.routines) {i : Instr} (hi : i ∈ r.instrs) :
    ∃ b, i.bind target.callWindow (fun t => settled.coloring.colors[t]?) = .ok b ∧
      b.Resolved target.registers := by
  obtain ⟨hpos, -⟩ := Target.registers_of_validate hvalid
  obtain ⟨q, shielded, -, hcoloring, -⟩ := last_round_of_settleWithin hsettled
  have hfits := fits_of_settle hvalid hsettled hr
  refine (h r hr i hi).bind_eq_ok _ fun t ht => ?_
  have hcolored := hfits.colored i hi t
    (List.mem_append_left _ (List.mem_append_left _ ht))
  exact ⟨_, hcolored, lt_registers_of_ofRoutines hpos hcoloring hcolored⟩

/-- What an allocation settles on can be assembled. -/
theorem Printable.allocate_eq_ok {settled : Settled} (h : settled.program.Printable)
    (hvalid : target.validate = .ok ()) (hsettled : (p.settle target).outcome = .ok settled) :
    ∃ asm, (p.allocate target).outcome = .ok asm ∧ asm.stats = settled.stats ∧
      ∀ s ∈ asm.routines, ∀ b ∈ s.instrs, b.Resolved target.registers := by
  obtain ⟨routines, hroutines, hresolved⟩ : ∃ routines,
      (settled.program.routines.mapM fun r =>
        (settled.coloring.assemble target.callWindow r).outcome) = .ok routines ∧
        ∀ s ∈ routines, ∀ b ∈ s.instrs, b.Resolved target.registers := by
    refine mapM_eq_ok fun r hr => ?_
    obtain ⟨instrs, hinstrs, hall⟩ : ∃ instrs,
        settled.coloring.bind target.callWindow (settled.coloring.dropRedundant r) = .ok instrs ∧
          ∀ b ∈ instrs, b.Resolved target.registers :=
      -- The instructions that are kept are some of the routine.
      mapM_eq_ok fun i hi => h.bind_eq_ok hvalid hsettled hr (List.mem_of_mem_filter hi)
    refine ⟨⟨settled.coloring.dropRedundant r, settled.coloring.colors[r.frame.rv]?, instrs⟩, ?_,
      hall⟩
    rw [Coloring.assemble]
    simp only [Logged.outcome_bind, Logged.outcome_ofExcept, hinstrs, Logged.outcome_pure]
    rfl
  refine ⟨⟨routines, settled.coloring.colors, settled.stats⟩, ?_, rfl, hresolved⟩
  rw [allocate]
  simp only [Logged.outcome_bind, Logged.outcome_ofExcept, Logged.outcome_mapM,
    Logged.outcome_pure, hvalid, hsettled]
  show Except.bind (settled.program.routines.mapM _) _ = _
  rw [hroutines]
  rfl

end Program

/-- The text of a routine whose instructions all have texts. -/
theorem AssemblyRoutine.render?_eq_some {s : AssemblyRoutine} {bound : Nat}
    (h : ∀ b ∈ s.instrs, b.Resolved bound) :
    ∃ text, s.render? = some text ∧ Template.mark ∉ text.toList := by
  obtain ⟨lines, hlines, hall⟩ : ∃ lines, s.instrs.mapM BoundInstr.line? = some lines ∧
      ∀ line ∈ lines, Template.mark ∉ line.toList := by
    generalize s.instrs = bs at h
    induction bs with
    | nil => exact ⟨[], rfl, nofun⟩
    | cons b bs ih =>
        rw [List.forall_mem_cons] at h
        obtain ⟨line, hline, hmark⟩ := h.1.line
        obtain ⟨lines, hlines, hall⟩ := ih h.2
        refine ⟨line :: lines, ?_, List.forall_mem_cons.mpr ⟨hmark, hall⟩⟩
        rw [List.mapM_cons, hline, hlines]
        rfl
  refine ⟨String.join lines, by rw [render?, hlines]; rfl, fun hmem => ?_⟩
  rw [String.toList_join, List.mem_flatMap] at hmem
  obtain ⟨line, hline, hmem⟩ := hmem
  exact hall line hline hmem

/-- A target that is not valid fails as a target. -/
theorem Target.category_of_validate {target : Target} {e : Failure}
    (h : target.validate = .error e) : e.category = .target := by
  unfold validate at h
  split at h
  · cases h
    rfl
  · split at h
    · cases h
      rfl
    · split at h <;> cases h
      rfl

/-- The window of calls begins behind the registers that may be allocated. -/
theorem Target.index_callWindow {target : Target} (h : target.validate = .ok ()) :
    target.callWindow.index.toNat = target.registers := by
  obtain ⟨-, hmax⟩ := Target.registers_of_validate h
  have hmax : target.registers ≤ 250 := hmax
  show (UInt8.ofNat target.registers).toNat = _
  rw [UInt8.toNat_ofNat']
  omega

namespace Program

variable {target : Target} {ps : List Procedure}

/-- For a valid target, to compile is to select and then to allocate. -/
theorem outcome_compile (hvalid : target.validate = .ok ()) :
    (compile target ps).outcome =
      (select ps).outcome.bind fun p => (p.allocate target).outcome := by
  rw [compile, Logged.outcome_bind, Logged.outcome_ofExcept, hvalid]
  show Logged.outcome (select ps >>= _) = _
  rw [Logged.outcome_bind]

/-- If the rounds do not settle, their failure is that of the allocation. -/
theorem outcome_allocate_of_error {p : Program} (hvalid : target.validate = .ok ()) {e : Failure}
    (h : (p.settle target).outcome = .error e) : (p.allocate target).outcome = .error e := by
  rw [allocate]
  simp only [Logged.outcome_bind, Logged.outcome_ofExcept, hvalid, h]
  rfl

/-- Compiling fails for one of four reasons, or gives code that can be printed. -/
theorem compile_cases (target : Target) (hlabels : ∀ p ∈ ps, ∀ l ∈ p.labels, l.Plain) :
    (∃ e, (compile target ps).outcome = .error e ∧
      (e.category = .target ∨ e.Rejects ∨ e.Exhausted ∨ ∃ n, e = .spillLimit n)) ∨
    ∃ asm, (compile target ps).outcome = .ok asm ∧ target.validate = .ok () ∧
      ∀ s ∈ asm.routines, ∀ b ∈ s.instrs, b.Resolved target.registers := by
  cases hvalid : target.validate with
  | error e =>
      refine .inl ⟨e, ?_, .inl (Target.category_of_validate hvalid)⟩
      rw [compile, Logged.outcome_bind, Logged.outcome_ofExcept, hvalid]
      rfl
  | ok valid =>
      rw [outcome_compile hvalid]
      cases hselect : (select ps).outcome with
      | error e => exact .inl ⟨e, rfl, .inr (.inl (rejects_of_select hlabels hselect))⟩
      | ok p =>
          show (∃ e, (p.allocate target).outcome = .error e ∧ _) ∨
            ∃ asm, (p.allocate target).outcome = .ok asm ∧ _
          have hpos := (Target.registers_of_validate hvalid).1
          rcases (printable_of_select hlabels hselect).settleWithin_cases hpos
            (target.spillRounds + 1) 0 0 ∅ with ⟨e, he, hcause⟩ | ⟨settled, hsettled, hprintable⟩
          · exact .inl ⟨e, outcome_allocate_of_error hvalid he, .inr (.inr hcause)⟩
          · obtain ⟨asm, hasm, -, hresolved⟩ := hprintable.allocate_eq_ok hvalid hsettled
            exact .inr ⟨asm, hasm, rfl, hresolved⟩

/-- Compiling procedures whose labels hold no mark never fails internally: it fails if the
target makes no sense, if the tree code cannot be expressed, if the rounds of spilling are
used up, or for want of temporaries or room for slots. All instructions of the result have
texts, in which no mark is left, and all of their registers can be allocated, so that they
lie below the window of calls. -/
theorem compile_resolves (target : Target) (ps : List Procedure)
    (hlabels : ∀ p ∈ ps, ∀ l ∈ p.labels, l.Plain) :
    (∀ e, (compile target ps).outcome = .error e →
      e.category ≠ .internal ∧ e ≠ .unprintableInstr) ∧
    ∀ asm, (compile target ps).outcome = .ok asm → ∀ s ∈ asm.routines,
      (∃ text, s.render? = some text ∧ Template.mark ∉ text.toList) ∧
      ∀ b ∈ s.instrs, (∃ text, b.text? = some text ∧ Template.mark ∉ text.toList) ∧
        ∀ r ∈ b.registers, r.index.toNat < target.registers ∧
          r.index < target.callWindow.index := by
  rcases compile_cases target hlabels with
    ⟨e, he, hcause⟩ | ⟨asm, hasm, hvalid, hresolved⟩
  · rw [he]
    refine ⟨fun e' h => ?_, nofun⟩
    cases h
    -- None of the causes that are left is internal.
    rcases hcause with hcategory | (hcategory | rfl) | (rfl | rfl) | ⟨n, rfl⟩
    · exact ⟨by rw [hcategory]; decide, by rintro rfl; cases hcategory⟩
    · exact ⟨by rw [hcategory]; decide, by rintro rfl; cases hcategory⟩
    · exact ⟨nofun, nofun⟩
    · exact ⟨nofun, nofun⟩
    · exact ⟨nofun, nofun⟩
    · exact ⟨nofun, nofun⟩
  · rw [hasm]
    refine ⟨nofun, fun asm' h s hs => ?_⟩
    cases h
    refine ⟨AssemblyRoutine.render?_eq_some (hresolved s hs), fun b hb => ?_⟩
    obtain ⟨htext, hregisters⟩ := hresolved s hs b hb
    refine ⟨htext, fun r hr => ⟨hregisters r hr, ?_⟩⟩
    rw [UInt8.lt_iff_toNat_lt, Target.index_callWindow hvalid]
    exact hregisters r hr

/-- Add the product of what two calls return to a word of the frame. -/
def relay : Procedure where
  frame := ⟨⟨"relay"⟩, 0, 16, 0, 0, ⟨0⟩, ⟨1⟩⟩
  entry := ⟨"relay"⟩
  exit := ⟨"relay.exit"⟩
  body := [
    .label ⟨"relay"⟩,
    .move (.temp ⟨2⟩) (.mem (.binary .sub (.temp ⟨0⟩) (.const 8))),
    .move (.temp ⟨3⟩) (.call ⟨"g"⟩ [.temp ⟨2⟩, .const 6]),
    .move (.temp ⟨1⟩) (.binary .add (.temp ⟨2⟩) (.binary .mul (.temp ⟨3⟩) (.call ⟨"h"⟩ []))),
    .jump ⟨"relay.exit"⟩]

/-- With two registers one temporary is spilled, and the result names registers alone. -/
theorem relay_resolves :
    ∃ asm, (compile ⟨2, 32⟩ [relay]).outcome = .ok asm ∧ asm.stats = ⟨2, 1, 2⟩ ∧
      ∀ s ∈ asm.routines, (∃ text, s.render? = some text ∧ Template.mark ∉ text.toList) ∧
        ∀ b ∈ s.instrs, ∀ r ∈ b.registers, r.index.toNat < 2 := by
  have hstats : (compile ⟨2, 32⟩ [relay]).outcome.toOption.map Assembly.stats = some ⟨2, 1, 2⟩ := by
    decide +kernel
  have hresolves := compile_resolves ⟨2, 32⟩ [relay] (List.forall_mem_singleton.mpr (by decide))
  cases h : (compile ⟨2, 32⟩ [relay]).outcome with
  | error e =>
      rw [h] at hstats
      cases hstats
  | ok asm =>
      rw [h] at hstats
      refine ⟨asm, rfl, Option.some.inj hstats, fun s hs => ?_⟩
      obtain ⟨htext, hinstrs⟩ := hresolves.2 asm h s hs
      exact ⟨htext, fun b hb r hr => ((hinstrs b hb).2 r hr).1⟩

end Program

end MmixCodegen
