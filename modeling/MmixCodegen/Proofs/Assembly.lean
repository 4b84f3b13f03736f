import MmixCodegen.Proofs.Allocator.Round
import MmixCodegen.Proofs.Binding
import Mathlib.Data.List.Forall2

/-!
# `MmixCodegen.Proofs.Assembly`: allocation keeps what a program does

An allocation that succeeds ends with a colouring that fits every routine of its
last round (`Program.fits_of_settle`), and the code that it gives is the code of
that round with registers for temporaries (`Coloring.effects_of_assemble`). So each
routine of the result follows a routine of the last round (`Coloring.Fits.follows`),
in the sense of `Follows`: the two runs carry out the same operations on the same
values, and at each point the registers of what is live hold its values.
-/

set_option autoImplicit false

namespace MmixCodegen

/-! ### Outcomes of sequences -/

section Sequences

variable {α β ε : Type}

/-- A sequence of two succeeds just if both do, one after the other. -/
theorem bind_eq_ok {x : Except ε α} {f : α → Except ε β} {b : β} :
    x.bind f = .ok b ↔ ∃ a, x = .ok a ∧ f a = .ok b := by
  cases x with
  | error e => simp [Except.bind]
  | ok a => simp [Except.bind]

/-- If all calls along a list succeed, the results stand in its order. -/
theorem forall₂_of_mapM_eq_ok {f : α → Except ε β} {as : List α} {bs : List β}
    (h : as.mapM f = .ok bs) : List.Forall₂ (fun a b => f a = .ok b) as bs := by
  induction as generalizing bs with
  | nil =>
      cases h
      exact .nil
  | cons a as ih =>
      rw [List.mapM_cons] at h
      obtain ⟨b, hb, h⟩ := bind_eq_ok.mp h
      obtain ⟨bs', hbs, h⟩ := bind_eq_ok.mp h
      cases h
      exact .cons hb (ih hbs)

/-- A member of one of two related lists is related to a member of the other one. -/
theorem exists_mem_of_forall₂ {R : α → β → Prop} {as : List α} {bs : List β}
    (h : List.Forall₂ R as bs) {a : α} (ha : a ∈ as) : ∃ b ∈ bs, R a b := by
  induction h with
  | nil => cases ha
  | cons hab _ ih =>
      rcases List.mem_cons.mp ha with rfl | ha
      · exact ⟨_, List.mem_cons_self, hab⟩
      · obtain ⟨b, hb, hrel⟩ := ih ha
        exact ⟨b, List.mem_cons_of_mem _ hb, hrel⟩

/-- Events do not change the outcome of calls along a list. -/
theorem Logged.outcome_mapM (f : α → Logged β) (as : List α) :
    (as.mapM f).outcome = as.mapM fun a => (f a).outcome := by
  induction as with
  | nil => rfl
  | cons a as ih =>
      rw [List.mapM_cons, List.mapM_cons, Logged.outcome_bind]
      simp only [Logged.outcome_bind, ih]
      rfl

end Sequences

/-! ### Binding -/

namespace Coloring

variable {c : Coloring} {i : Instr} {window : Register}

/-- Operands are bound to their own registers. -/
theorem eq_map_register {ts : List Temp} {rs : List Register}
    (h : ts.mapM (i.registerOf fun t => c.colors[t]?) = .ok rs) : rs = ts.map c.register := by
  have hall := forall₂_of_mapM_eq_ok h
  clear h
  induction hall with
  | nil => rfl
  | cons hr _ ih =>
      rw [List.map_cons, ← ih]
      unfold Instr.registerOf at hr
      split at hr
      · rename_i hcolor
        cases hr
        dsimp only at hcolor
        rw [register, hcolor]
        rfl
      · split at hr <;> cases hr

/-- A bound instruction does what the instruction over temporaries does. -/
theorem effect_of_bind {b : BoundInstr} (h : i.bind window (fun t => c.colors[t]?) = .ok b) :
    b.effect i = i.effect.map c.register := by
  unfold Instr.bind at h
  cases hkind : i.kind with
  | label l =>
      rw [hkind] at h
      cases h
      simp [BoundInstr.effect, Instr.effect, hkind, Effect.map]
  | oper template uses defs jumps =>
      rw [hkind] at h
      obtain ⟨us, hus, h⟩ := bind_eq_ok.mp h
      obtain ⟨ds, hds, h⟩ := bind_eq_ok.mp h
      obtain ⟨text, -, h⟩ := bind_eq_ok.mp h
      cases h
      rw [eq_map_register hus, eq_map_register hds]
      simp [BoundInstr.effect, Instr.effect, Instr.uses, Instr.defs, Instr.jumps, Instr.template,
        hkind, Effect.map]
  | move template dst src =>
      rw [hkind] at h
      obtain ⟨us, hus, h⟩ := bind_eq_ok.mp h
      obtain ⟨ds, hds, h⟩ := bind_eq_ok.mp h
      obtain ⟨text, -, h⟩ := bind_eq_ok.mp h
      cases h
      rw [eq_map_register hus, eq_map_register hds]
      simp [BoundInstr.effect, Instr.effect, Instr.uses, Instr.defs, hkind, Effect.map]

/-- Bound instructions have the effects of the instructions that they were
made from, over registers. -/
theorem zipWith_effect {is : List Instr} {bs : List BoundInstr}
    (h : List.Forall₂ (fun i b => i.bind window (fun t => c.colors[t]?) = .ok b) is bs) :
    is.zipWith (fun origin b => b.effect origin) bs
      = (is.map Instr.effect).map (Effect.map c.register) := by
  induction h with
  | nil => rfl
  | cons hb _ ih =>
      rw [List.zipWith_cons_cons, List.map_cons, List.map_cons, ih, effect_of_bind hb]

/-- An assembled routine keeps its code over temporaries and has the code over
registers that the colouring gives. -/
theorem effects_of_assemble {r : Routine} {s : AssemblyRoutine}
    (h : (c.assemble window r).outcome = .ok s) :
    s.source = c.dropRedundant r ∧ s.resultRegister = c.colors[r.frame.rv]? ∧
      s.effects = c.effects r := by
  unfold assemble at h
  simp only [Logged.outcome_bind, Logged.outcome_ofExcept, Logged.outcome_pure] at h
  obtain ⟨-, -, h⟩ := bind_eq_ok.mp h
  obtain ⟨instrs, hbind, h⟩ := bind_eq_ok.mp h
  cases h
  exact ⟨rfl, rfl, zipWith_effect (forall₂_of_mapM_eq_ok hbind)⟩

/-- A round that spills nothing fits the routines that it coloured, provided that
their live sets are up to date. -/
theorem fits_of_spilled_isEmpty {registers : Nat} {shielded : TempSet} {rs : List Routine}
    {r : Routine} (hpos : registers ≠ 0) (hle : registers ≤ 256)
    (hc : (Coloring.ofRoutines registers shielded rs).outcome = .ok c)
    (hspilled : c.spilled.isEmpty = true) (hr : r ∈ rs) (hanalyzed : r.Analyzed) : c.Fits r := by
  rw [Allocator.ofRoutines_eq registers shielded rs hpos] at hc
  obtain rfl := Except.ok.inj hc
  -- Nothing is spilled, so whatever is mentioned has a register.
  have hcolored : ∀ t, Mentioned rs t →
      (Allocator.finalColoring registers shielded rs).colors[t]?
        = some ((Allocator.finalColoring registers shielded rs).register t) := by
    intro t ht
    have hmem : t ∈ (Allocator.finalColoring registers shielded rs).colors := by
      rw [Allocator.mem_colors_finalColoring registers shielded rs hle,
        Std.ExtTreeSet.isEmpty_iff.mp hspilled]
      exact ⟨ht, Std.ExtTreeSet.not_mem_empty⟩
    rw [register, Std.ExtTreeMap.getElem?_eq_some_getElem hmem]
    rfl
  refine ⟨hanalyzed, fun i hi t ht => hcolored t ⟨r, hr, i, hi, ht⟩,
    fun i hi u v hne hapart heq => ?_⟩
  have hmentioned : Mentioned rs u ∧ Mentioned rs v := by
    have htemps := hapart.mem_temps
    exact ⟨⟨r, hr, i, hi, htemps.1⟩, ⟨r, hr, i, hi, htemps.2⟩⟩
  refine Allocator.finalColoring_apart registers shielded rs hne ⟨r, hr, i, hi, hapart⟩
    (hcolored u hmentioned.1) ?_
  rw [heq]
  exact hcolored v hmentioned.2

end Coloring

/-! ### Allocation -/

namespace Target

/-- A valid target has a register, and no more than can be named. -/
theorem registers_of_validate {target : Target} (h : target.validate = .ok ()) :
    target.registers ≠ 0 ∧ target.registers ≤ Failure.maxRegisters := by
  unfold validate at h
  split at h
  · cases h
  · split at h
    · cases h
    · omega

end Target

namespace Program

variable {target : Target} {settled : Settled}

/-- The routines of an analyzed program are analyzed. -/
theorem analyzed_of_mem_analyze {p : Program} {r : Routine} (hr : r ∈ p.analyze.1.routines) :
    r.Analyzed := by
  unfold analyze at hr
  simp only [List.map_map, List.mem_map] at hr
  obtain ⟨r', -, rfl⟩ := hr
  exact r'.analyzed_analyze

/-- The last round of an allocation coloured an analyzed program and spilled nothing. -/
theorem last_round_of_settleWithin {budget rounds spilledBefore : Nat} {shielded : TempSet}
    {p : Program}
    (h : (settleWithin target budget rounds spilledBefore shielded p).outcome = .ok settled) :
    ∃ (q : Program) (shielded : TempSet), settled.program = q.analyze.1 ∧
      (Coloring.ofRoutines target.registers shielded settled.program.routines).outcome
        = .ok settled.coloring ∧
      settled.coloring.spilled.isEmpty = true ∧
      settled.stats.coalescedMoves = settled.coloring.coalescedMoves := by
  induction budget generalizing rounds spilledBefore shielded p with
  | zero => cases h
  | succ budget ih =>
      unfold settleWithin at h
      simp only [Logged.outcome_bind] at h
      obtain ⟨-, -, h⟩ := bind_eq_ok.mp h
      obtain ⟨coloring, hcoloring, h⟩ := bind_eq_ok.mp h
      split at h
      · rename_i hempty
        simp only [Logged.outcome_bind, Logged.outcome_pure] at h
        obtain ⟨-, -, h⟩ := bind_eq_ok.mp h
        cases h
        exact ⟨p, shielded, rfl, hcoloring, hempty, rfl⟩
      · split at h
        · simp only [Logged.outcome_bind] at h
          obtain ⟨-, -, h⟩ := bind_eq_ok.mp h
          cases h
        · simp only [Logged.outcome_bind] at h
          -- Something was spilled, and another round follows.
          obtain ⟨next, -, h⟩ := bind_eq_ok.mp h
          obtain ⟨-, -, h⟩ := bind_eq_ok.mp h
          exact ih h

/-- The colouring that an allocation settles with fits all routines of its last round. -/
theorem fits_of_settle {p : Program} (hvalid : target.validate = .ok ())
    (h : (p.settle target).outcome = .ok settled) {r : Routine}
    (hr : r ∈ settled.program.routines) : settled.coloring.Fits r := by
  obtain ⟨q, shielded, hprogram, hcoloring, hempty, -⟩ := last_round_of_settleWithin h
  obtain ⟨hpos, hle⟩ := Target.registers_of_validate hvalid
  have hle : target.registers ≤ 256 := Nat.le_trans hle (by decide)
  refine Coloring.fits_of_spilled_isEmpty hpos hle hcoloring hempty hr ?_
  rw [hprogram] at hr
  exact analyzed_of_mem_analyze hr

/-- An allocation that succeeds has settled, and consists of the assembled routines
of the last round. -/
theorem assembled_of_allocate {p : Program} {asm : Assembly}
    (h : (p.allocate target).outcome = .ok asm) :
    target.validate = .ok () ∧ ∃ settled, (p.settle target).outcome = .ok settled ∧
      asm.colors = settled.coloring.colors ∧
      List.Forall₂ (fun r s => (settled.coloring.assemble target.callWindow r).outcome = .ok s)
        settled.program.routines asm.routines := by
  unfold allocate at h
  simp only [Logged.outcome_bind, Logged.outcome_ofExcept, Logged.outcome_mapM,
    Logged.outcome_pure] at h
  obtain ⟨⟨⟩, hvalid, h⟩ := bind_eq_ok.mp h
  obtain ⟨settled, hsettled, h⟩ := bind_eq_ok.mp h
  obtain ⟨routines, hroutines, h⟩ := bind_eq_ok.mp h
  cases h
  exact ⟨hvalid, settled, hsettled, rfl, forall₂_of_mapM_eq_ok hroutines⟩

/-- An allocation reports the numbers that it settled with. -/
theorem stats_of_allocate {p : Program} {asm : Assembly}
    (h : (p.allocate target).outcome = .ok asm)
    (hsettled : (p.settle target).outcome = .ok settled) :
    asm.stats = settled.stats := by
  unfold allocate at h
  simp only [Logged.outcome_bind, Logged.outcome_pure] at h
  obtain ⟨-, -, h⟩ := bind_eq_ok.mp h
  obtain ⟨settled', hsettled', h⟩ := bind_eq_ok.mp h
  obtain ⟨routines, -, h⟩ := bind_eq_ok.mp h
  cases h
  cases hsettled.symm.trans hsettled'
  rfl

end Program

/-! ### Runs of the result -/

section Runs

open Machine

variable {V H : Type}

/-- The run of an assembled routine from `start'` follows the run of a routine over
temporaries from `start`. The two are compared after `n` steps over temporaries,
which are `c.pace r m start n` steps over registers: one for each step that is not
a dropped copy. -/
structure Follows (c : Coloring) (r : Routine) (s : AssemblyRoutine) (m : Meaning V H)
    (start : State Temp V H) (start' : State Register V H) : Prop where
  /-- Every state over registers is compared with some state over temporaries. -/
  paced : ∀ k, ∃ n, c.pace r m start n = k
  /-- The same operations were carried out: they read the same values in the same
  hidden states and took the same jumps. -/
  occurrences : ∀ n, (run m s.effects start' (c.pace r m start n)).2 = (run m r.effects start n).2
  hidden : ∀ n, (run m s.effects start' (c.pace r m start n)).1.hidden =
    (run m r.effects start n).1.hidden
  place : ∀ n, (run m s.effects start' (c.pace r m start n)).1.place =
    c.place r (run m r.effects start n).1.place
  /-- Whatever is live has a register, and the register holds its value. -/
  live : ∀ n, ∀ t ∈ r.liveAt (run m r.effects start n).1.place, ∃ reg, c.colors[t]? = some reg ∧
    (run m s.effects start' (c.pace r m start n)).1.store reg = (run m r.effects start n).1.store t
  /-- After a jump to the exit label the register of the return value holds it. -/
  result : ∀ n, (run m r.effects start n).1.place = .left r.exit → r.definesResult = true →
    ∃ reg, s.resultRegister = some reg ∧
      (run m s.effects start' (c.pace r m start n)).1.store reg =
        (run m r.effects start n).1.store r.frame.rv

variable {c : Coloring} {r : Routine} {s : AssemblyRoutine} {window : Register} {m : Meaning V H}
  {temps : Temp → V} {regs : Register → V} {hidden : H}

/-- A routine that is assembled with a colouring that fits follows the routine that
it was made from. -/
theorem Coloring.Fits.follows (hfits : c.Fits r) (hs : (c.assemble window r).outcome = .ok s)
    (hregs : ∀ t ∈ r.liveBefore 0, ∀ reg, c.colors[t]? = some reg → regs reg = temps t) :
    Follows c r s m ⟨.line 0, temps, hidden⟩ ⟨.line 0, regs, hidden⟩ := by
  obtain ⟨-, hresult, heffects⟩ := Coloring.effects_of_assemble hs
  have hagrees : c.Agrees r ⟨.line 0, temps, hidden⟩ ⟨.line 0, regs, hidden⟩ :=
    ⟨rfl, rfl, fun t ht => hregs t ht _ (hfits.colors_of_mem_liveAt ht)⟩
  have hruns := hfits.matches_run m hagrees
  refine ⟨c.exists_pace_eq r m _, fun n => ?_, fun n => ?_, fun n => ?_, fun n t ht => ?_,
    fun n hplace hdefines => ?_⟩
  · rw [heffects]
    exact (hruns n).occurrences
  · rw [heffects]
    exact (hruns n).agrees.hidden
  · rw [heffects]
    exact (hruns n).agrees.place
  · rw [heffects]
    exact ⟨c.register t, hfits.colors_of_mem_liveAt ht, (hruns n).agrees.store t ht⟩
  · -- At the exit the return value is live.
    have hrv : r.frame.rv ∈ r.liveAt (run m r.effects ⟨.line 0, temps, hidden⟩ n).1.place := by
      rw [hplace]
      exact Routine.mem_liveAt_left.mpr ⟨⟨rfl, hdefines⟩, rfl⟩
    rw [heffects, hresult]
    exact ⟨c.register r.frame.rv, hfits.colors_of_mem_liveAt hrv, (hruns n).agrees.store _ hrv⟩

end Runs

namespace Program

/-- What an allocation gives does what the program does. Its routines are made from
the code of the last round. Each of them follows that code from any registers that
agree with what is live at its start, whatever its operations mean. -/
theorem allocate_preserves_runs (target : Target) (p : Program) (asm : Assembly)
    (h : (p.allocate target).outcome = .ok asm) :
    ∃ settled, (p.settle target).outcome = .ok settled ∧ asm.colors = settled.coloring.colors ∧
      List.Forall₂ (fun r s =>
        s.source = settled.coloring.dropRedundant r ∧
        ∀ (V H : Type) (m : Meaning V H) (temps : Temp → V) (regs : Register → V) (hidden : H),
          (∀ t ∈ r.liveBefore 0, ∀ reg, asm.colors[t]? = some reg → regs reg = temps t) →
          Follows settled.coloring r s m ⟨.line 0, temps, hidden⟩ ⟨.line 0, regs, hidden⟩)
        settled.program.routines asm.routines := by
  obtain ⟨hvalid, settled, hsettled, hcolors, hroutines⟩ := assembled_of_allocate h
  have hfits : ∀ r ∈ settled.program.routines, settled.coloring.Fits r :=
    fun r hr => fits_of_settle hvalid hsettled hr
  refine ⟨settled, hsettled, hcolors, ?_⟩
  rw [hcolors]
  refine ((List.forall₂_and_left _ _).mpr ⟨hfits, hroutines⟩).imp fun r s hrs => ?_
  obtain ⟨hr, hs⟩ := hrs
  exact ⟨(Coloring.effects_of_assemble hs).1, fun V H m temps regs hidden => hr.follows hs⟩

/-- A loop that sums up some numbers and adds one more to the sum. -/
def summing : Program where
  routines := [{
    frame := ⟨⟨"f"⟩, 0, 0, 0, 0, ⟨0⟩, ⟨1⟩⟩
    entry := ⟨"f"⟩
    exit := ⟨"f.exit"⟩
    instrs :=
      [.ofKind (.oper "LDO `d0,$253,0" [] [⟨2⟩] []),
        .ofKind (.oper "SETL `d0,9" [] [⟨3⟩] []),
        .ofKind (.oper "SETL `d0,0" [] [⟨4⟩] []),
        .ofKind (.label ⟨"loop"⟩),
        .copy ⟨5⟩ ⟨4⟩,
        .ofKind (.oper "ADD `d0,`s0,`s1" [⟨5⟩, ⟨3⟩] [⟨4⟩] []),
        .ofKind (.oper "SUB `d0,`s0,1" [⟨3⟩] [⟨3⟩] []),
        .ofKind (.oper "BNZ `s0,loop" [⟨3⟩] [] [⟨"loop"⟩, ⟨"done"⟩]),
        .ofKind (.label ⟨"done"⟩),
        .ofKind (.oper "ADD `d0,`s0,`s1" [⟨4⟩, ⟨2⟩] [⟨1⟩] []),
        .ofKind (.oper "JMP f.exit" [] [] [⟨"f.exit"⟩])]
    slots := .empty }]
  supply := ⟨6⟩

/-- With two registers one temporary is spilled, and a copy is dropped. -/
theorem summing_preserves_runs :
    ∃ asm, (summing.allocate ⟨2, 32⟩).outcome = .ok asm ∧ asm.stats = ⟨2, 1, 1⟩ ∧
      ∃ settled, (summing.settle ⟨2, 32⟩).outcome = .ok settled ∧
        List.Forall₂ (fun r s => ∀ m : Meaning Nat Unit,
          Follows settled.coloring r s m ⟨.line 0, fun _ => 0, ()⟩ ⟨.line 0, fun _ => 0, ()⟩)
          settled.program.routines asm.routines := by
  have hstats : (summing.allocate ⟨2, 32⟩).outcome.toOption.map Assembly.stats
      = some ⟨2, 1, 1⟩ := by
    decide +kernel
  cases h : (summing.allocate ⟨2, 32⟩).outcome with
  | error e =>
      rw [h] at hstats
      cases hstats
  | ok asm =>
      rw [h] at hstats
      obtain ⟨settled, hsettled, -, hall⟩ := allocate_preserves_runs ⟨2, 32⟩ summing asm h
      refine ⟨asm, rfl, Option.some.inj hstats, settled, hsettled, hall.imp fun r s hrs m => ?_⟩
      exact hrs.2 Nat Unit m _ _ () fun t ht reg hreg => rfl

end Program

end MmixCodegen
