import MmixCodegen.Proofs.Descent
import MmixCodegen.Proofs.Liveness
import MmixCodegen.Proofs.Substitution

/-!
# `MmixCodegen.Proofs.Result`: the register of the return value

The registers of an assembly belong to the program as a whole, and routines may have the same
temporary for their return values. So a routine has a register for its return value just if that
is an operand in the last round of the allocation, in whatever routine.

`Program.result_register_holds_result` says when this is the case in terms of the selected code,
and that the register is of use. If a routine delivers its return value, then there is such a
register, and with it the assembled routine returns what the selected code returns. The chain of
code between the two has three parts. Rounds of spilling keep what is returned
(`Routine.Descends.keeps`), and so does binding to registers (`Follows.returns_iff`). Temporaries
that have a slot but are not live at the start may hold what the slot holds (`SlotTable.overlay`),
since no run depends on them (`Routine.Alike.returns_iff`).
-/

set_option autoImplicit false

namespace MmixCodegen

open Mmix (Hidden)

/-! ### One routine -/

/-- The return value of the code over registers is that of the code over temporaries. -/
theorem Follows.returns_iff {V H : Type} {c : Coloring} {r : Routine} {s : AssemblyRoutine}
    {m : Meaning V H} {start : Machine.State Temp V H} {start' : Machine.State Register V H}
    (h : Follows c r s m start start') (hdefines : r.definesResult = true) {reg : Register}
    (hreg : s.resultRegister = some reg) (v : V) :
    Machine.Returns m s.effects r.exit reg start' v ↔
      Machine.Returns m r.effects r.exit r.frame.rv start v := by
  have hresult : ∀ n, (Machine.run m r.effects start n).1.place = .left r.exit →
      (Machine.run m s.effects start' (c.pace r m start n)).1.store reg =
        (Machine.run m r.effects start n).1.store r.frame.rv := by
    intro n hplace
    obtain ⟨reg', hreg', hvalue⟩ := h.result n hplace hdefines
    cases hreg.symm.trans hreg'
    exact hvalue
  constructor
  · rintro ⟨k, hplace, rfl⟩
    obtain ⟨n, rfl⟩ := h.paced k
    -- The two codes are at a line together, so they leave together.
    have hleft : (Machine.run m r.effects start n).1.place = .left r.exit := by
      rw [h.place n] at hplace
      cases hline : (Machine.run m r.effects start n).1.place with
      | line index =>
          rw [hline] at hplace
          cases hplace
      | left l =>
          rw [hline] at hplace
          exact hplace
    exact ⟨n, hleft, (hresult n hleft).symm⟩
  · rintro ⟨n, hplace, rfl⟩
    refine ⟨c.pace r m start n, ?_, hresult n hplace⟩
    rw [h.place n, hplace]
    rfl

namespace SlotTable

variable {E : Type} {slots : SlotTable} {hidden : Hidden E} {temps : Temp → Word} {t : Temp}

/-- The values of temporaries, where those that have a slot hold what it holds. -/
def overlay (slots : SlotTable) (hidden : Hidden E) (temps : Temp → Word) (t : Temp) : Word :=
  (slots.offsets[t]?).elim (temps t) fun offset => hidden.memory.load (hidden.slotAddress offset)

/-- A temporary with a slot holds what the slot holds. -/
theorem overlay_of_slot {offset : Int} (h : slots.offsets[t]? = some offset) :
    slots.overlay hidden temps t = hidden.memory.load (hidden.slotAddress offset) := by
  rw [overlay, h]
  rfl

/-- A temporary without a slot keeps its value. -/
theorem overlay_of_notMem (h : t ∉ slots.offsets) : slots.overlay hidden temps t = temps t := by
  rw [overlay, Std.ExtTreeMap.getElem?_eq_none h]
  rfl

end SlotTable

/-- Registers and memory hold what is live at the start of `r`: in its slot if it has one,
and in its register if not. -/
structure Assembly.Enters {E : Type} (asm : Assembly) (r : Routine) (s : AssemblyRoutine)
    (temps : Temp → Word) (regs : Register → Word) (hidden : Hidden E) : Prop where
  slots : ∀ t ∈ (r.solution 0).before, ∀ offset, s.source.slots.offsets[t]? = some offset →
    hidden.memory.load (hidden.slotAddress offset) = temps t
  registers : ∀ t ∈ (r.solution 0).before, t ∉ s.source.slots.offsets →
    ∀ reg, asm.colors[t]? = some reg → regs reg = temps t

namespace Routine

variable {r r' : Routine}

/-- What is live in an analyzed routine is the solution of its equations. -/
theorem liveBefore_analyze (r : Routine) (index : Nat) :
    r.analyze.1.liveBefore index = (r.solution index).before := by
  have hlives : r.analyze.1.lives = (FlowGraph.ofRoutine r).settle.1 :=
    r.lives_withLives r.size_settle
  rw [liveBefore, hlives]
  rfl

variable {E : Type} {w : Mmix.World E} {temps : Temp → Word} {hidden : Hidden E}

/-- What is not live at the start may as well hold what its slot holds. -/
theorem alike_overlay {slots : SlotTable}
    (hslots : ∀ t ∈ (r.solution 0).before, ∀ offset, slots.offsets[t]? = some offset →
      hidden.memory.load (hidden.slotAddress offset) = temps t) :
    r.analyze.1.Alike ⟨.line 0, temps, hidden⟩ ⟨.line 0, slots.overlay hidden temps, hidden⟩ := by
  refine ⟨rfl, rfl, fun t ht => ?_⟩
  have hlive : t ∈ (r.solution 0).before := by
    rw [← liveBefore_analyze]
    exact ht
  by_cases hmem : t ∈ slots.offsets
  · have hoffset := Std.ExtTreeMap.getElem?_eq_some_getElem hmem
    exact (SlotTable.overlay_of_slot hoffset).trans (hslots t hlive _ hoffset)
  · exact SlotTable.overlay_of_notMem hmem

/-- What a routine returns from registers is what it returned before all rounds. -/
theorem Descends.returns_iff {asm : Assembly} {c : Coloring} {window : Register}
    {s : AssemblyRoutine} {regs : Register → Word} (h : r.Descends r') (hempty : r.slots = .empty)
    (hflow : ∀ i ∈ r.instrs, i.jumps = [] ∨ i.defs = []) (hdelivers : r.Delivers)
    (hfits : c.Fits r'.analyze.1) (hs : (c.assemble window r'.analyze.1).outcome = .ok s)
    (hcolors : asm.colors = c.colors) {reg : Register} (hreg : s.resultRegister = some reg)
    (hlocals : 0 ≤ r.frame.localsSize) (henters : asm.Enters r s temps regs hidden)
    (hspares : ∀ n, ∀ o ∈ (Machine.run (Mmix.meaning w) r.effects ⟨.line 0, temps, hidden⟩ n).2,
      (Mmix.meaning w).Spares (s.source.slots.Occupies hidden) o) (v : Word) :
    Machine.Returns (Mmix.meaning w) s.effects r.exit reg ⟨.line 0, regs, hidden⟩ v ↔
      Machine.Returns (Mmix.meaning w) r.effects r.exit r.frame.rv ⟨.line 0, temps, hidden⟩ v := by
  have hslots : s.source.slots = r'.slots := by
    rw [(Coloring.effects_of_assemble hs).1]
    rfl
  have hframe : r'.analyze.1.frame = r.frame := h.frame
  have hexit : r'.analyze.1.exit = r.exit := h.exit
  obtain ⟨hslot, hregs⟩ := henters
  rw [hslots] at hslot hregs hspares
  have halike := alike_overlay hslot
  -- The selected code does the same if the slots are taken for the temporaries.
  have hoverlay : ∀ v, Machine.Returns (Mmix.meaning w) r.effects r.exit r.frame.rv
      ⟨.line 0, r'.slots.overlay hidden temps, hidden⟩ v ↔
      Machine.Returns (Mmix.meaning w) r.effects r.exit r.frame.rv ⟨.line 0, temps, hidden⟩ v := by
    intro v
    rw [← r.effects_analyze]
    exact halike.returns_iff r.analyzed_analyze (delivers_analyze.mpr hdelivers).1 v
  have hrounds := h.keeps hempty hflow hlocals
    (s := ⟨.line 0, r'.slots.overlay hidden temps, hidden⟩) rfl (fun _ _ ht => ht)
    (fun t offset ht => (SlotTable.overlay_of_slot ht).symm) fun n o ho => by
      have hsame := (halike.run (m := Mmix.meaning w) r.analyzed_analyze n).2
      rw [r.effects_analyze] at hsame
      exact hspares n o (hsame ▸ ho)
  -- What is live at the start of the last round was so from the first one on, without a slot.
  have hfollows : Follows c r'.analyze.1 s (Mmix.meaning w)
      ⟨.line 0, r'.slots.overlay hidden temps, hidden⟩ ⟨.line 0, regs, hidden⟩ := by
    refine hfits.follows hs fun t ht reg hcolor => ?_
    rw [liveBefore_analyze] at ht
    obtain ⟨hlive, hnone⟩ := h.mem_before_zero hempty ht
    rw [hregs t hlive hnone reg (hcolors ▸ hcolor), SlotTable.overlay_of_notMem hnone]
  have hbound := hfollows.returns_iff
    (delivers_analyze.mpr (h.delivers_iff.mpr hdelivers)).1 hreg v
  rw [r'.effects_analyze, hframe, hexit] at hbound
  exact hbound.trans ((hrounds.1 hdelivers v).trans (hoverlay v))

end Routine

/-! ### The last round -/

/-- Two temporaries that are read at once need two registers. -/
theorem Coloring.Fits.registers_ne_one {c : Coloring} {r : Routine} {registers : Nat}
    (hfits : c.Fits r) (htwo : r.ReadsTwo)
    (hlt : ∀ (t : Temp) (reg : Register), c.colors[t]? = some reg → reg.index.toNat < registers) :
    registers ≠ 1 := by
  rintro rfl
  obtain ⟨i, hi, t, ht, u, hu, hne⟩ := htwo
  obtain ⟨index, hindex⟩ := List.getElem?_of_mem hi
  have hbefore : ∀ t ∈ i.uses, t ∈ i.live.before :=
    fun t ht => hfits.analyzed.mem_before_of_mem_uses hindex ht
  have hzero : ∀ t ∈ i.uses, c.register t = ⟨0⟩ := by
    intro t ht
    have hindex := hlt t _ (hfits.colored i hi t (Instr.mem_temps.mpr (.inl ht)))
    exact congrArg Register.mk (UInt8.toNat_inj.mp (Nat.lt_one_iff.mp hindex))
  refine hfits.apart i hi t u hne (.inl ⟨hbefore t ht, hbefore u hu⟩) ?_
  rw [hzero t ht, hzero u hu]

/-- The temporary has a slot in some routine. -/
def Assembly.Slotted (asm : Assembly) (t : Temp) : Prop :=
  ∃ s ∈ asm.routines, t ∈ s.source.slots.offsets

namespace Program

variable {target : Target} {settled : Settled} {p q : Program} {ps : List Procedure} {n : Nat}
  {shielded : TempSet} {c : Coloring} {t : Temp}

/-- An allocation that succeeds ends with a round that is reached and spills nothing. -/
theorem Reaches.last_of_settleWithin (h : Reaches target p n shielded q)
    (hpos : target.registers ≠ 0) {budget rounds spilledBefore : Nat}
    (hsettled : (settleWithin target budget rounds spilledBefore shielded q).outcome =
      .ok settled) :
    ∃ n shielded q, Reaches target p n shielded q ∧ settled.program = q.analyze.1 ∧
      (Coloring.ofRoutines target.registers shielded q.analyze.1.routines).outcome
        = .ok settled.coloring ∧ settled.coloring.spilled.isEmpty = true := by
  induction budget generalizing n shielded q rounds spilledBefore with
  | zero => cases hsettled
  | succ budget ih =>
      have hcolors := congrArg Logged.outcome
        (Allocator.ofRoutines_eq target.registers shielded q.analyze.1.routines hpos)
      -- Either this coloring spills nothing and is the last, or one more round follows.
      rw [outcome_settleWithin hpos] at hsettled
      dsimp only at hsettled
      split at hsettled
      · rename_i hempty
        cases hsettled
        exact ⟨n, shielded, q, h, rfl, hcolors, hempty⟩
      · rename_i hspills
        split at hsettled
        · cases hsettled
        · obtain ⟨next, hnext, hsettled⟩ := bind_eq_ok.mp hsettled
          exact ih (.spill h hcolors (Bool.not_eq_true _ ▸ hspills) hnext) hsettled

/-- If nothing is spilled, then just the operands have registers. -/
theorem colors_eq_none_iff (hpos : target.registers ≠ 0) (hmax : target.registers ≤ 256)
    (hc : (Coloring.ofRoutines target.registers shielded q.analyze.1.routines).outcome = .ok c)
    (hempty : c.spilled.isEmpty = true) : c.colors[t]? = none ↔ ¬q.Touches t := by
  rw [Allocator.ofRoutines_eq _ _ _ hpos] at hc
  obtain rfl := Except.ok.inj hc
  have hmentioned : Mentioned q.analyze.1.routines t ↔ q.Touches t := by
    constructor
    · rintro ⟨r, hr, i, hi, ht⟩
      exact exists_operand_of_analyze hr hi ht
    · rintro ⟨r, hr, htouches⟩
      obtain ⟨i, hi, ht⟩ := Routine.touches_analyze.mpr htouches
      refine ⟨r.analyze.1, ?_, i, hi, List.mem_append_left _ (List.mem_append_left _ ht)⟩
      rw [routines_analyze]
      exact List.mem_map_of_mem hr
  rw [← Option.not_isSome_iff_eq_none, Std.ExtTreeMap.isSome_getElem?_iff_mem,
    Allocator.mem_colors_finalColoring _ _ _ hmax, Std.ExtTreeSet.isEmpty_iff.mp hempty, hmentioned,
    and_iff_left Std.ExtTreeSet.not_mem_empty]

/-- The code that an allocation ends with descends from the program. The colouring fits it, and
just its operands have registers. -/
theorem descends_of_settle (hvalid : target.validate = .ok ())
    (hselect : (select ps).outcome = .ok p) (h : (p.settle target).outcome = .ok settled) :
    ∃ n shielded q, Reaches target p n shielded q ∧ settled.program = q.analyze.1 ∧
      (∀ t, settled.coloring.colors[t]? = none ↔ ¬q.Touches t) ∧
      (∀ r ∈ q.routines, settled.coloring.Fits r.analyze.1) ∧
      List.Forall₂ Routine.Descends p.routines q.routines := by
  obtain ⟨hpos, hle⟩ := Target.registers_of_validate hvalid
  have hmax : target.registers ≤ 256 := Nat.le_trans hle (by decide)
  obtain ⟨n, shielded, q, hreaches, hprogram, hcolors, hempty⟩ :=
    Reaches.start.last_of_settleWithin hpos h
  have hfits : ∀ r ∈ q.routines, settled.coloring.Fits r.analyze.1 := by
    intro r hr
    refine fits_of_settle hvalid h ?_
    rw [hprogram, routines_analyze]
    exact List.mem_map_of_mem hr
  refine ⟨n, shielded, q, hreaches, hprogram, fun t => colors_eq_none_iff hpos hmax hcolors hempty,
    hfits, ?_⟩
  rcases hreaches.descends hselect hpos hmax with ⟨hone, r, hr, htwo⟩ | ⟨hdescends, -⟩
  -- With one register nothing fits that reads two temporaries at once.
  · refine absurd hone ((hfits r hr).registers_ne_one (Routine.readsTwo_analyze.mpr htwo) ?_)
    exact fun t reg hreg => lt_registers_of_ofRoutines hpos hcolors hreg
  · exact hdescends

/-- What selection gives for a procedure. -/
theorem selected_of_select (hselect : (select ps).outcome = .ok p) {r : Routine}
    (hr : r ∈ p.routines) :
    r.slots = .empty ∧ (∀ i ∈ r.instrs, i.jumps = [] ∨ i.defs = []) ∧
      r.frame.rv.number < p.supply.next := by
  obtain ⟨first, -, hselects⟩ := selects_of_select hselect
  refine ⟨slots_of_select hselect hr,
    fun i hi => ?_, below_of_select hselect r hr _ (.inr (.inr rfl))⟩
  by_cases hjumps : i.jumps = []
  · exact .inl hjumps
  · exact .inr ((hselects.modest r hr i hi).jump hjumps).1

/-- The register of a return value. There is none just if the return value is no operand of the
program, or if it is kept in a slot and no routine delivers it. A routine that delivers its return
value returns it in that register: from registers and slots that hold what is live at the start,
control arrives at the exit with the value `v` in the register just if the selected code arrives
there with the return value `v`. The selected code must not access the slots. -/
theorem result_register_holds_result (target : Target) (ps : List Procedure) (asm : Assembly)
    (h : (compile target ps).outcome = .ok asm) :
    ∃ p, (select ps).outcome = .ok p ∧ List.Forall₂ (fun r s =>
      (s.resultRegister = none ↔
        ¬p.Touches r.frame.rv ∨ (asm.Slotted r.frame.rv ∧ ¬p.Delivers r.frame.rv)) ∧
      (r.Delivers → ∃ reg, s.resultRegister = some reg ∧
        ∀ (E : Type) (w : Mmix.World E) (temps : Temp → Word) (regs : Register → Word)
          (hidden : Hidden E), 0 ≤ r.frame.localsSize → asm.Enters r s temps regs hidden →
          (∀ n, ∀ o ∈ (Machine.run (Mmix.meaning w) r.effects ⟨.line 0, temps, hidden⟩ n).2,
            (Mmix.meaning w).Spares (s.source.slots.Occupies hidden) o) →
          ∀ v, Machine.Returns (Mmix.meaning w) s.effects r.exit reg ⟨.line 0, regs, hidden⟩ v ↔
            Machine.Returns (Mmix.meaning w) r.effects r.exit r.frame.rv
              ⟨.line 0, temps, hidden⟩ v))
      p.routines asm.routines := by
  rw [compile] at h
  simp only [Logged.outcome_bind] at h
  obtain ⟨-, -, h⟩ := bind_eq_ok.mp h
  obtain ⟨p, hselect, h⟩ := bind_eq_ok.mp h
  obtain ⟨hvalid, settled, hsettled, hcolors, hroutines⟩ := assembled_of_allocate h
  obtain ⟨n, shielded, q, hreaches, hprogram, hnone, hfits, hdescends⟩ :=
    descends_of_settle hvalid hselect hsettled
  rw [hprogram, routines_analyze, List.forall₂_map_left_iff] at hroutines
  have hslotted : ∀ t, asm.Slotted t ↔ q.Slotted t := by
    refine fun t => exists_mem_iff_of_forall₂ hroutines fun r' s hs => ?_
    rw [(Coloring.effects_of_assemble hs).1]
    exact Iff.rfl
  refine ⟨p, hselect, ?_⟩
  refine forall₂_trans (fun r r' s hr hr' => ?_)
    ((List.forall₂_and_left _ _).mpr ⟨fun r hr => hr, hdescends⟩)
    ((List.forall₂_and_left _ _).mpr ⟨hfits, hroutines⟩)
  obtain ⟨hmem, hdescends⟩ := hr
  obtain ⟨hfits, hs⟩ := hr'
  obtain ⟨hempty, hflow, hrv⟩ := selected_of_select hselect hmem
  have hresult : s.resultRegister = settled.coloring.colors[r.frame.rv]? := by
    rw [← hdescends.frame]
    exact (Coloring.effects_of_assemble hs).2.1
  have hregister : s.resultRegister = none ↔
      ¬p.Touches r.frame.rv ∨ (asm.Slotted r.frame.rv ∧ ¬p.Delivers r.frame.rv) := by
    rw [hresult, hnone, hreaches.touches_iff hselect (Target.registers_of_validate hvalid).1 hrv,
      hslotted, not_and_or, Classical.not_imp]
  refine ⟨hregister, fun hdelivers => ?_⟩
  cases hreg : s.resultRegister with
  | none =>
      rcases hregister.mp hreg with htouches | ⟨-, hnot⟩
      · exact absurd ⟨r, hmem, hdelivers.touches_rv⟩ htouches
      · exact absurd ⟨r, hmem, rfl, hdelivers⟩ hnot
  | some reg =>
      refine ⟨reg, rfl, fun E w temps regs hidden hlocals henters hspares => ?_⟩
      exact hdescends.returns_iff hempty hflow hdelivers hfits hs hcolors hreg hlocals
        henters hspares

/-- Return `300 * x * x + 7`, where the seven is there from the start. -/
def early : Procedure where
  frame := ⟨⟨"early"⟩, 0, 16, 0, 0, ⟨0⟩, ⟨1⟩⟩
  entry := ⟨"early"⟩
  exit := ⟨"early.exit"⟩
  body :=
    [.move (.temp ⟨1⟩) (.const 7),
      .move (.temp ⟨3⟩) (.binary .mul (.temp ⟨2⟩) (.const 300)),
      .move (.temp ⟨1⟩) (.binary .add (.temp ⟨1⟩) (.binary .mul (.temp ⟨3⟩) (.temp ⟨2⟩))),
      .jump ⟨"early.exit"⟩]

/-- A start in which every location and all of memory hold a five. -/
def fives (L : Type) : Machine.State L Word (Hidden Unit) :=
  ⟨.line 0, fun _ => 5, ⟨fun _ => 4096, 0, fun _ => 5, ()⟩⟩

/-- With two registers the return value of `early` gets a slot. It is in its
register at the exit. -/
theorem early_returns_in_register :
    ∃ p asm, (select [early]).outcome = .ok p ∧ (compile ⟨2, 8⟩ [early]).outcome = .ok asm ∧
      asm.stats.rounds = 3 ∧ asm.Slotted ⟨1⟩ ∧
      List.Forall₂ (fun r s => r.Delivers ∧ ∃ reg, s.resultRegister = some reg ∧
        Machine.Returns (Mmix.meaning ⟨fun _ => 0, fun _ => id⟩) s.effects r.exit reg
          (fives Register) 7507) p.routines asm.routines := by
  have hasm : (compile ⟨2, 8⟩ [early]).outcome.toOption.map (fun asm => (asm.stats.rounds,
      asm.routines.map fun s => s.source.slots.offsets.contains ⟨1⟩)) = some (3, [true]) := by
    decide +kernel
  have hcode : (select [early]).outcome.toOption.map (fun p => p.routines.all fun r =>
      r.frame.localsSize = 16 ∧ r.definesResult = true ∧ (∃ i ∈ r.instrs, r.exit ∈ i.jumps) ∧
      (∀ i ∈ r.instrs, i.quiet = true) ∧
      let reached := (Machine.run (Mmix.meaning ⟨fun _ => 0, fun _ => id⟩) r.effects
        (fives Temp) 12).1
      reached.place = .left r.exit ∧ reached.store r.frame.rv = 7507) = some true := by
    decide +kernel
  obtain ⟨asm, hok, hasm⟩ := Option.map_eq_some_iff.mp hasm
  obtain ⟨hrounds, hslots⟩ := Prod.mk.inj hasm
  obtain ⟨s, hs, hslot⟩ := List.mem_map.mp (hslots ▸ List.mem_singleton_self true)
  have hok := toOption_eq_some_iff.mp hok
  obtain ⟨p, hselect, hall⟩ := result_register_holds_result ⟨2, 8⟩ [early] asm hok
  rw [hselect] at hcode
  have hcode := List.all_eq_true.mp (Option.some.inj hcode)
  refine ⟨p, asm, hselect, hok, hrounds, ⟨s, hs, Std.ExtTreeMap.mem_iff_contains.mpr hslot⟩, ?_⟩
  refine ((List.forall₂_and_left _ _).mpr ⟨hcode, hall⟩).imp fun r s hrs => ?_
  obtain ⟨hr, -, hresult⟩ := hrs
  obtain ⟨hlocals, hdefines, hexit, hquiet, hplace, hvalue⟩ := of_decide_eq_true hr
  obtain ⟨reg, hreg, hreturns⟩ := hresult ⟨hdefines, hexit⟩
  refine ⟨⟨hdefines, hexit⟩, reg, hreg, ?_⟩
  -- All locations hold the same, and the selected code does not access memory.
  refine (hreturns Unit _ (fives Temp).store (fives Register).store (fives Temp).hidden (by omega)
    ⟨fun _ _ _ _ => rfl, fun _ _ _ _ _ => rfl⟩ ?_ 7507).mpr ⟨12, hplace, hvalue⟩
  exact r.spares_run_of_quiet _ hquiet _ _

/-- Set the return value to seven. -/
def seven : Procedure where
  frame := ⟨⟨"seven"⟩, 0, 0, 0, 0, ⟨0⟩, ⟨1⟩⟩
  entry := ⟨"seven"⟩
  exit := ⟨"seven.exit"⟩
  body := [.move (.temp ⟨1⟩) (.const 7), .jump ⟨"seven.exit"⟩]

/-- Return without a value. -/
def idle : Procedure where
  frame := ⟨⟨"idle"⟩, 0, 0, 0, 0, ⟨0⟩, ⟨1⟩⟩
  entry := ⟨"idle"⟩
  exit := ⟨"idle.exit"⟩
  body := [.jump ⟨"idle.exit"⟩]

/-- A routine that does not write its return value has a register for it nevertheless, if another
routine writes the same temporary. -/
theorem unwritten_result_has_register :
    ∃ p asm, (select [seven, idle]).outcome = .ok p ∧
      (compile {} [seven, idle]).outcome = .ok asm ∧
      p.routines.map Routine.definesResult = [true, false] ∧
      asm.routines.map AssemblyRoutine.resultRegister = [some ⟨0⟩, some ⟨0⟩] := by
  have hcode : (select [seven, idle]).outcome.toOption.map (fun p =>
      p.routines.map Routine.definesResult) = some [true, false] := by
    decide +kernel
  have hasm : (compile {} [seven, idle]).outcome.toOption.map (fun asm =>
      asm.routines.map AssemblyRoutine.resultRegister) = some [some ⟨0⟩, some ⟨0⟩] := by
    decide +kernel
  obtain ⟨p, hselect, hcode⟩ := Option.map_eq_some_iff.mp hcode
  obtain ⟨asm, hok, hasm⟩ := Option.map_eq_some_iff.mp hasm
  exact ⟨p, asm, toOption_eq_some_iff.mp hselect, toOption_eq_some_iff.mp hok, hcode, hasm⟩

end Program

end MmixCodegen
