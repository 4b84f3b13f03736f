import MmixCodegen.Proofs.Compile
import MmixCodegen.Proofs.Isolation
import MmixCodegen.Proofs.Select.Modest
import MmixCodegen.Proofs.Spill.Placement

/-!
# `MmixCodegen.Proofs.Convergence`: two registers always suffice

`Program.Reaches` lists the rounds of an allocation. The code of each of them consists of
cells (`Reaches.celled`): at first each instruction is a cell of its own, and a round makes
cells around the instructions of cells. So shielded temporaries are never spilled. Those
operands that are not shielded are `Program.loose`, and there are fewer of them in each
round than before (`Celled.spill`), so the rounds end (`Reaches.settleWithin_cases`).

`Program.two_registers_suffice` puts this together: with two registers or more, and with as
many rounds of spilling as there are temporaries, compiling a program fails only if some round
runs out of temporaries or of room for slots (`Program.LacksRoom`). The rounds that are reported
are those that were taken, so there are no more of them than temporaries and one.
-/

set_option autoImplicit false

namespace MmixCodegen

open Spill

/-! ### Selected code -/

namespace Spill.Cell

/-- An instruction that is a cell of its own. -/
def single (i : Instr) : Cell :=
  ⟨[], i, []⟩

/-- Instructions that are cells of their own are the code as it is. -/
theorem flatMap_single (is : List Instr) : (is.map single).flatMap toList = is := by
  induction is with
  | nil => rfl
  | cons i is ih => rw [List.map_cons, List.flatMap_cons, ih]; rfl

/-- As long as nothing is shielded there is nothing to confine. -/
theorem confines_single {i : Instr} (h : i.Modest) (base : Nat) (exit : Label) (rv : Temp)
    (result : Option Temp) : (single i).Confines base ∅ exit rv result where
  modest := h
  address := nofun
  addresses_nodup := .nil
  loaded := nofun
  loaded_nodup := .nil
  stored := nofun
  stored_nodup := .nil
  uses := fun _ _ ht => absurd ht Std.ExtTreeSet.not_mem_empty
  defs := fun _ _ ht => absurd ht Std.ExtTreeSet.not_mem_empty
  result := fun _ _ ht => absurd ht Std.ExtTreeSet.not_mem_empty

end Spill.Cell

namespace Program

/-- The cells of a program whose instructions are cells of their own. -/
def singles (p : Program) : List (List Cell) :=
  p.routines.map fun r => r.instrs.map Cell.single

/-- Code whose instructions have few operands, all from the supply, consists of single cells. -/
theorem celled_singles {p : Program}
    (hrv : ∀ r ∈ p.routines, r.frame.rv.number < p.supply.next)
    (hmodest : ∀ r ∈ p.routines, ∀ i ∈ r.instrs, i.Modest)
    (hbelow : ∀ r ∈ p.routines, ∀ i ∈ r.instrs, ∀ t ∈ i.operands, t.number < p.supply.next) :
    p.Celled p.supply.next ∅ p.singles := by
  have htemps : ∀ c ∈ p.singles.flatten, ∀ t ∈ c.temps, t.number < p.supply.next := by
    intro c hc t ht
    obtain ⟨cs, hcs, hc⟩ := List.mem_flatten.mp hc
    obtain ⟨r, hr, rfl⟩ := List.mem_map.mp hcs
    obtain ⟨i, hi, rfl⟩ := List.mem_map.mp hc
    exact hbelow r hr i hi t ht
  refine ⟨?_, ?_, htemps, fun t ht => absurd ht Std.ExtTreeSet.not_mem_empty, Nat.le_refl _⟩
  · rw [singles, List.forall₂_map_right_iff, List.forall₂_same]
    intro r hr
    refine ⟨by rw [Cell.flatMap_single], hrv r hr, fun c hc => ?_⟩
    obtain ⟨i, hi, rfl⟩ := List.mem_map.mp hc
    exact Cell.confines_single (hmodest r hr i hi) _ _ _ _
  · refine List.pairwise_of_forall_mem_list fun c hc d hd t hbase ht => ?_
    have hlt := htemps c hc t ht
    omega

/-- The supply that selection leaves lies above all temporaries. -/
theorem below_of_select {ps : List Procedure} {p : Program} (h : (select ps).outcome = .ok p) :
    ∀ r ∈ p.routines, ∀ t, r.Mentions t → t.number < p.supply.next := by
  obtain ⟨first, hfirst, hselects⟩ := selects_of_select h
  exact ((Isolated.start (lt_of_firstSupply hfirst)).draws hselects.draws).below

/-- Selected code consists of single cells. -/
theorem celled_of_select {ps : List Procedure} {p : Program} (h : (select ps).outcome = .ok p) :
    p.Celled p.supply.next ∅ p.singles := by
  obtain ⟨first, -, hselects⟩ := selects_of_select h
  refine celled_singles (fun r hr => ?_) hselects.modest fun r hr i hi t ht => ?_
  · exact below_of_select h r hr _ (.inr (.inr rfl))
  · refine below_of_select h r hr t (.inl (Routine.mem_temps.mpr ⟨i, hi, ?_⟩))
    exact List.mem_append_left _ (List.mem_append_left _ ht)

/-- Selected code has no slots yet. -/
theorem Selects.filled {ps : List Procedure} {rs : List Routine} {supply last : Supply}
    (h : Selects supply ps rs last) : Filled rs := by
  induction h with
  | nil => exact List.forall_mem_nil _
  | cons _ _ ih => exact List.forall_mem_cons.mpr ⟨SlotTable.filled_empty _, ih⟩

/-! ### Rounds -/

/-- The temporaries that the instructions of a program mention. -/
def temps (p : Program) : TempSet :=
  TempSet.ofList ((p.routines.flatMap Routine.instrs).flatMap Instr.temps)

/-- The rounds of an allocation: after `n` rounds of spilling from `p` there is `q` to
colour, and `shielded` must not be spilled. -/
inductive Reaches (target : Target) (p : Program) : Nat → TempSet → Program → Prop
  | start : Reaches target p 0 ∅ p
  | spill {n : Nat} {shielded : TempSet} {q : Program} {c : Coloring} {next : SpilledProgram}
      (reaches : Reaches target p n shielded q)
      (colors : (Coloring.ofRoutines target.registers shielded q.analyze.1.routines).outcome =
        .ok c)
      (spills : c.spilled.isEmpty = false)
      (spill : (q.analyze.1.spill c.spilled shielded).outcome = .ok next) :
      Reaches target p (n + 1) next.shielded next.program

/-- The operands that may be spilled. -/
def loose (p : Program) (shielded : TempSet) : Finset Temp :=
  ((p.routines.flatMap Routine.instrs).flatMap Instr.operands).toFinset \ shielded.toFinset

variable {target : Target} {base n : Nat} {shielded : TempSet} {p q : Program}
  {css : List (List Cell)} {c : Coloring} {t : Temp}

/-- The loose temporaries are the operands that are not shielded. -/
theorem mem_loose :
    t ∈ p.loose shielded ↔ (∃ r ∈ p.routines, ∃ i ∈ r.instrs, t ∈ i.operands) ∧ t ∉ shielded := by
  rw [loose, Finset.mem_sdiff, List.mem_toFinset, List.mem_flatMap, exists_mem_flatMap_instrs,
    TempSet.mem_toFinset]

/-- At first there are no more loose temporaries than are mentioned. -/
theorem card_loose_le (p : Program) : (p.loose ∅).card ≤ p.temps.size := by
  rw [← TempSet.card_toFinset]
  refine Finset.card_le_card fun t ht => ?_
  obtain ⟨⟨r, hr, i, hi, ht⟩, -⟩ := mem_loose.mp ht
  rw [TempSet.mem_toFinset, temps, TempSet.mem_ofList, List.mem_flatMap]
  refine ⟨i, List.mem_flatMap.mpr ⟨r, hr, hi⟩, ?_⟩
  exact List.mem_append_left _ (List.mem_append_left _ ht)

/-- An analysis leaves the cells as they are. -/
theorem Celled.analyze (h : p.Celled base shielded css) :
    p.analyze.1.Celled base shielded css where
  routines := by
    rw [routines_analyze, List.forall₂_map_left_iff]
    exact h.routines.imp fun _ _ hr => hr.analyze
  apart := h.apart
  below := h.below
  shielded_below := h.shielded_below
  base_le := h.base_le

/-- All operands of cells come from the supply. -/
theorem Celled.below_operands (h : p.Celled base shielded css) {r : Routine}
    (hr : r ∈ p.routines) {i : Instr} (hi : i ∈ r.instrs) (ht : t ∈ i.operands) :
    t.number < p.supply.next := by
  obtain ⟨cs, hcs, hcelled⟩ := exists_mem_of_forall₂ h.routines hr
  obtain ⟨c, hc, j, hj, hkind⟩ := hcelled.exists_mem_toList hi
  rw [Instr.operands, Instr.uses_congr hkind, Instr.defs_congr hkind] at ht
  exact h.below c (List.mem_flatten.mpr ⟨cs, hcs, hc⟩) t (Cell.mem_temps_of_mem_operands hj ht)

/-- What an analyzed program mentions is an operand of the program. -/
theorem exists_operand_of_analyze {r : Routine} (hr : r ∈ p.analyze.1.routines) {i : Instr}
    (hi : i ∈ r.instrs) (ht : t ∈ i.temps) : ∃ r ∈ p.routines, ∃ i ∈ r.instrs, t ∈ i.operands := by
  rw [routines_analyze] at hr
  obtain ⟨s, hs, rfl⟩ := List.mem_map.mp hr
  exact ⟨s, hs, Routine.exists_operand_of_analyze hi ht⟩

/-- What a round spills may be spilled. -/
theorem Celled.mem_loose_of_spilled (h : q.Celled base shielded css) (htwo : 2 ≤ target.registers)
    (hmax : target.registers ≤ 256)
    (hc : (Coloring.ofRoutines target.registers shielded q.analyze.1.routines).outcome = .ok c)
    (ht : t ∈ c.spilled) : t ∈ q.loose shielded := by
  rw [Allocator.ofRoutines_eq _ _ _ (by omega)] at hc
  obtain rfl := Except.ok.inj hc
  refine mem_loose.mpr ⟨?_, h.notMem_shielded htwo hmax ht⟩
  obtain ⟨r, hr, i, hi, ht⟩ := Allocator.mentioned_of_mem_spilled _ _ _ ht
  exact exists_operand_of_analyze hr hi ht

/-- After a round the program still consists of cells, and fewer operands may be spilled. -/
theorem Celled.spill (h : q.Celled base shielded css) (htwo : 2 ≤ target.registers)
    (hmax : target.registers ≤ 256)
    (hc : (Coloring.ofRoutines target.registers shielded q.analyze.1.routines).outcome = .ok c)
    (hspills : c.spilled.isEmpty = false) {next : SpilledProgram}
    (hnext : (q.analyze.1.spill c.spilled shielded).outcome = .ok next) :
    (∃ dss, next.program.Celled base next.shielded dss) ∧
      (next.program.loose next.shielded).card < (q.loose shielded).card := by
  have hloose := fun t (ht : t ∈ c.spilled) => h.mem_loose_of_spilled htwo hmax hc ht
  have hround : Round c.spilled q.supply shielded q.analyze.1.routines next.program.routines
      next.program.supply next.shielded := by
    rcases spill_cases c.spilled shielded q.analyze.1 with ⟨e, he, -⟩ | ⟨next', hnext', hround⟩
    · rw [he] at hnext
      cases hnext
    · rw [hnext'] at hnext
      exact Except.ok.inj hnext ▸ hround
  have hbelow : ∀ t ∈ c.spilled, t.number < q.supply.next := by
    intro t ht
    obtain ⟨⟨r, hr, i, hi, hmem⟩, -⟩ := mem_loose.mp (hloose t ht)
    exact h.below_operands hr hi hmem
  refine ⟨h.analyze.round hround (fun t ht => (mem_loose.mp (hloose t ht)).2) hbelow, ?_⟩
  obtain ⟨t, ht⟩ := TempSet.exists_mem_of_isEmpty_eq_false hspills
  refine Finset.card_lt_card (Finset.ssubset_iff_of_subset ?_ |>.mpr ⟨t, hloose t ht, ?_⟩)
  · -- The operands of spill code are shielded, so there is nothing new to spill.
    intro u hu
    obtain ⟨⟨r, hr, i, hi, hu⟩, hnot⟩ := mem_loose.mp hu
    rcases hround.operands hr hi hu with ⟨r, hr, i, hi, hold, -⟩ | hnew
    · refine mem_loose.mpr
        ⟨exists_operand_of_analyze hr hi ?_, fun hmem => hnot (hround.subset hmem)⟩
      exact List.mem_append_left _ (List.mem_append_left _ hold)
    · exact absurd hnew hnot
  · -- What was spilled is no operand any more.
    intro hmem
    obtain ⟨⟨r, hr, i, hi, hmem⟩, hnot⟩ := mem_loose.mp hmem
    rcases hround.operands hr hi hmem with ⟨-, -, -, -, -, hspilled⟩ | hnew
    · exact hspilled ht
    · exact hnot hnew

/-- Each reached program consists of cells, and each round took an operand that may be spilled. -/
theorem Reaches.celled (h : Reaches target p n shielded q) (hp : p.Celled base ∅ css)
    (htwo : 2 ≤ target.registers) (hmax : target.registers ≤ 256) :
    (∃ dss, q.Celled base shielded dss) ∧ n + (q.loose shielded).card ≤ (p.loose ∅).card := by
  induction h with
  | start => exact ⟨⟨css, hp⟩, Nat.le_of_eq (Nat.zero_add _)⟩
  | spill _ hcolors hspills hspill ih =>
      obtain ⟨⟨dss, hdss⟩, hcard⟩ := ih
      obtain ⟨hcelled, hlt⟩ := hdss.spill htwo hmax hcolors hspills hspill
      exact ⟨hcelled, by omega⟩

/-- What a round of an allocation spills was not shielded. -/
theorem Reaches.notMem_shielded (h : Reaches target p n shielded q) (hp : p.Celled base ∅ css)
    (htwo : 2 ≤ target.registers) (hmax : target.registers ≤ 256)
    (hc : (Coloring.ofRoutines target.registers shielded q.analyze.1.routines).outcome = .ok c) :
    ∀ t ∈ c.spilled, t ∉ shielded := by
  intro t ht
  obtain ⟨⟨dss, hdss⟩, -⟩ := h.celled hp htwo hmax
  exact (mem_loose.mp (hdss.mem_loose_of_spilled htwo hmax hc ht)).2

/-- Analyzing a program changes no slots. -/
theorem filled_analyze (h : Filled p.routines) : Filled p.analyze.1.routines := by
  rw [routines_analyze]
  exact List.forall_mem_map.mpr h

/-- The slots of each reached program lie one below the other. -/
theorem Reaches.filled (h : Reaches target p n shielded q) (hp : Filled p.routines) :
    Filled q.routines := by
  induction h with
  | start => exact hp
  | spill _ _ _ hspill ih => exact filled_of_spill (filled_analyze ih) hspill

/-- With more rounds left than there are operands to spill, everything gets a register, unless
some round of spilling lacks room. -/
theorem Reaches.settleWithin_cases (h : Reaches target p n shielded q) (hp : p.Celled base ∅ css)
    (hfilled : Filled p.routines) (htwo : 2 ≤ target.registers) (hmax : target.registers ≤ 256)
    {budget : Nat} (hbudget : (q.loose shielded).card < budget) (spilledBefore : Nat) :
    (∃ e, (settleWithin target budget n spilledBefore shielded q).outcome = .error e ∧
        ∃ m shielded' q' c', Reaches target p m shielded' q' ∧
          (Coloring.ofRoutines target.registers shielded' q'.analyze.1.routines).outcome = .ok c' ∧
          q'.analyze.1.LacksRoom c'.spilled e) ∨
      ∃ settled, (settleWithin target budget n spilledBefore shielded q).outcome = .ok settled ∧
        ∃ m shielded' q', Reaches target p m shielded' q' ∧ settled.stats.rounds = m + 1 := by
  induction budget generalizing n shielded q spilledBefore with
  | zero => omega
  | succ budget ih =>
      have hpos : target.registers ≠ 0 := by omega
      have hcolors := congrArg Logged.outcome
        (Allocator.ofRoutines_eq target.registers shielded q.analyze.1.routines hpos)
      obtain ⟨⟨dss, hdss⟩, -⟩ := h.celled hp htwo hmax
      rw [outcome_settleWithin hpos]
      dsimp only
      split
      · exact .inr ⟨_, rfl, n, shielded, q, h, rfl⟩
      · next hspills =>
        rw [Bool.not_eq_true] at hspills
        obtain ⟨t, ht⟩ := TempSet.exists_mem_of_isEmpty_eq_false hspills
        -- Something is spilled, and it is not shielded, so another round may help.
        rw [if_neg fun hall => h.notMem_shielded hp htwo hmax hcolors t ht
          (Std.ExtTreeSet.mem_iff_contains.mpr (TempSet.all_eq_true.mp hall t ht))]
        rcases q.analyze.1.spill_cases _ shielded with ⟨e, he, -⟩ | ⟨next, hnext, -⟩
        · have hlacks := lacksRoom_of_spill (filled_analyze (h.filled hfilled)) he
          exact .inl ⟨e, by rw [he]; rfl, n, shielded, q, _, h, hcolors, hlacks⟩
        · have hlt := (hdss.spill htwo hmax hcolors hspills hnext).2
          rw [hnext]
          exact ih (.spill h hcolors hspills hnext) (by omega) _

/-- Two registers always suffice. If selection succeeds and there are as many rounds of spilling as
there are temporaries in the selected code, then compiling succeeds: it colours once more than it
spills, and it spills no more often than there are temporaries. Otherwise some round of spilling
lacks room, for as many temporaries as its instructions may take or for the last slot that it has
to add. No round spills what is shielded, so one that spills at all spills something else. -/
theorem two_registers_suffice (target : Target) (ps : List Procedure) (p : Program)
    (hlabels : ∀ q ∈ ps, ∀ l ∈ q.labels, l.Plain) (hselect : (select ps).outcome = .ok p)
    (htwo : 2 ≤ target.registers) (hmax : target.registers ≤ 250)
    (hrounds : 1 ≤ target.spillRounds) (henough : p.temps.size ≤ target.spillRounds) :
    ((∃ asm n shielded q, (compile target ps).outcome = .ok asm ∧
        Reaches target p n shielded q ∧ asm.stats.rounds = n + 1 ∧ n ≤ p.temps.size) ∨
      ∃ e n shielded q c, (compile target ps).outcome = .error e ∧ e.Exhausted ∧
        Reaches target p n shielded q ∧
        (Coloring.ofRoutines target.registers shielded q.analyze.1.routines).outcome = .ok c ∧
        q.analyze.1.LacksRoom c.spilled e) ∧
    ∀ n shielded q c, Reaches target p n shielded q →
      (Coloring.ofRoutines target.registers shielded q.analyze.1.routines).outcome = .ok c →
      (∀ t ∈ c.spilled, t ∉ shielded) ∧
      (c.spilled.isEmpty = false → ∃ t ∈ c.spilled, t ∉ shielded) := by
  have hvalid : target.validate = .ok () := by
    have hlimit : Failure.maxRegisters = 250 := rfl
    rw [Target.validate, if_neg (by omega), if_neg (by omega), if_neg (by omega)]
  have hmax : target.registers ≤ 256 := by omega
  have hcelled := celled_of_select hselect
  obtain ⟨first, -, hselects⟩ := selects_of_select hselect
  constructor
  · -- There are no more operands to spill than temporaries, so the rounds do not run out.
    have hcard := card_loose_le p
    rw [outcome_compile hvalid, hselect]
    show (∃ asm n shielded q, (p.allocate target).outcome = .ok asm ∧ _) ∨
      ∃ e n shielded q c, (p.allocate target).outcome = .error e ∧ _
    have hstart : Reaches target p 0 ∅ p := .start
    rcases hstart.settleWithin_cases hcelled hselects.filled htwo hmax
      (show (p.loose ∅).card < target.spillRounds + 1 by omega) 0 with
      ⟨e, he, n, shielded, q, c, hreaches, hcolors, hlacks⟩ |
        ⟨settled, hsettled, n, shielded, q, hreaches, hn⟩
    · exact .inr ⟨e, n, shielded, q, c, outcome_allocate_of_error hvalid he, hlacks.exhausted,
        hreaches, hcolors, hlacks⟩
    · have hprintable := (printable_of_select hlabels hselect).of_settle (by omega) hsettled
      obtain ⟨asm, hasm, hstats, -⟩ := hprintable.allocate_eq_ok hvalid hsettled
      have hle := (hreaches.celled hcelled htwo hmax).2
      exact .inl ⟨asm, n, shielded, q, hasm, hreaches, by rw [hstats, hn], by omega⟩
  · intro n shielded q c hreaches hc
    have hnot := hreaches.notMem_shielded hcelled htwo hmax hc
    refine ⟨hnot, fun hspills => ?_⟩
    obtain ⟨t, ht⟩ := TempSet.exists_mem_of_isEmpty_eq_false hspills
    exact ⟨t, ht, hnot t ht⟩

/-- The code that is selected for `relay` has eight temporaries, of which up to three are live
at a time. -/
theorem two_registers_suffice_for_relay :
    ∃ p asm n shielded q, (select [relay]).outcome = .ok p ∧ p.temps.size = 8 ∧
      (compile ⟨2, 8⟩ [relay]).outcome = .ok asm ∧ Reaches ⟨2, 8⟩ p n shielded q ∧
      asm.stats.rounds = n + 1 ∧ n ≤ p.temps.size := by
  have hsize : (select [relay]).outcome.toOption.map (fun p => p.temps.size) = some 8 := by
    decide +kernel
  have hok : (compile ⟨2, 8⟩ [relay]).outcome.isOk = true := by decide +kernel
  cases hselect : (select [relay]).outcome with
  | error e =>
      rw [hselect] at hsize
      cases hsize
  | ok p =>
      rw [hselect] at hsize
      have hsize : p.temps.size = 8 := Option.some.inj hsize
      obtain ⟨⟨asm, n, shielded, q, hasm, hrounds⟩ | ⟨e, _, _, _, _, he, -⟩, -⟩ :=
        two_registers_suffice ⟨2, 8⟩ [relay] p (List.forall_mem_singleton.mpr (by decide)) hselect
          (by decide) (by decide) (by decide) (by rw [hsize])
      · exact ⟨p, asm, n, shielded, q, rfl, hsize, hasm, hrounds⟩
      · rw [he] at hok
        cases hok

end Program

end MmixCodegen
