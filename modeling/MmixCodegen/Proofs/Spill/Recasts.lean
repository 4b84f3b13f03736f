import MmixCodegen.Proofs.Isolation
import MmixCodegen.Proofs.Spill.Boundary
import MmixCodegen.Proofs.Spill.Placement

/-!
# `MmixCodegen.Proofs.Spill.Recasts`: what a round makes of a routine

`Recasts` is what a round of spilling does to one routine of a program
(`Program.recasts_of_spill`). The operands of the new code are those of the old code that were not
spilled, what was made, and the return value where it is loaded in front of the exit
(`Recasts.touches_iff`).

A routine that `Delivers` its return value writes it and jumps to its exit. A round changes
nothing about that (`Recasts.delivers_iff`): if the return value is spilled, then it is loaded
again in front of the exit.

What is spilled and written has to be stored, and a store reads two temporaries. From then on there
is an instruction that `ReadsTwo` (`Recasts.readsTwo`), so one register will not do.
-/

set_option autoImplicit false

namespace MmixCodegen

/-! ### Operands -/

namespace Routine

/-- The temporary is an operand in the code of the routine. -/
def Touches (r : Routine) (t : Temp) : Prop :=
  ∃ i ∈ r.instrs, t ∈ i.operands

/-- The routine writes its return value, and it jumps to its exit. -/
def Delivers (r : Routine) : Prop :=
  r.definesResult = true ∧ ∃ i ∈ r.instrs, r.exit ∈ i.jumps

/-- Some instruction reads two temporaries. -/
def ReadsTwo (r : Routine) : Prop :=
  ∃ i ∈ r.instrs, ∃ t ∈ i.uses, ∃ u ∈ i.uses, t ≠ u

variable {r : Routine} {t : Temp}

/-- The return value is written just if some instruction does so. -/
theorem definesResult_eq_true : r.definesResult = true ↔ ∃ i ∈ r.instrs, r.frame.rv ∈ i.defs := by
  simp [definesResult]

/-- A return value that is delivered is an operand. -/
theorem Delivers.touches_rv (h : r.Delivers) : r.Touches r.frame.rv := by
  obtain ⟨i, hi, hdef⟩ := definesResult_eq_true.mp h.1
  exact ⟨i, hi, List.mem_append_right _ hdef⟩

/-- What is an operand is mentioned. -/
theorem Touches.mentions (h : r.Touches t) : r.Mentions t := by
  obtain ⟨i, hi, ht⟩ := h
  exact .inl (mem_temps.mpr ⟨i, hi, List.mem_append_left _ (List.mem_append_left _ ht)⟩)

/-! ### Analyses -/

/-- Instructions of the same kinds have the same properties. -/
theorem exists_mem_analyze {P : Instr → Prop} (hP : ∀ i j : Instr, i.kind = j.kind → P i → P j) :
    (∃ i ∈ r.analyze.1.instrs, P i) ↔ ∃ i ∈ r.instrs, P i := by
  have hsub : ∀ is js : List Instr, is.map Instr.kind = js.map Instr.kind →
      (∃ i ∈ is, P i) → ∃ j ∈ js, P j := by
    rintro is js hkinds ⟨i, hi, h⟩
    have hmem : i.kind ∈ js.map Instr.kind := hkinds ▸ List.mem_map_of_mem hi
    obtain ⟨j, hj, hkind⟩ := List.mem_map.mp hmem
    exact ⟨j, hj, hP i j hkind.symm h⟩
  exact ⟨hsub _ _ r.map_kind_analyze, hsub _ _ r.map_kind_analyze.symm⟩

/-- An analysis changes no operands. -/
theorem touches_analyze : r.analyze.1.Touches t ↔ r.Touches t := by
  refine exists_mem_analyze fun i j hkind ht => ?_
  rwa [Instr.operands, ← Instr.uses_congr hkind, ← Instr.defs_congr hkind]

/-- An analysis changes nothing about whether the return value is delivered. -/
theorem delivers_analyze : r.analyze.1.Delivers ↔ r.Delivers := by
  rw [Delivers, Delivers, definesResult_eq_true, definesResult_eq_true]
  refine and_congr (exists_mem_analyze fun i j hkind hdef => ?_)
    (exists_mem_analyze fun i j hkind hexit => ?_)
  · exact Instr.defs_congr hkind ▸ hdef
  · exact Instr.jumps_congr hkind ▸ hexit

/-- An analysis changes nothing about how many temporaries are read. -/
theorem readsTwo_analyze : r.analyze.1.ReadsTwo ↔ r.ReadsTwo := by
  refine exists_mem_analyze fun i j hkind htwo => ?_
  rwa [← Instr.uses_congr hkind]

/-- No instruction both jumps and writes if none did before. -/
theorem flow_analyze (hflow : ∀ i ∈ r.instrs, i.jumps = [] ∨ i.defs = []) :
    ∀ i ∈ r.analyze.1.instrs, i.jumps = [] ∨ i.defs = [] := by
  intro i hi
  have hsame : ∃ j ∈ r.instrs, i.kind = j.kind :=
    (exists_mem_analyze fun _ _ hkind heq => heq.trans hkind).mp ⟨i, hi, rfl⟩
  obtain ⟨j, hj, hkind⟩ := hsame
  rw [Instr.jumps_congr hkind, Instr.defs_congr hkind]
  exact hflow j hj

/-- An analysis changes nothing about what the code does. -/
theorem effects_analyze (r : Routine) : r.analyze.1.effects = r.effects := by
  have heffects : ∀ is : List Instr,
      is.map Instr.effect = (is.map Instr.kind).map fun kind => (Instr.ofKind kind).effect := by
    intro is
    rw [List.map_map]
    rfl
  rw [effects, effects, heffects, heffects, map_kind_analyze]

end Routine

namespace Spill

variable {spilled shielded : TempSet} {base : Nat} {t u : Temp} {i j : Instr}

/-! ### Instructions of a cell -/

namespace Cell

variable {c : Cell} {a : Access}

/-- The instruction of a cell is in its code. -/
theorem body_mem_toList (c : Cell) : c.body ∈ c.toList := by
  simp [toList]

/-- The loads of a cell are in its code. -/
theorem load_mem_toList (ha : a ∈ c.loads) :
    (Operation.load a.place a.address 0).instr ∈ c.toList := by
  have hload : (Operation.load a.place a.address 0).instr ∈ a.load := by
    simp [Access.load, Access.loading]
  exact List.mem_append_left _ (List.mem_flatMap.mpr ⟨a, ha, hload⟩)

/-- The stores of a cell are in its code. -/
theorem store_mem_toList (ha : a ∈ c.stores) :
    (Operation.store a.place a.address 0).instr ∈ c.toList := by
  have hstore : (Operation.store a.place a.address 0).instr ∈ a.store := by
    simp [Access.store, Access.storing]
  exact List.mem_append_right _ (List.mem_cons_of_mem _ (List.mem_flatMap.mpr ⟨a, ha, hstore⟩))

end Cell

namespace Cell.Renders

variable {frame : Frame} {leaving : Bool} {first last : Nat} {slots : SlotTable}
  {ρ : Temp → Temp} {c : Cell}

/-- Different operands stay different. -/
theorem rename_injective (h : c.Renders frame spilled leaving i first last slots ρ)
    (hbelow : ∀ t ∈ i.operands, t.number < first) (ht : t ∈ i.operands) (hu : u ∈ i.operands)
    (heq : ρ t = ρ u) : t = u := by
  have hold := hbelow t ht
  have hold' := hbelow u hu
  by_cases hspilled : t ∈ spilled <;> by_cases hspilled' : u ∈ spilled
  · exact h.replaces.injective t (mem_spilledOf.mpr ⟨ht, hspilled⟩) u
      (mem_spilledOf.mpr ⟨hu, hspilled'⟩) heq
  · have hnew := (h.made ht hspilled).1
    rw [heq, h.rename_eq hspilled'] at hnew
    omega
  · have hnew := (h.made hu hspilled').1
    rw [← heq, h.rename_eq hspilled] at hnew
    omega
  · rwa [h.rename_eq hspilled, h.rename_eq hspilled'] at heq

/-- What an instruction of a cell touches, apart from what was made. -/
theorem touches (h : c.Renders frame spilled leaving i first last slots ρ) (hj : j ∈ c.toList)
    (ht : t ∈ j.operands) (hold : t.number < first) :
    (t ∈ i.operands ∧ t ∉ spilled) ∨ (leaving = true ∧ t = frame.rv) := by
  rcases List.mem_append.mp (Cell.mem_temps_of_mem_operands hj ht) with ht | ht
  · rcases h.mem_accessed ht with hnew | hresult
    · omega
    · exact .inr hresult
  · rcases h.mem_operands ht with hnew | hkept
    · omega
    · exact .inl hkept

end Cell.Renders

namespace Rewriting

variable {r r' : Routine} {cells : List Cell}

/-- Each instruction after a round is in the cell of one from before. -/
theorem exists_of_mem (h : Rewriting r r' spilled base cells) (hj : j ∈ r'.instrs) :
    ∃ i ∈ r.instrs, ∃ cell last slots ρ,
      Cell.Renders r.frame spilled (leaves spilled r i) i base last slots ρ cell ∧
        j ∈ cell.toList := by
  rw [h.instrs, List.mem_flatten] at hj
  obtain ⟨_, hpart, hj⟩ := hj
  obtain ⟨cell, hcell, rfl⟩ := List.mem_map.mp hpart
  obtain ⟨i, hi, last, slots, ρ, hrenders⟩ := exists_mem_of_forall₂ h.rendered.flip hcell
  exact ⟨i, hi, cell, last, slots, ρ, hrenders, hj⟩

/-- Each instruction from before has a cell, whose code is there after the round. -/
theorem exists_cell_of_mem (h : Rewriting r r' spilled base cells) (hi : i ∈ r.instrs) :
    ∃ cell last slots ρ,
      Cell.Renders r.frame spilled (leaves spilled r i) i base last slots ρ cell ∧
        ∀ j ∈ cell.toList, j ∈ r'.instrs := by
  obtain ⟨cell, hcell, last, slots, ρ, hrenders⟩ := exists_mem_of_forall₂ h.rendered hi
  refine ⟨cell, last, slots, ρ, hrenders, fun j hj => ?_⟩
  rw [h.instrs]
  exact List.mem_flatten_of_mem (List.mem_map_of_mem hcell) hj

/-- A spilled return value that is delivered is loaded into its temporary. -/
theorem exists_load_of_delivers (h : Rewriting r r' spilled base cells) (hdelivers : r.Delivers)
    (hspilled : r.frame.rv ∈ spilled) : ∃ j ∈ r'.instrs, r.frame.rv ∈ j.defs := by
  obtain ⟨hdefines, i, hi, hexit⟩ := hdelivers
  obtain ⟨cell, last, slots, ρ, hrenders, hmem⟩ := h.exists_cell_of_mem hi
  obtain ⟨a, ha, -, hplace⟩ :=
    hrenders.exists_result (leaves_eq_true.mpr ⟨⟨hspilled, hdefines⟩, hexit⟩)
  exact ⟨_, hmem _ (Cell.load_mem_toList ha), List.mem_singleton.mpr hplace.symm⟩

end Rewriting

/-! ### Rounds over a routine -/

/-- What a round of spilling makes of a routine. What it hands out has numbers from `base` on, and
`shielded` is what must not be spilled afterwards. -/
structure Recasts (spilled shielded : TempSet) (base : Nat) (r r' : Routine) : Prop where
  below : ∀ t, r.Mentions t → t.number < base
  frame : r'.frame = r.frame
  exit : r'.exit = r.exit
  slots : r.slots.Places r.frame.localsSize
    (r.instrs.flatMap fun i => slotted r.frame spilled (leaves spilled r i) i) r'.slots
  rendered : ∃ cells st st', base ≤ st.supply.next ∧ Rendered spilled r r.instrs cells st st' ∧
    st'.slots = r'.slots ∧ r'.instrs = (cells.map Cell.toList).flatten ∧
    ∀ t ∈ st'.shielded, t ∈ shielded

namespace Recasts

variable {r r' : Routine} (h : Recasts spilled shielded base r r')

include h

/-- The return value was there before the round. -/
theorem rv_lt : r.frame.rv.number < base :=
  h.below _ (.inr (.inr rfl))

/-- All operands were there before the round. -/
theorem operands_lt (hi : i ∈ r.instrs) (ht : t ∈ i.operands) : t.number < base :=
  h.below t (Routine.Touches.mentions ⟨i, hi, ht⟩)

/-- A round rewrites the code into cells. -/
theorem rewriting : ∃ cells, Rewriting r r' spilled base cells := by
  obtain ⟨cells, st, st', hbase, hrendered, -, hinstrs, -⟩ := h.rendered
  exact ⟨cells, h.frame, h.exit, hinstrs, hrendered.renders hbase, h.rv_lt⟩

/-- After a round those have a slot that had one before, and the spilled operands. -/
theorem mem_slots :
    t ∈ r'.slots.offsets ↔ t ∈ r.slots.offsets ∨ (t ∈ spilled ∧ r.Touches t) := by
  rw [h.slots.mem_offsets, mem_slotted]
  rfl

/-- Old operands that were not spilled are still there, and a return value that was is back in
front of the exit. -/
theorem touches_iff (ht : t.number < base) :
    r'.Touches t ↔
      (r.Touches t ∧ t ∉ spilled) ∨ (t ∈ spilled ∧ t = r.frame.rv ∧ r.Delivers) := by
  obtain ⟨cells, hrewriting⟩ := h.rewriting
  constructor
  · rintro ⟨j, hj, hoperand⟩
    obtain ⟨i, hi, cell, last, slots, ρ, hrenders, hj⟩ := hrewriting.exists_of_mem hj
    rcases hrenders.touches hj hoperand ht with ⟨hold, hkept⟩ | ⟨hleaves, rfl⟩
    · exact .inl ⟨⟨i, hi, hold⟩, hkept⟩
    · obtain ⟨⟨hspilled, hdefines⟩, hexit⟩ := leaves_eq_true.mp hleaves
      exact .inr ⟨hspilled, rfl, hdefines, i, hi, hexit⟩
  · rintro (⟨⟨i, hi, hoperand⟩, hkept⟩ | ⟨hspilled, rfl, hdelivers⟩)
    · obtain ⟨cell, last, slots, ρ, hrenders, hmem⟩ := hrewriting.exists_cell_of_mem hi
      refine ⟨cell.body, hmem _ cell.body_mem_toList, ?_⟩
      rw [Instr.operands, hrenders.body, Instr.uses_rename, Instr.defs_rename, ← List.map_append]
      exact List.mem_map.mpr ⟨t, hoperand, hrenders.rename_eq hkept⟩
    · obtain ⟨j, hj, hdef⟩ := hrewriting.exists_load_of_delivers hdelivers hspilled
      exact ⟨j, hj, List.mem_append_right _ hdef⟩

/-- The new code delivers the return value if the old code did. -/
theorem delivers_iff : r'.Delivers ↔ r.Delivers := by
  obtain ⟨cells, hrewriting⟩ := h.rewriting
  constructor
  · rintro ⟨hdefines, j, hj, hexit⟩
    rw [Routine.definesResult_eq_true, h.frame] at hdefines
    obtain ⟨i, hi, cell, last, slots, ρ, hrenders, hj⟩ := hrewriting.exists_of_mem hj
    refine ⟨Routine.definesResult_eq_true.mpr (hrewriting.written hdefines), i, hi, ?_⟩
    -- Loads and stores do not jump.
    rcases Cell.eq_body_of_mem_toList hj with ⟨hjumps, -⟩ | rfl
    · rw [hjumps] at hexit
      cases hexit
    · rwa [hrenders.body, Instr.jumps_rename, h.exit] at hexit
  · intro hdelivers
    refine ⟨?_, ?_⟩
    · rw [Routine.definesResult_eq_true, h.frame]
      by_cases hspilled : r.frame.rv ∈ spilled
      · exact hrewriting.exists_load_of_delivers hdelivers hspilled
      · obtain ⟨i, hi, hdef⟩ := Routine.definesResult_eq_true.mp hdelivers.1
        obtain ⟨cell, last, slots, ρ, hrenders, hmem⟩ := hrewriting.exists_cell_of_mem hi
        exact ⟨_, hmem _ cell.body_mem_toList, hrenders.mem_defs_body hspilled hdef⟩
    · obtain ⟨i, hi, hexit⟩ := hdelivers.2
      obtain ⟨cell, last, slots, ρ, hrenders, hmem⟩ := hrewriting.exists_cell_of_mem hi
      refine ⟨_, hmem _ cell.body_mem_toList, ?_⟩
      rwa [hrenders.body, Instr.jumps_rename, h.exit]

/-- A return value that is spilled and delivered is shielded from then on. -/
theorem rv_mem_shielded (hdelivers : r.Delivers) (hspilled : r.frame.rv ∈ spilled) :
    r.frame.rv ∈ shielded := by
  obtain ⟨cells, st, st', -, hrendered, -, -, hshields⟩ := h.rendered
  obtain ⟨hdefines, i, hi, hexit⟩ := hdelivers
  exact hshields _
    (hrendered.rv_mem_shielded hi (leaves_eq_true.mpr ⟨⟨hspilled, hdefines⟩, hexit⟩))

/-- No instruction both jumps and writes if none did before. -/
theorem flow (hflow : ∀ i ∈ r.instrs, i.jumps = [] ∨ i.defs = []) :
    ∀ j ∈ r'.instrs, j.jumps = [] ∨ j.defs = [] := by
  obtain ⟨cells, hrewriting⟩ := h.rewriting
  intro j hj
  obtain ⟨i, hi, cell, last, slots, ρ, hrenders, hj⟩ := hrewriting.exists_of_mem hj
  rcases Cell.eq_body_of_mem_toList hj with ⟨hjumps, -⟩ | rfl
  · exact .inl hjumps
  · rw [hrenders.body, Instr.jumps_rename, Instr.defs_rename, List.map_eq_nil_iff]
    exact hflow i hi

/-- An instruction that reads two temporaries still does so in its cell. -/
theorem readsTwo (htwo : r.ReadsTwo) : r'.ReadsTwo := by
  obtain ⟨cells, hrewriting⟩ := h.rewriting
  obtain ⟨i, hi, t, ht, u, hu, hne⟩ := htwo
  obtain ⟨cell, last, slots, ρ, hrenders, hmem⟩ := hrewriting.exists_cell_of_mem hi
  have huses : cell.body.uses = i.uses.map ρ := by rw [hrenders.body, Instr.uses_rename]
  refine ⟨_, hmem _ cell.body_mem_toList, ρ t, huses ▸ List.mem_map_of_mem ht, ρ u,
    huses ▸ List.mem_map_of_mem hu, fun heq => hne ?_⟩
  exact hrenders.rename_injective (fun _ => h.operands_lt hi) (List.mem_append_left _ ht)
    (List.mem_append_left _ hu) heq

/-- To store what is spilled, its value and the address of its slot are read. -/
theorem readsTwo_of_mem_defs (hi : i ∈ r.instrs) (hdef : t ∈ i.defs) (hspilled : t ∈ spilled) :
    r'.ReadsTwo := by
  obtain ⟨cells, hrewriting⟩ := h.rewriting
  obtain ⟨cell, last, slots, ρ, hrenders, hmem⟩ := hrewriting.exists_cell_of_mem hi
  obtain ⟨a, ha, -, hplace⟩ := hrenders.exists_store (mem_spilledOf.mpr ⟨hdef, hspilled⟩)
  refine ⟨_, hmem _ (Cell.store_mem_toList ha), a.place, List.mem_cons_self, a.address,
    List.mem_cons_of_mem _ (List.mem_singleton_self _), ?_⟩
  rw [hplace]
  exact hrenders.address_ne a (List.mem_append_right _ ha) t
    (mem_spilledOf.mpr ⟨List.mem_append_right _ hdef, hspilled⟩)

/-- What is live at the start was so before, and it is not spilled. -/
theorem mem_before_zero (ht : t ∈ (r'.solution 0).before) :
    t ∈ (r.solution 0).before ∧ t ∉ spilled := by
  obtain ⟨cells, hrewriting⟩ := h.rewriting
  have hasked := FlowGraph.bounded_settle hrewriting.closed_asked 0 t ht
  obtain ⟨j, hj⟩ := Routine.exists_instr_of_mem_before ht
  cases cells with
  | nil =>
      rw [hrewriting.instrs] at hj
      cases hj
  | cons cell cells =>
      have hcell : (cell :: cells)[0]? = some cell := rfl
      exact hrewriting.mem_before_of_asked hcell hasked

end Recasts

end Spill

namespace Program

open Spill

variable {spilled shielded : TempSet}

/-- A round over a program is a round over each of its routines. -/
theorem recasts_of_spillRoutines {base : Nat} {supply : Supply} {rs : List Routine}
    {next : SpilledProgram} (hbase : base ≤ supply.next)
    (hbelow : ∀ r ∈ rs, ∀ t, r.Mentions t → t.number < base)
    (h : (spillRoutines spilled supply shielded rs).outcome = .ok next) :
    List.Forall₂ (Recasts spilled next.shielded base) rs next.program.routines := by
  induction rs generalizing supply shielded next with
  | nil =>
      cases h
      exact .nil
  | cons r rs ih =>
      rw [List.forall_mem_cons] at hbelow
      rw [spillRoutines, Logged.outcome_bind] at h
      obtain ⟨first, hfirst, h⟩ := bind_eq_ok.mp h
      rw [Logged.outcome_bind] at h
      obtain ⟨rest, hrest, h⟩ := bind_eq_ok.mp h
      cases h
      have hplaces := (Routine.places_of_spill hfirst).2.1
      rcases r.spill_cases spilled supply shielded with
        ⟨e, he, -⟩ | ⟨result, cells, st, hresult, hrendered, hroutine, hsupply, hshielded⟩
      · cases hfirst.symm.trans he
      cases hfirst.symm.trans hresult
      have hle : supply.next ≤ first.supply.next := hsupply ▸ hrendered.advances.supply
      -- The routines behind this one only add to what is shielded.
      have hsub : ∀ t ∈ first.shielded, t ∈ rest.shielded := by
        rcases spill_cases spilled first.shielded ⟨rs, first.supply⟩ with
          ⟨e, he, -⟩ | ⟨rest', hrest', hround⟩
        · cases hrest.symm.trans he
        · cases hrest.symm.trans hrest'
          exact fun t ht => hround.subset ht
      refine .cons ⟨hbelow.1, ?_, ?_, hplaces, cells, _, st, hbase, hrendered, ?_, ?_, ?_⟩
        (ih (Nat.le_trans hbase hle) hbelow.2 hrest)
      · rw [hroutine]
      · rw [hroutine]
      · rw [hroutine]
      · rw [hroutine, List.flatMap_def]
      · exact fun t ht => hsub t (hshielded ▸ ht)

/-- A round over a program recasts each of its routines. -/
theorem recasts_of_spill {p : Program} {next : SpilledProgram}
    (hbelow : ∀ r ∈ p.routines, ∀ t, r.Mentions t → t.number < p.supply.next)
    (h : (p.spill spilled shielded).outcome = .ok next) :
    List.Forall₂ (Recasts spilled next.shielded p.supply.next) p.routines
      next.program.routines :=
  recasts_of_spillRoutines (Nat.le_refl _) hbelow h

end Program

end MmixCodegen
