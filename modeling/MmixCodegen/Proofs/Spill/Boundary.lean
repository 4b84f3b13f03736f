import MmixCodegen.Proofs.Flow.Path
import MmixCodegen.Proofs.Spill.Layer
import MmixCodegen.Proofs.Spill.Runs

/-!
# `MmixCodegen.Proofs.Spill.Boundary`: what is live between cells

Spilling pays off because what it makes does not outlive its cell. This module compares the
live sets of a routine with those after spilling, at the places where cells meet. Nothing is
assumed of the flow of control: instructions may jump and write, labels may be set twice, and
the exit label may be set in the code.

The live sets of an analysis are the least that satisfy the equations, so each inclusion is a
bound that the instructions allow. `Rewriting.mem_before_of_mem_before` carries a temporary that
is not spilled through the loads and the stores of the cells. For the other direction `Asks`
follows a cell backwards: what it asks for at its start is what the instruction asked for,
without what is loaded in front of it (`Cell.Renders.of_asks`). The return value is no exception,
since it is loaded wherever a flow graph can see control leave.

`Routine.spill_live_boundary` puts the two together: between cells just the temporaries that were
spilled are gone.
-/

set_option autoImplicit false

namespace MmixCodegen

namespace Routine

variable {r : Routine} {t : Temp} {line next : Nat} {i : Instr}

/-! ### Straight code -/

/-- What is live behind some code that neither jumps nor writes it is live in front of it. -/
theorem mem_before_of_straight {is : List Instr}
    (hlines : ∀ offset i, is[offset]? = some i → r.instrs[line + offset]? = some i)
    (his : ∀ i ∈ is, i.jumps = [] ∧ t ∉ i.defs)
    (ht : t ∈ (r.solution (line + is.length)).before) : t ∈ (r.solution line).before := by
  induction is generalizing line with
  | nil => exact ht
  | cons i is ih =>
      rw [List.forall_mem_cons] at his
      have hi := hlines 0 i rfl
      have hnext : t ∈ (r.solution (line + 1)).before := by
        refine ih (fun offset j hj => ?_) his.2 ?_
        · rw [Nat.add_assoc, Nat.add_comm 1]
          exact hlines (offset + 1) j hj
        · rw [Nat.add_assoc, Nat.add_comm 1]
          exact ht
      obtain ⟨j, hj⟩ := exists_instr_of_mem_before hnext
      have hgoes := (goes_of_straight hi his.1.1).mpr ⟨rfl, (List.getElem?_eq_some_iff.mp hj).1⟩
      exact (mem_before_solution hi).mpr
        (.inr ⟨(mem_after_solution hi).mpr (.inl ⟨_, hgoes, hnext⟩), his.1.2⟩)

/-- An analysis does not change the flow graph, so another one finds the same. -/
theorem solution_analyze (r : Routine) : r.analyze.1.solution = r.solution := by
  have hnodes : (FlowGraph.ofRoutine r.analyze.1).nodes = (FlowGraph.ofRoutine r).nodes := by
    refine List.ext_getElem? fun index => ?_
    simp only [FlowGraph.ofRoutine, List.getElem?_mapIdx, getElem?_analyze, Option.map_map]
    congr 1
    funext i
    exact r.node_withLives r.size_settle index i _
  have hexit : (FlowGraph.ofRoutine r.analyze.1).exitLive = (FlowGraph.ofRoutine r).exitLive :=
    r.exitLive_withLives r.size_settle
  have hgraph : FlowGraph.ofRoutine r.analyze.1 = FlowGraph.ofRoutine r := by
    cases hnew : FlowGraph.ofRoutine r.analyze.1
    cases hold : FlowGraph.ofRoutine r
    rw [hnew, hold] at hnodes hexit
    simp_all
  funext index
  rw [solution, solution, hgraph]

/-- The live sets that an analysis writes down are the solution that it found. -/
theorem live_eq_solution (hi : r.analyze.1.instrs[line]? = some i) :
    i.live = r.analyze.1.solution line := by
  obtain ⟨i', -, rfl⟩ := Option.map_eq_some_iff.mp ((r.getElem?_analyze line).symm.trans hi)
  rw [r.solution_analyze]

/-- What is live before an instruction is an operand of some instruction. -/
theorem number_lt_of_mem_before {base : Nat}
    (hoperands : ∀ i ∈ r.instrs, ∀ t ∈ i.operands, t.number < base)
    (hi : r.analyze.1.instrs[line]? = some i) (ht : t ∈ i.live.before) : t.number < base := by
  obtain ⟨k, hk, hoperand⟩ := exists_operand_of_analyze (List.mem_of_getElem? hi)
    (show t ∈ i.temps by simp [Instr.temps, ht])
  exact hoperands k hk t hoperand

end Routine

namespace Spill

/-! ### What a cell asks for -/

section Asks

variable (next jump : Temp → Prop)

/-- What some code needs at its start, where `next` says what is needed behind it, and `jump`
what is needed where it jumps to. -/
def Asks (t : Temp) : List Instr → Prop
  | [] => next t
  | i :: is => t ∈ i.uses ∨
      (t ∉ i.defs ∧ ((i.jumps = [] ∧ Asks t is) ∨ (i.jumps ≠ [] ∧ jump t)))

variable {next jump} {t x : Temp} {is rest : List Instr}

/-- Code with no other operand than `x` asks for `x` at most, apart from what is asked for
behind it. -/
theorem asks_of_only (h : ∀ i ∈ is, i.Only x) (ht : Asks next jump t (is ++ rest)) :
    t = x ∨ Asks next jump t rest := by
  induction is with
  | nil => exact .inr ht
  | cons i is ih =>
      rw [List.forall_mem_cons] at h
      rcases ht with huse | ⟨-, ⟨-, ht⟩ | ⟨hjumps, -⟩⟩
      · exact .inl (h.1.uses t huse)
      · exact ih h.2 ht
      · exact absurd h.1.jumps hjumps

namespace Access

variable {a : Access}

/-- The address is set before it is read. -/
theorem asks_locate (ht : Asks next jump t (a.locate.map Operation.instr ++ rest)) :
    t ≠ a.address ∧ Asks next jump t rest := by
  have hne : t ≠ a.address := by
    obtain ⟨group, n, os, hlocate⟩ := a.locate_eq_cons
    rw [hlocate] at ht
    rcases ht with huse | ⟨hdef, -⟩
    · cases huse
    · exact fun heq => hdef (List.mem_singleton.mpr heq)
  exact ⟨hne, (asks_of_only only_locate ht).resolve_left hne⟩

/-- In front of a load, its destination is not asked for. -/
theorem asks_load (ht : Asks next jump t (a.load ++ rest)) :
    t ≠ a.place ∧ Asks next jump t rest := by
  rw [load_append] at ht
  obtain ⟨hne, ht⟩ := asks_locate ht
  rcases ht with huse | ⟨hdef, ⟨-, ht⟩ | ⟨hjumps, -⟩⟩
  · exact absurd (List.mem_singleton.mp huse) hne
  · exact ⟨fun heq => hdef (List.mem_singleton.mpr heq), ht⟩
  · exact absurd rfl hjumps

/-- In front of a store, its value is asked for. -/
theorem asks_store (ht : Asks next jump t (a.store ++ rest)) :
    t = a.place ∨ Asks next jump t rest := by
  rw [store_append] at ht
  obtain ⟨hne, ht⟩ := asks_locate ht
  rcases ht with huse | ⟨-, ⟨-, ht⟩ | ⟨hjumps, -⟩⟩
  · rcases List.mem_cons.mp huse with heq | huse
    · exact .inl heq
    · exact absurd (List.mem_singleton.mp huse) hne
  · exact .inr ht
  · exact absurd rfl hjumps

/-- In front of several loads, none of their destinations is asked for. -/
theorem asks_loads {as : List Access} (ht : Asks next jump t (as.flatMap load ++ rest)) :
    t ∉ as.map place ∧ Asks next jump t rest := by
  induction as with
  | nil => exact ⟨List.not_mem_nil, ht⟩
  | cons a as ih =>
      rw [List.flatMap_cons, List.append_assoc] at ht
      obtain ⟨hne, ht⟩ := asks_load ht
      obtain ⟨hothers, ht⟩ := ih ht
      exact ⟨List.not_mem_cons_of_ne_of_not_mem hne hothers, ht⟩

/-- In front of several stores, their values are asked for. -/
theorem asks_stores {as : List Access} (ht : Asks next jump t (as.flatMap store)) :
    t ∈ as.map place ∨ next t := by
  induction as with
  | nil => exact .inr ht
  | cons a as ih =>
      rw [List.flatMap_cons] at ht
      rcases asks_store ht with heq | ht
      · exact .inl (List.mem_cons.mpr (.inl heq))
      · exact (ih ht).imp_left (List.mem_cons_of_mem _)

end Access

end Asks

namespace Cell.Renders

variable {frame : Frame} {spilled : TempSet} {leaving : Bool} {i : Instr} {first last : Nat}
  {slots : SlotTable} {ρ : Temp → Temp} {c : Cell} {t : Temp} {next jump : Temp → Prop}

/-- A cell asks for what its instruction reads, unless it is loaded. What is needed behind the
instruction is not what is stored there, and a return value that has to be loaded was. -/
theorem of_asks (h : c.Renders frame spilled leaving i first last slots ρ)
    (ht : Asks next jump t c.toList) :
    (t ∉ spilled ∧ t ∈ i.uses) ∨
      (t ∉ c.body.defs ∧ (leaving = true → t ≠ frame.rv) ∧
        ((i.jumps = [] ∧ next t) ∨ (i.jumps ≠ [] ∧ jump t))) := by
  obtain ⟨hloaded, ht⟩ := Access.asks_loads ht
  rcases ht with huse | ⟨hdef, hbehind⟩
  · obtain ⟨huse, hkept⟩ := (h.mem_uses huse).resolve_left hloaded
    exact .inl ⟨hkept, huse⟩
  · refine .inr ⟨hdef, fun hleaving heq => ?_, ?_⟩
    · obtain ⟨a, ha, -, hplace⟩ := h.exists_result hleaving
      exact hloaded (List.mem_map.mpr ⟨a, ha, hplace.trans heq.symm⟩)
    · rw [h.body, Instr.jumps_rename] at hbehind
      refine hbehind.imp_left fun hstraight => ⟨hstraight.1, ?_⟩
      rcases Access.asks_stores hstraight.2 with hstored | hnext
      · exact absurd (h.mem_stored hstored).2.2 hdef
      · exact hnext

/-- Loads and stores do not jump, and do not write what is older than the cell. -/
theorem passes_by (h : c.Renders frame spilled leaving i first last slots ρ)
    (hleaving : leaving = true → t ≠ frame.rv) (hold : t.number < first) {j : Instr}
    (hj : j ∈ c.loads.flatMap Access.load ∨ j ∈ c.stores.flatMap Access.store) :
    j.jumps = [] ∧ t ∉ j.defs := by
  have haccessed : t ∉ c.accessed := by
    intro hmem
    rcases h.mem_accessed hmem with hnew | ⟨hleaves, heq⟩
    · omega
    · exact hleaving hleaves heq
  rcases hj with hj | hj
  · refine ⟨?_, fun hdef => haccessed (mem_accessed_of_loads hj (List.mem_append_right _ hdef))⟩
    obtain ⟨a, -, hj⟩ := List.mem_flatMap.mp hj
    exact (Access.straight (.inl hj)).2.1
  · refine ⟨?_, fun hdef => haccessed (mem_accessed_of_stores hj (List.mem_append_right _ hdef))⟩
    obtain ⟨a, -, hj⟩ := List.mem_flatMap.mp hj
    exact (Access.straight (.inr hj)).2.1

/-- What the instruction did not write it does not write in its cell. -/
theorem notMem_defs_body (h : c.Renders frame spilled leaving i first last slots ρ)
    (hold : t.number < first) (hdef : t ∉ i.defs) : t ∉ c.body.defs := by
  intro hmem
  rcases h.mem_defs hmem with hstored | ⟨hkept, -⟩
  · have hnew := (h.mem_stored hstored).1
    omega
  · exact hdef hkept

/-- What the instruction wrote it still writes in its cell, unless it is spilled. -/
theorem mem_defs_body (h : c.Renders frame spilled leaving i first last slots ρ)
    (hspilled : t ∉ spilled) (hdef : t ∈ i.defs) : t ∈ c.body.defs := by
  rw [h.body, Instr.defs_rename]
  exact List.mem_map.mpr ⟨t, hdef, h.rename_eq hspilled⟩

end Cell.Renders

/-! ### The code after spilling -/

/-- The code of `r'` consists of the cells of the instructions of `r`. What is made for them has
numbers from `base` on. -/
structure Rewriting (r r' : Routine) (spilled : TempSet) (base : Nat)
    (cells : List Cell) : Prop where
  frame : r'.frame = r.frame
  exit : r'.exit = r.exit
  instrs : r'.instrs = (cells.map Cell.toList).flatten
  rendered : List.Forall₂ (fun i cell => ∃ last slots ρ, Cell.Renders r.frame spilled
    (leaves spilled r i) i base last slots ρ cell) r.instrs cells
  rv : r.frame.rv.number < base

/-- Each instruction of rendered code has a cell that renders it. -/
theorem Rendered.renders {r : Routine} {spilled : TempSet} {is : List Instr} {cells : List Cell}
    {st st' : State} (h : Rendered spilled r is cells st st') {base : Nat}
    (hbase : base ≤ st.supply.next) :
    List.Forall₂ (fun i cell => ∃ last slots ρ, Cell.Renders r.frame spilled
      (leaves spilled r i) i base last slots ρ cell) is cells := by
  induction h with
  | nil st => exact .nil
  | @cons i is cell cells st mid st' ρ hrenders hadvances hrest ih =>
      have hwide := hrenders.mono hbase (Nat.le_refl _) fun _ _ hoffset => hoffset
      exact .cons ⟨_, _, ρ, hwide⟩ (ih (Nat.le_trans hbase hadvances.supply))

/-- The blocks of a routine rewrite it. -/
theorem rewriting_of_blocks {r r' : Routine} {spilled : TempSet} {bs : List Block} {st st' : State}
    (h : blocks spilled r r.instrs st = .ok (bs, st'))
    (hr' : r' = { r with instrs := bs.flatMap Block.toList, slots := st'.slots })
    (hrv : r.frame.rv.number < st.supply.next) :
    ∃ cells, bs.map Block.toList = cells.map Cell.toList ∧
      Rewriting r r' spilled st.supply.next cells := by
  obtain ⟨cells, hcells, hrendered⟩ := rendered_of_blocks h
  refine ⟨cells, hcells, by rw [hr'], by rw [hr'], ?_, hrendered.renders (Nat.le_refl _), hrv⟩
  rw [hr', List.flatMap_def, hcells]

/-- A block is not empty, so there is a line where it begins. -/
theorem exists_first_line {bs : List Block} {index : Nat} (hlt : index < bs.length) :
    ∃ b first rest, bs[index]? = some b ∧ b.toList = first :: rest ∧
      (bs.flatMap Block.toList)[Layout.start (bs.map Block.toList) index]? = some first := by
  have hne : bs[index].toList ≠ [] := by simp [Block.toList]
  obtain ⟨first, rest, hfirst⟩ := List.exists_cons_of_ne_nil hne
  have hb := List.getElem?_eq_getElem hlt
  refine ⟨_, first, rest, hb, hfirst, ?_⟩
  rw [List.flatMap_def]
  exact Layout.getElem?_flatten_start (by rw [List.getElem?_map, hb, Option.map_some, hfirst])

namespace Rewriting

variable {r r' : Routine} {spilled : TempSet} {base : Nat} {cells : List Cell} {cell : Cell}
  {index last : Nat} {i j : Instr} {slots : SlotTable} {ρ : Temp → Temp} {t : Temp}

/-- Each instruction has a cell in its place. -/
theorem exists_cell (h : Rewriting r r' spilled base cells) (hi : r.instrs[index]? = some i) :
    ∃ cell last slots ρ, cells[index]? = some cell ∧
      Cell.Renders r.frame spilled (leaves spilled r i) i base last slots ρ cell := by
  obtain ⟨cell, hcell, last, slots, ρ, hrenders⟩ := Layout.exists_getElem?_of_forall₂ h.rendered hi
  exact ⟨cell, last, slots, ρ, hcell, hrenders⟩

/-- Each cell has an instruction in its place. -/
theorem exists_instr (h : Rewriting r r' spilled base cells) (hcell : cells[index]? = some cell) :
    ∃ i last slots ρ, r.instrs[index]? = some i ∧
      Cell.Renders r.frame spilled (leaves spilled r i) i base last slots ρ cell := by
  obtain ⟨i, hi, last, slots, ρ, hrenders⟩ :=
    Layout.exists_getElem?_of_forall₂ h.rendered.flip hcell
  exact ⟨i, last, slots, ρ, hi, hrenders⟩

/-- The code of a cell stands where the cell begins. -/
theorem getElem?_line (h : Rewriting r r' spilled base cells) (hcell : cells[index]? = some cell)
    {offset : Nat} (hj : cell.toList[offset]? = some j) :
    r'.instrs[Layout.start (cells.map Cell.toList) index + offset]? = some j := by
  rw [h.instrs]
  exact Layout.getElem?_flatten_add (by simp [hcell]) hj

/-- A label is set where the cell of the instruction that set it begins. -/
theorem labelIndex?_eq (h : Rewriting r r' spilled base cells) (l : Label) :
    Flow.labelIndex? l r'.instrs =
      (Flow.labelIndex? l r.instrs).map (Layout.start (cells.map Cell.toList)) := by
  rw [h.instrs]
  exact Translation.labelIndex?_cells h.rendered l

/-- Loads and stores write the return value only if it was written before. -/
theorem written (h : Rewriting r r' spilled base cells)
    (hwritten : ∃ j ∈ r'.instrs, r.frame.rv ∈ j.defs) : ∃ i ∈ r.instrs, r.frame.rv ∈ i.defs := by
  obtain ⟨j, hj, hdef⟩ := hwritten
  rw [h.instrs, List.mem_flatten] at hj
  obtain ⟨_, hpart, hj⟩ := hj
  obtain ⟨cell, hcell, rfl⟩ := List.mem_map.mp hpart
  obtain ⟨index, hcell⟩ := List.getElem?_of_mem hcell
  obtain ⟨i, last, slots, ρ, hi, hrenders⟩ := h.exists_instr hcell
  by_contra hnone
  -- Then nothing is loaded for the exit.
  have hleaves : leaves spilled r i = true → r.frame.rv ≠ r.frame.rv := by
    intro hleaves
    have hdefines := (leaves_eq_true.mp hleaves).1.2
    exact absurd (by simpa [Routine.definesResult] using hdefines) hnone
  rw [Cell.toList, List.mem_append, List.mem_cons] at hj
  rcases hj with hj | rfl | hj
  · exact (hrenders.passes_by hleaves h.rv (.inl hj)).2 hdef
  · have hkept : r.frame.rv ∉ i.defs := fun hmem => hnone ⟨i, List.mem_of_getElem? hi, hmem⟩
    exact hrenders.notMem_defs_body h.rv hkept hdef
  · exact (hrenders.passes_by hleaves h.rv (.inr hj)).2 hdef

/-- The routine returns from the same instructions, as far as a flow graph can see. -/
theorem returns_iff (h : Rewriting r r' spilled base cells)
    (hrenders : Cell.Renders r.frame spilled (leaves spilled r i) i base last slots ρ cell) :
    (r'.Returns cell.body → r.Returns i) ∧
      (r.frame.rv ∉ spilled → r.Returns i → r'.Returns cell.body) := by
  have hjumps : cell.body.jumps = i.jumps := by rw [hrenders.body, Instr.jumps_rename]
  have hunset : ∀ l, (∀ j ∈ r'.instrs, j.label? ≠ some l) ↔ ∀ j ∈ r.instrs, j.label? ≠ some l := by
    intro l
    rw [← Flow.labelIndex?_eq_none, ← Flow.labelIndex?_eq_none, h.labelIndex?_eq,
      Option.map_eq_none_iff]
  constructor
  · intro hreturns
    have hwritten := hreturns.written
    have hexit := hreturns.jumps
    have hlabel := hreturns.unset
    rw [h.frame] at hwritten
    rw [h.exit, hjumps] at hexit
    rw [h.exit, hunset] at hlabel
    exact ⟨h.written hwritten, hexit, hlabel⟩
  · intro hkept hreturns
    refine ⟨?_, ?_, ?_⟩
    · -- What writes the return value still does.
      obtain ⟨k, hk, hdef⟩ := hreturns.written
      obtain ⟨index, hk⟩ := List.getElem?_of_mem hk
      obtain ⟨cell, last, slots, ρ, hcell, hrenders⟩ := h.exists_cell hk
      refine ⟨cell.body, ?_, ?_⟩
      · rw [h.instrs, List.mem_flatten]
        exact ⟨_, List.mem_map_of_mem (List.mem_of_getElem? hcell), by simp [Cell.toList]⟩
      · rw [h.frame]
        exact hrenders.mem_defs_body hkept hdef
    · rw [h.exit, hjumps]
      exact hreturns.jumps
    · rw [h.exit, hunset]
      exact hreturns.unset

/-! ### Nothing is lost -/

/-- A temporary that is older than the cells and not spilled is live before a cell if its
instruction asks for it. -/
theorem carries (h : Rewriting r r' spilled base cells) (hi : r.instrs[index]? = some i)
    (hspilled : t ∉ spilled) (hold : t.number < base)
    (hasks : t ∈ i.uses ∨
      (((∃ next, r.Goes index next ∧
          t ∈ (r'.solution (Layout.start (cells.map Cell.toList) next)).before) ∨
        (t = r.frame.rv ∧ r.Returns i)) ∧ t ∉ i.defs)) :
    t ∈ (r'.solution (Layout.start (cells.map Cell.toList) index)).before := by
  obtain ⟨cell, last, slots, ρ, hcell, hrenders⟩ := h.exists_cell hi
  have hleaves : leaves spilled r i = true → t ≠ r.frame.rv := by
    rintro hleaves rfl
    exact hspilled (leaves_eq_true.mp hleaves).1.1
  have hjumps : cell.body.jumps = i.jumps := by rw [hrenders.body, Instr.jumps_rename]
  -- The instruction itself stands behind its loads.
  have hbody : r'.instrs[Layout.start (cells.map Cell.toList) index +
      (cell.loads.flatMap Access.load).length]? = some cell.body :=
    h.getElem?_line hcell (by simp [Cell.toList])
  refine Routine.mem_before_of_straight (fun offset j hj => h.getElem?_line hcell ?_)
    (fun j hj => hrenders.passes_by hleaves hold (.inl hj))
    ((Routine.mem_before_solution hbody).mpr ?_)
  · rw [Cell.toList, List.getElem?_append_left (List.getElem?_eq_some_iff.mp hj).1]
    exact hj
  rcases hasks with huse | ⟨hbehind, hdef⟩
  · left
    rw [hrenders.body, Instr.uses_rename]
    exact List.mem_map.mpr ⟨t, huse, hrenders.rename_eq hspilled⟩
  · right
    refine ⟨(Routine.mem_after_solution hbody).mpr ?_, hrenders.notMem_defs_body hold hdef⟩
    rcases hbehind with ⟨next, hgoes, ht⟩ | ⟨rfl, hreturns⟩
    · left
      by_cases hstraight : i.jumps = []
      · -- Control goes through the stores to the next cell.
        obtain ⟨rfl, -⟩ := (Routine.goes_of_straight hi hstraight).mp hgoes
        have hbehind : t ∈ (r'.solution (Layout.start (cells.map Cell.toList) index +
            (cell.loads.flatMap Access.load).length + 1)).before := by
          refine Routine.mem_before_of_straight (fun offset j hj => ?_)
            (fun j hj => hrenders.passes_by hleaves hold (.inr hj)) ?_
          · rw [Nat.add_assoc, Nat.add_assoc]
            refine h.getElem?_line hcell ?_
            rw [Cell.toList, List.getElem?_append_right (Nat.le_add_right _ _),
              Nat.add_sub_cancel_left, Nat.add_comm 1, List.getElem?_cons_succ]
            exact hj
          · have hpart : (cells.map Cell.toList)[index]? = some cell.toList := by simp [hcell]
            rw [Layout.start_succ hpart] at ht
            simpa [Cell.toList, Nat.add_assoc, Nat.add_comm 1] using ht
        obtain ⟨j, hj⟩ := Routine.exists_instr_of_mem_before hbehind
        exact ⟨_, (Routine.goes_of_straight hbody (hjumps.trans hstraight)).mpr
          ⟨rfl, (List.getElem?_eq_some_iff.mp hj).1⟩, hbehind⟩
      · obtain ⟨l, hl, hlabel⟩ := (Routine.goes_of_jump hi hstraight).mp hgoes
        refine ⟨_, (Routine.goes_of_jump hbody (hjumps ▸ hstraight)).mpr ⟨l, hjumps ▸ hl, ?_⟩, ht⟩
        rw [h.labelIndex?_eq, hlabel]
        rfl
    · right
      rw [h.frame]
      exact ⟨rfl, (h.returns_iff hrenders).2 hspilled hreturns⟩

/-- What was live before an instruction is live where its cell begins, unless it is spilled. -/
theorem mem_before_of_mem_before (h : Rewriting r r' spilled base cells)
    (ht : t ∈ (r.solution index).before) (hspilled : t ∉ spilled) (hold : t.number < base) :
    t ∈ (r'.solution (Layout.start (cells.map Cell.toList) index)).before := by
  have hclosed : (FlowGraph.ofRoutine r).Closed fun index t => t ∉ spilled → t.number < base →
      t ∈ (r'.solution (Layout.start (cells.map Cell.toList) index)).before := by
    refine Routine.closed_of_steps fun index i t hi hasks hspilled hold => ?_
    refine h.carries hi hspilled hold (hasks.imp_right fun hbehind => ⟨?_, hbehind.2⟩)
    refine hbehind.1.imp_left fun hgoes => ?_
    obtain ⟨next, hgoes, ht⟩ := hgoes
    exact ⟨next, hgoes, ht hspilled hold⟩
  exact FlowGraph.bounded_settle hclosed index t ht hspilled hold

/-! ### Nothing is added -/

/-- What is needed behind a cell that control leaves at its end. -/
def NeededNext (r : Routine) (spilled : TempSet) (index : Nat) (t : Temp) : Prop :=
  t ∈ (r.solution (index + 1)).before ∧ t ∉ spilled

/-- What is needed where a cell jumps to. Of the spilled temporaries this is the return value
alone, in front of the exit. -/
def NeededAhead (r : Routine) (spilled : TempSet) (index : Nat) (t : Temp) : Prop :=
  t ∈ (r.solution index).after ∧ (t ∈ spilled → t = r.frame.rv ∧
    ∀ i, r.instrs[index]? = some i → leaves spilled r i = true)

/-- What may be live at a line: what the rest of its cell asks for. -/
def Asked (r : Routine) (spilled : TempSet) (cells : List Cell) (line : Nat) (t : Temp) : Prop :=
  ∀ index cell offset, cells[index]? = some cell → offset < cell.toList.length →
    line = Layout.start (cells.map Cell.toList) index + offset →
      Asks (NeededNext r spilled index) (NeededAhead r spilled index) t (cell.toList.drop offset)

/-- What may be live where a cell begins was live before its instruction, and is not spilled. -/
theorem mem_before_of_asked (h : Rewriting r r' spilled base cells)
    (hcell : cells[index]? = some cell)
    (ht : Asked r spilled cells (Layout.start (cells.map Cell.toList) index) t) :
    t ∈ (r.solution index).before ∧ t ∉ spilled := by
  obtain ⟨i, last, slots, ρ, hi, hrenders⟩ := h.exists_instr hcell
  have hasks := ht index cell 0 hcell (by simp [Cell.toList]) rfl
  rw [List.drop_zero] at hasks
  rcases hrenders.of_asks hasks with ⟨hkept, huse⟩ | ⟨hdefs, hrv, ⟨hjumps, hnext, hkept⟩ |
    ⟨hjumps, hafter, hresult⟩⟩
  · exact ⟨(Routine.mem_before_solution hi).mpr (.inl huse), hkept⟩
  · obtain ⟨j, hj⟩ := Routine.exists_instr_of_mem_before hnext
    have hgoes := (Routine.goes_of_straight hi hjumps).mpr
      ⟨rfl, (List.getElem?_eq_some_iff.mp hj).1⟩
    have hafter := (Routine.mem_after_solution hi).mpr (.inl ⟨_, hgoes, hnext⟩)
    have hdef : t ∉ i.defs := fun hmem => hdefs (hrenders.mem_defs_body hkept hmem)
    exact ⟨(Routine.mem_before_solution hi).mpr (.inr ⟨hafter, hdef⟩), hkept⟩
  · -- A spilled return value would have been loaded in this cell.
    have hkept : t ∉ spilled := by
      intro hspilled
      obtain ⟨heq, hleaves⟩ := hresult hspilled
      exact hrv (hleaves i hi) heq
    have hdef : t ∉ i.defs := fun hmem => hdefs (hrenders.mem_defs_body hkept hmem)
    exact ⟨(Routine.mem_before_solution hi).mpr (.inr ⟨hafter, hdef⟩), hkept⟩

/-- What may be live behind a line that does not jump is what the rest of its cell asks for. -/
theorem asks_of_next (h : Rewriting r r' spilled base cells) (hcell : cells[index]? = some cell)
    {offset : Nat} (hlt : offset < cell.toList.length)
    (hline : Layout.start (cells.map Cell.toList) index + offset + 1 < r'.instrs.length)
    (ht : Asked r spilled cells (Layout.start (cells.map Cell.toList) index + offset + 1) t) :
    Asks (NeededNext r spilled index) (NeededAhead r spilled index) t
      (cell.toList.drop (offset + 1)) := by
  by_cases hlast : offset + 1 < cell.toList.length
  · exact ht index cell (offset + 1) hcell hlast (by omega)
  · -- The line is the last one of its cell, so another cell begins behind it.
    have hpart : (cells.map Cell.toList)[index]? = some cell.toList := by simp [hcell]
    have hstart : Layout.start (cells.map Cell.toList) index + offset + 1 =
        Layout.start (cells.map Cell.toList) (index + 1) := by
      rw [Layout.start_succ hpart]
      omega
    rw [hstart] at ht hline
    rw [h.instrs] at hline
    obtain ⟨part, hnext⟩ := Layout.exists_next_part hline
    rw [List.getElem?_map] at hnext
    obtain ⟨cell', hcell', -⟩ := Option.map_eq_some_iff.mp hnext
    rw [List.drop_of_length_le (Nat.le_of_not_lt hlast)]
    exact h.mem_before_of_asked hcell' ht

/-- What a jump needs was needed by the jump before. -/
theorem neededAhead (h : Rewriting r r' spilled base cells) (hi : r.instrs[index]? = some i)
    (hrenders : Cell.Renders r.frame spilled (leaves spilled r i) i base last slots ρ cell)
    {line : Nat} (hbody : r'.instrs[line]? = some cell.body) (hjumps : cell.body.jumps ≠ [])
    (hbehind : (∃ next, r'.Goes line next ∧ Asked r spilled cells next t) ∨
      (t = r'.frame.rv ∧ r'.Returns cell.body)) : NeededAhead r spilled index t := by
  have hsame : cell.body.jumps = i.jumps := by rw [hrenders.body, Instr.jumps_rename]
  -- A jump leads to a label, whose cell says what is asked for there, or to the exit.
  rcases hbehind with ⟨next, hgoes, ht⟩ | ⟨hrv, hreturns⟩
  · obtain ⟨l, hl, hlabel⟩ := (Routine.goes_of_jump hbody hjumps).mp hgoes
    rw [h.labelIndex?_eq] at hlabel
    obtain ⟨target, htarget, rfl⟩ := Option.map_eq_some_iff.mp hlabel
    obtain ⟨k, hk, -⟩ := Flow.label?_of_labelIndex? htarget
    obtain ⟨cell', -, -, -, hcell', -⟩ := h.exists_cell hk
    obtain ⟨hlive, hkept⟩ := h.mem_before_of_asked hcell' ht
    have hgoes := (Routine.goes_of_jump hi (hsame ▸ hjumps)).mpr ⟨l, hsame ▸ hl, htarget⟩
    exact ⟨(Routine.mem_after_solution hi).mpr (.inl ⟨target, hgoes, hlive⟩),
      fun hspilled => absurd hspilled hkept⟩
  · rw [h.frame] at hrv
    have hold := (h.returns_iff hrenders).1 hreturns
    refine ⟨(Routine.mem_after_solution hi).mpr (.inr ⟨hrv, hold⟩), fun hspilled => ⟨hrv, ?_⟩⟩
    intro i' hi'
    rw [hi, Option.some.injEq] at hi'
    have hdefines : r.definesResult = true := by
      simpa [Routine.definesResult] using hold.written
    exact leaves_eq_true.mpr ⟨⟨hrv ▸ hspilled, hdefines⟩, hi' ▸ hold.jumps⟩

/-- The lines ask for nothing else. -/
theorem closed_asked (h : Rewriting r r' spilled base cells) :
    (FlowGraph.ofRoutine r').Closed (Asked r spilled cells) := by
  refine Routine.closed_of_steps ?_
  intro line j t hj hasks index cell offset hcell hlt hline
  subst hline
  obtain ⟨i, last, slots, ρ, hi, hrenders⟩ := h.exists_instr hcell
  have hhere := h.getElem?_line hcell (List.getElem?_eq_getElem hlt)
  rw [hj, Option.some.injEq] at hhere
  rw [List.drop_eq_getElem_cons hlt, ← hhere]
  rcases hasks with huse | ⟨hbehind, hdef⟩
  · exact .inl huse
  · refine .inr ⟨hdef, ?_⟩
    by_cases hjumps : j.jumps = []
    · left
      refine ⟨hjumps, ?_⟩
      rcases hbehind with ⟨next, hgoes, ht⟩ | ⟨-, hreturns⟩
      · obtain ⟨rfl, hnext⟩ := (Routine.goes_of_straight hj hjumps).mp hgoes
        exact h.asks_of_next hcell hlt hnext ht
      · have hexit := hreturns.jumps
        rw [hjumps] at hexit
        cases hexit
    · right
      refine ⟨hjumps, ?_⟩
      have hmem : j ∈ cell.toList := hhere ▸ List.getElem_mem hlt
      -- Loads and stores do not jump.
      have hbody : j = cell.body :=
        (Cell.eq_body_of_mem_toList hmem).resolve_left fun hstraight => hjumps hstraight.1
      subst hbody
      exact h.neededAhead hi hrenders hj hjumps hbehind

/-- Between cells just the spilled temporaries are gone. -/
theorem before_eq (h : Rewriting r r' spilled base cells) (hi : r.instrs[index]? = some i)
    (hold : ∀ t ∈ (r.solution index).before, t.number < base) :
    (r'.solution (Layout.start (cells.map Cell.toList) index)).before =
      (r.solution index).before \ spilled := by
  obtain ⟨cell, -, -, -, hcell, -⟩ := h.exists_cell hi
  refine Std.ExtTreeSet.ext_mem fun t => ?_
  rw [Std.ExtTreeSet.mem_diff_iff]
  constructor
  · intro ht
    exact h.mem_before_of_asked hcell (FlowGraph.bounded_settle h.closed_asked _ t ht)
  · intro ht
    exact h.mem_before_of_mem_before ht.1 ht.2 (hold t ht.1)

end Rewriting

end Spill

namespace Routine

open Spill

/-- Spilling from an analyzed routine succeeds if there is room. The code consists of the blocks of
the instructions, and then what an analysis finds to be live where a block begins is what was live
before the instruction, without the spilled temporaries. So neither these, the return value
included, nor anything that spilling makes is live between blocks. -/
theorem spill_live_boundary (r : Routine) (spilled shielded : TempSet) (supply : Supply)
    (hoperands : ∀ i ∈ r.instrs, ∀ t ∈ i.operands, t.number < supply.next)
    (hrv : r.frame.rv.number < supply.next) :
    let old := r.analyze.1
    (∃ e, (old.spill spilled supply shielded).outcome = .error e ∧ e.Exhausted ∧
      ¬Room old.frame (demand old.instrs) ⟨supply, shielded, old.slots⟩) ∨
      ∃ result bs st, (old.spill spilled supply shielded).outcome = .ok result ∧
        blocks spilled old old.instrs ⟨supply, shielded, old.slots⟩ = .ok (bs, st) ∧
        result.routine.instrs = bs.flatMap Block.toList ∧ bs.length = old.instrs.length ∧
        ∀ index i, old.instrs[index]? = some i → ∃ b first rest j, bs[index]? = some b ∧
          b.toList = first :: rest ∧
          result.routine.analyze.1.instrs[Layout.start (bs.map Block.toList) index]? = some j ∧
          j.kind = first.kind ∧ j.live.before = i.live.before \ spilled ∧
          ∀ t ∈ j.live.before, t ∉ spilled ∧ t.number < supply.next := by
  intro old
  rcases old.spill_blocks spilled supply shielded with hfails | ⟨result, bs, st, hok, hblocks,
    hroutine, -⟩
  · exact .inl hfails
  right
  obtain ⟨cells, hcells, hrewriting⟩ := rewriting_of_blocks hblocks hroutine hrv
  have hinstrs : result.routine.instrs = bs.flatMap Block.toList := by rw [hroutine]
  have hlength : bs.length = old.instrs.length := by
    have hsame := congrArg List.length hcells
    rw [List.length_map, List.length_map] at hsame
    exact hsame.trans hrewriting.rendered.length_eq.symm
  refine ⟨result, bs, st, hok, hblocks, hinstrs, hlength, fun index i hi => ?_⟩
  have hlt := (List.getElem?_eq_some_iff.mp hi).1
  obtain ⟨b, first, rest, hb, hfirst, hline⟩ := exists_first_line (hlength ▸ hlt)
  have hold : ∀ t ∈ i.live.before, t.number < supply.next :=
    fun t ht => number_lt_of_mem_before hoperands hi ht
  have hbefore := hrewriting.before_eq hi (live_eq_solution hi ▸ hold)
  rw [← hcells, ← live_eq_solution hi] at hbefore
  refine ⟨b, first, rest, { first with live := result.routine.solution _ }, hb, hfirst, ?_, rfl,
    hbefore, fun t ht => ?_⟩
  · rw [getElem?_analyze, hinstrs, hline]
    rfl
  · replace ht : t ∈ i.live.before \ spilled := hbefore ▸ ht
    rw [Std.ExtTreeSet.mem_diff_iff] at ht
    exact ⟨ht.2, hold t ht.1⟩

/-- When the return value and what the loop adds are spilled, the sum is still live where the block
of the branch begins, and what it adds is not. -/
theorem accumulate_live_boundary :
    let old := accumulate.analyze.1
    let spilled := TempSet.ofList [⟨1⟩, ⟨3⟩]
    ∃ (result : SpilledRoutine) (line : Nat) (j : Instr),
      (old.spill spilled ⟨4⟩ ∅).outcome = .ok result ∧
      result.routine.analyze.1.instrs[line]? = some j ∧ ⟨3⟩ ∈ (accumulate.solution 2).before ∧
      ⟨2⟩ ∈ j.live.before ∧ ⟨3⟩ ∉ j.live.before := by
  intro old spilled
  have hok : (old.spill spilled ⟨4⟩ ∅).outcome.isOk = true := by decide +kernel
  have hbranch : old.instrs[2]? = some ⟨.oper "BNZ `s0,loop" [⟨2⟩] [] [⟨"loop"⟩, ⟨"done"⟩],
      accumulate.solution 2⟩ := accumulate.getElem?_analyze 2
  rcases spill_live_boundary accumulate spilled ∅ ⟨4⟩ (by decide) (by decide) with
    ⟨e, he, -⟩ | ⟨result, bs, st, hresult, -, -, -, hboundary⟩
  · rw [he] at hok
    cases hok
  · obtain ⟨b, first, rest, j, -, -, hj, -, hbefore, hgone⟩ := hboundary 2 _ hbranch
    refine ⟨result, _, j, hresult, hj, by decide +kernel, ?_, fun hmem => ?_⟩
    · rw [hbefore, Std.ExtTreeSet.mem_diff_iff]
      exact ⟨by decide +kernel, by decide +kernel⟩
    · exact (hgone _ hmem).1 (by decide +kernel)

end Routine

end MmixCodegen
