import MmixCodegen.Proofs.Layout
import MmixCodegen.Proofs.Spill.Related

/-!
# `MmixCodegen.Proofs.Spill.Runs`: spilling keeps what a routine does

The code of a routine after spilling has one part for each instruction from before, the
code of its cell. `Spill.Matches` relates states of the two machines: the one with the
spilled code is where the part of the next instruction begins, and what there is is
`Related`. `Spill.Translation.carriesOut` runs through one part: its loads, the
instruction itself, which finds the same values and takes the same jump, and its stores.

`Routine.spill_preserves_meaning` puts this together for a routine and for runs of any
length. When control has gone to the exit, the return value is in its own temporary, even
if it was spilled.
-/

set_option autoImplicit false

namespace MmixCodegen

open Mmix (Core Hidden)

/-- What can be seen of an operation that was carried out: its template, the values that
it read and the jump that it took. -/
def Occurrence.visible {V H : Type} (o : Occurrence V H) : String × List V × Option Label :=
  (o.template, o.operands, o.jump)

namespace Spill

variable {E : Type} {m : Meaning Word (Hidden E)} {w : Mmix.World E} {r : Routine}
  {spilled : TempSet} {first last : Nat} {slots : SlotTable} {X : Word → Prop}

/-- The machine with the spilled code does what the one with the code from before does. -/
structure Matches (r : Routine) (spilled : TempSet) (first last : Nat) (slots : SlotTable)
    (X : Word → Prop) (parts : List (List Instr)) (s s' : Machine.State Temp Word (Hidden E)) :
    Prop where
  place : s'.place = Layout.place parts s.place
  related : Related spilled first last slots X ⟨s.store, s.hidden⟩ ⟨s'.store, s'.hidden⟩
  /-- Behind the exit, the return value is in its own temporary. -/
  result : s.place = .left r.exit → (r.frame.rv ∈ spilled → r.definesResult = true) →
    s'.store r.frame.rv = s.store r.frame.rv

/-- A part of the code carries out an instruction: somewhere in it, an instruction with the
same template finds the same values and takes the same jump. -/
def CarriesOut (m : Meaning Word (Hidden E)) (r r' : Routine) (i : Instr) (part : List Instr)
    (s s' : Machine.State Temp Word (Hidden E)) : Prop :=
  ∃ before body after, part = before ++ body :: after ∧ body.template = i.template ∧
    let ready := (Machine.run m r'.effects s' before.length).1
    (∃ index, ready.place = .line index ∧ r'.instrs[index]? = some body) ∧
      body.uses.map ready.store = i.uses.map s.store ∧
      (Machine.step m r'.effects ready).2.map Occurrence.visible =
        (Machine.step m r.effects s).2.map Occurrence.visible

/-- The code of `r'` consists of the cells of the instructions of `r`. -/
structure Translation (r r' : Routine) (spilled : TempSet) (first last : Nat)
    (slots : SlotTable) (cells : List Cell) : Prop where
  served : List.Forall₂ (fun i cell => ∃ ρ, Cell.Serves r.frame spilled (leaves spilled r i) i
    first last slots ρ cell) r.instrs cells
  instrs : r'.instrs = (cells.map Cell.toList).flatten
  flow : ∀ i ∈ r.instrs, i.jumps = [] ∨ i.defs = []

/-- The code of an access sets no label. -/
theorem label?_access {a : Access} {i : Instr} (h : i ∈ a.load ∨ i ∈ a.store) :
    i.label? = none := by
  obtain ⟨o, -, rfl⟩ := Access.mem_code h
  rfl

namespace Translation

variable {r' : Routine} {cells : List Cell} {index : Nat} {i : Instr} {cell : Cell}
  {ρ : Temp → Temp} {s s' : Machine.State Temp Word (Hidden E)}

/-- Each instruction has a cell in its place that serves it. -/
theorem getElem?_cells (h : Translation r r' spilled first last slots cells)
    (hi : r.instrs[index]? = some i) : ∃ cell ρ, cells[index]? = some cell ∧
      Cell.Serves r.frame spilled (leaves spilled r i) i first last slots ρ cell := by
  obtain ⟨cell, hcell, ρ, hserves⟩ := Layout.exists_getElem?_of_forall₂ h.served hi
  exact ⟨cell, ρ, hcell, hserves⟩

/-- The part of an instruction that sets a label sets it, and the other parts set none. -/
theorem keeps_label (hrenders : Cell.Renders r.frame spilled (leaves spilled r i) i first last
    slots ρ cell) (l : Label) :
    Layout.Keeps (fun i : Instr => i.label? = some l) (fun i : Instr => i.label? = some l) i
      cell.toList := by
  have hbody : cell.body.label? = i.label? := by rw [hrenders.body, Instr.label?_rename]
  rw [Layout.Keeps]
  split
  · next hl =>
      -- A label has no operands and does not jump, so there is nothing around it.
      obtain ⟨l', hkind⟩ : ∃ l', i.kind = .label l' := by
        cases hkind : i.kind with
        | label l' => exact ⟨l', rfl⟩
        | _ => simp [Instr.label?, hkind] at hl
      have huses : i.uses = [] := by simp [Instr.uses, hkind]
      have hdefs : i.defs = [] := by simp [Instr.defs, hkind]
      have hleaves : leaves spilled r i = false := by simp [leaves, Instr.jumps, hkind]
      have hloads : cell.loads = [] := by
        have hloads := hrenders.loads
        rw [huses, hleaves] at hloads
        exact List.map_eq_nil_iff.mp hloads
      have hstores : cell.stores = [] := by
        have hstores := hrenders.stores
        rw [hdefs] at hstores
        exact List.map_eq_nil_iff.mp hstores
      refine ⟨cell.body, ?_, ?_⟩
      · rw [Cell.toList, hloads, hstores]
        rfl
      · rw [hbody]
        exact hl
  · next hl =>
      intro j hj
      rcases List.mem_append.mp hj with hj | hj
      · obtain ⟨a, -, hj⟩ := List.mem_flatMap.mp hj
        simp [label?_access (.inl hj)]
      · rcases List.mem_cons.mp hj with rfl | hj
        · rw [hbody]
          simpa using hl
        · obtain ⟨a, -, hj⟩ := List.mem_flatMap.mp hj
          simp [label?_access (.inr hj)]

/-- A label is found where its cell begins. -/
theorem labelIndex?_cells {is : List Instr} (h : List.Forall₂ (fun i cell => ∃ last slots ρ,
      Cell.Renders r.frame spilled (leaves spilled r i) i first last slots ρ cell) is cells)
    (l : Label) :
    Flow.labelIndex? l (cells.map Cell.toList).flatten =
      (Flow.labelIndex? l is).map (Layout.start (cells.map Cell.toList)) := by
  refine Layout.lastIndex?_flatten (List.forall₂_map_right_iff.mpr (h.imp fun i cell hcell => ?_))
  obtain ⟨last, slots, ρ, hrenders⟩ := hcell
  exact keeps_label hrenders l

/-- A jump leads to where the part of its label begins. -/
theorem goto_effects (h : Translation r r' spilled first last slots cells) (l : Label) :
    Machine.goto r'.effects l = Layout.place (cells.map Cell.toList)
      (Machine.goto r.effects l) := by
  have hrendered : List.Forall₂ (fun i cell => ∃ last slots ρ, Cell.Renders r.frame spilled
      (leaves spilled r i) i first last slots ρ cell) r.instrs cells := by
    refine h.served.imp fun i cell hcell => ?_
    obtain ⟨ρ, hserves⟩ := hcell
    exact ⟨last, slots, ρ, hserves.toRenders⟩
  rw [Routine.goto_effects, Routine.goto_effects, h.instrs, labelIndex?_cells hrendered]
  cases Flow.labelIndex? l r.instrs <;> rfl

/-- A run through the operations of some accesses. -/
theorem run_inserted (hm : m.ServesSlots w) {os : List Operation} (hos : ∀ o ∈ os, Inserted o)
    {before after : List Instr} (hinstrs : r'.instrs = before ++ os.map Operation.instr ++ after)
    (c : Core E) :
    let d := Mmix.performAll w (os.map Operation.instr) c
    (Machine.run m r'.effects ⟨.line before.length, c.store, c.hidden⟩
      (os.map Operation.instr).length).1 =
        ⟨.line (before.length + (os.map Operation.instr).length), d.store, d.hidden⟩ := by
  have hrun := Machine.run_inserted hm hos (before.map Instr.effect) (after.map Instr.effect) c
  rw [Routine.effects, hinstrs, List.map_append, List.map_append, List.length_map]
  rwa [List.length_map] at hrun

/-- If the same jump is taken, the same is seen of an operation. -/
theorem visible_occurrences {h h' : Hidden E} {operands : List Word}
    (htarget : i.target? m operands h' = i.target? m operands h) :
    (i.occurrences m operands h').map Occurrence.visible =
      (i.occurrences m operands h).map Occurrence.visible := by
  obtain ⟨kind, live⟩ := i
  cases kind with
  | oper template uses defs jumps =>
      simp only [Instr.occurrences, List.map_cons, List.map_nil, Occurrence.visible]
      rw [htarget]
  | move template dst src => rfl
  | label l => rfl

/-- A cell has its loads, its instruction and its stores. -/
theorem length_toList (cell : Cell) : cell.toList.length =
    (cell.loads.flatMap Access.load).length + 1 + (cell.stores.flatMap Access.store).length := by
  rw [Cell.toList, List.length_append, List.length_cons]
  omega

/-- Where the loads of a cell stand: at the beginning of its part, in front of the body. -/
theorem instrs_eq_loads (h : Translation r r' spilled first last slots cells)
    (hcell : cells[index]? = some cell) : ∃ before after : List Instr,
      before.length = Layout.start (cells.map Cell.toList) index ∧
      r'.instrs = before ++ (cell.loads.flatMap Access.loading).map Operation.instr ++
        cell.body :: (cell.stores.flatMap Access.store ++ after) := by
  have hpart : (cells.map Cell.toList)[index]? = some cell.toList := by
    rw [List.getElem?_map, hcell]
    rfl
  refine ⟨((cells.map Cell.toList).take index).flatten,
    ((cells.map Cell.toList).drop (index + 1)).flatten, rfl, ?_⟩
  rw [h.instrs, Layout.flatten_eq hpart, Cell.toList, Access.flatMap_load]
  simp only [List.append_assoc, List.cons_append]

/-- Where the stores of a cell stand: right behind the body. -/
theorem instrs_eq_stores (h : Translation r r' spilled first last slots cells)
    (hcell : cells[index]? = some cell) : ∃ before after : List Instr,
      before.length = Layout.start (cells.map Cell.toList) index +
        (cell.loads.flatMap Access.load).length + 1 ∧
      r'.instrs = before ++ (cell.stores.flatMap Access.storing).map Operation.instr ++ after := by
  obtain ⟨before, after, hstart, hinstrs⟩ := h.instrs_eq_loads hcell
  refine ⟨before ++ cell.loads.flatMap Access.load ++ [cell.body], after, ?_, ?_⟩
  · rw [List.length_append, List.length_append, List.length_singleton, hstart]
  · rw [hinstrs, Access.flatMap_load, Access.flatMap_store]
    simp only [List.append_assoc, List.cons_append, List.nil_append]

/-- The loads of a cell. -/
theorem run_loads (h : Translation r r' spilled first last slots cells) (hm : m.ServesSlots w)
    (hcell : cells[index]? = some cell) (d : Core E) :
    let loaded := Mmix.performAll w (cell.loads.flatMap Access.load) d
    let start := Layout.start (cells.map Cell.toList) index
    let count := (cell.loads.flatMap Access.load).length
    (Machine.run m r'.effects ⟨.line start, d.store, d.hidden⟩ count).1 =
      ⟨.line (start + count), loaded.store, loaded.hidden⟩ ∧
        r'.instrs[start + count]? = some cell.body := by
  obtain ⟨before, after, hstart, hinstrs⟩ := h.instrs_eq_loads hcell
  rw [← hstart, Access.flatMap_load]
  refine ⟨run_inserted hm inserted_of_mem_loading hinstrs d, ?_⟩
  rw [hinstrs, ← List.length_append, List.getElem?_append_right (Nat.le_refl _), Nat.sub_self]
  rfl

/-- The stores of a cell. -/
theorem run_stores (h : Translation r r' spilled first last slots cells) (hm : m.ServesSlots w)
    (hcell : cells[index]? = some cell) (d : Core E) :
    let stored := Mmix.performAll w (cell.stores.flatMap Access.store) d
    let start := Layout.start (cells.map Cell.toList) index +
      (cell.loads.flatMap Access.load).length + 1
    let count := (cell.stores.flatMap Access.store).length
    (Machine.run m r'.effects ⟨.line start, d.store, d.hidden⟩ count).1 =
      ⟨.line (start + count), stored.store, stored.hidden⟩ := by
  obtain ⟨before, after, hstart, hinstrs⟩ := h.instrs_eq_stores hcell
  rw [← hstart, Access.flatMap_store]
  exact run_inserted hm inserted_of_mem_storing hinstrs d

/-- An instruction that writes nothing has nothing to store. -/
theorem stores_eq_nil (hserves : Cell.Serves r.frame spilled (leaves spilled r i) i first last
    slots ρ cell) (hdefs : i.defs = []) : cell.stores = [] := by
  have hstores := hserves.stores
  rw [hdefs] at hstores
  exact List.map_eq_nil_iff.mp hstores

/-- Behind the body of a cell, either it jumps, and there are no stores, or control goes on
through the stores to the next part. -/
theorem run_from_body (h : Translation r r' spilled first last slots cells) (hm : m.ServesSlots w)
    (hcell : cells[index]? = some cell) {now : Machine.State Temp Word (Hidden E)}
    {target : Option Label}
    (hnow : now.place = target.elim (.line (Layout.start (cells.map Cell.toList) index +
      (cell.loads.flatMap Access.load).length + 1)) (Machine.goto r'.effects))
    (hstores : target ≠ none → cell.stores = []) :
    let stored := Mmix.performAll w (cell.stores.flatMap Access.store) ⟨now.store, now.hidden⟩
    (Machine.run m r'.effects now (cell.stores.flatMap Access.store).length).1 =
      ⟨Layout.place (cells.map Cell.toList)
        (target.elim (.line (index + 1)) (Machine.goto r.effects)), stored.store,
          stored.hidden⟩ := by
  obtain ⟨place, store, hidden⟩ := now
  dsimp only at hnow ⊢
  rw [hnow]
  -- A jump taken passes over the stores, so there are none. Otherwise they come next.
  cases target with
  | some l =>
      rw [hstores nofun, Option.elim_some, Option.elim_some, h.goto_effects]
      rfl
  | none =>
      have hpart : (cells.map Cell.toList)[index]? = some cell.toList := by
        rw [List.getElem?_map, hcell]
        rfl
      have hnext := Layout.start_succ hpart
      rw [length_toList] at hnext
      rw [Option.elim_none, Option.elim_none, Layout.place, hnext, ← Nat.add_assoc,
        ← Nat.add_assoc]
      exact h.run_stores hm hcell ⟨store, hidden⟩

/-- The body of a cell does what its instruction does. -/
theorem step_body {loaded : Core E} (hserves : Cell.Serves r.frame spilled (leaves spilled r i) i
      first last slots ρ cell)
    (hi : r.instrs[index]? = some i) (hplace : s.place = .line index) {line : Nat}
    (hbody : r'.instrs[line]? = some cell.body)
    (hready : Ready r.frame spilled (leaves spilled r i) first last i ρ ⟨s.store, s.hidden⟩ loaded)
    (hrelated : Related spilled first last slots X ⟨s.store, s.hidden⟩ ⟨s'.store, s'.hidden⟩)
    (hhidden : loaded.hidden = s'.hidden)
    (hspares : ∀ o ∈ (Machine.step m r.effects s).2, m.Spares X o) :
    let now := Machine.step m r'.effects ⟨.line line, loaded.store, loaded.hidden⟩
    let next := Machine.step m r.effects s
    let target := i.target? m (i.uses.map s.store) s.hidden
    now.2.map Occurrence.visible = next.2.map Occurrence.visible ∧
      next.1.place = target.elim (.line (index + 1)) (Machine.goto r.effects) ∧
      now.1.place = target.elim (.line (line + 1)) (Machine.goto r'.effects) ∧
      Pending spilled first last slots X i.defs ρ ⟨next.1.store, next.1.hidden⟩
        ⟨now.1.store, now.1.hidden⟩ ∧
      (i.defs = [] → next.1.store = s.store ∧ now.1.store = loaded.store) := by
  rw [Routine.step_effects hplace hi, Machine.perform_effect] at hspares ⊢
  -- The body reads the values that `i` reads, in a hidden state that differs in the slots.
  have hpending := hready.pending hserves hrelated hhidden hspares
  obtain ⟨-, htarget, -⟩ := Instr.outcome_of_spares hspares hrelated.hidden
  obtain ⟨-, -, htarget', hoccurrences⟩ := i.outcome_rename ρ m (i.uses.map s.store) s'.hidden
  rw [Routine.step_effects rfl hbody, Machine.perform_effect, hserves.body]
  have hoperands : (i.rename ρ).uses.map loaded.store = i.uses.map s.store := hready.operands_eq
  refine ⟨?_, rfl, ?_, hpending, fun hdefs => ?_⟩
  · show ((i.rename ρ).occurrences m _ loaded.hidden).map Occurrence.visible = _
    rw [hoperands, hhidden, hoccurrences]
    exact visible_occurrences htarget
  · show ((i.rename ρ).target? m _ loaded.hidden).elim _ _ = _
    rw [hoperands, hhidden, htarget', htarget]
  · rw [Instr.defs_rename, hdefs]
    exact ⟨rfl, rfl⟩

/-- The part of an instruction carries it out and leads to states that match. -/
theorem carriesOut (h : Translation r r' spilled first last slots cells) (hm : m.ServesSlots w)
    (hi : r.instrs[index]? = some i) (hcell : cells[index]? = some cell)
    (hserves : Cell.Serves r.frame spilled (leaves spilled r i) i first last slots ρ cell)
    (hplace : s.place = .line index)
    (hmatches : Matches r spilled first last slots X (cells.map Cell.toList) s s')
    (hspares : ∀ o ∈ (Machine.step m r.effects s).2, m.Spares X o) :
    CarriesOut m r r' i cell.toList s s' ∧
      let reached := (Machine.run m r'.effects s' cell.toList.length).1
      let next := (Machine.step m r.effects s).1
      Matches r spilled first last slots X (cells.map Cell.toList) next reached ∧
        (r.exit ∈ i.jumps → (r.frame.rv ∈ spilled → r.definesResult = true) →
          reached.store r.frame.rv = next.store r.frame.rv) := by
  obtain ⟨place', store', hidden'⟩ := s'
  have hrelated := hmatches.related
  obtain rfl : place' = .line (Layout.start (cells.map Cell.toList) index) :=
    hmatches.place.trans (congrArg _ hplace)
  obtain ⟨hrun, hbody⟩ := h.run_loads hm hcell ⟨store', hidden'⟩
  obtain ⟨hhidden, hready⟩ := hserves.ready w hrelated
  dsimp only at hrun hbody hhidden hready
  generalize Mmix.performAll w (cell.loads.flatMap Access.load) ⟨store', hidden'⟩ = loaded
    at hrun hhidden hready
  obtain ⟨hvisible, hnext, hnow, hpending, hdefs⟩ :=
    step_body hserves hi hplace hbody hready hrelated hhidden hspares
  refine ⟨⟨_, cell.body, _, rfl, ?_, ?_⟩, ?_⟩
  · rw [hserves.body, Instr.template_rename]
  · dsimp only
    rw [hrun, hserves.body]
    exact ⟨⟨_, rfl, hserves.body ▸ hbody⟩, hready.operands_eq, hvisible⟩
  -- The run goes on from the body, with no stores behind a jump.
  have hjumps : i.jumps ≠ [] → i.defs = [] :=
    (h.flow i (List.mem_of_getElem? hi)).resolve_left
  have hreached := h.run_from_body hm hcell hnow fun htarget => stores_eq_nil hserves
    (hjumps (List.ne_nil_of_mem (Instr.mem_jumps_of_target? (Option.some_get
      (Option.isSome_iff_ne_none.mpr htarget)).symm)))
  have hthrough : (Machine.run m r'.effects
      ⟨.line (Layout.start (cells.map Cell.toList) index), store', hidden'⟩
        cell.toList.length).1 = (Machine.run m r'.effects (Machine.step m r'.effects
          ⟨.line (Layout.start (cells.map Cell.toList) index +
            (cell.loads.flatMap Access.load).length), loaded.store, loaded.hidden⟩).1
              (cell.stores.flatMap Access.store).length).1 := by
    rw [length_toList, Machine.run_add, Machine.run_add, hrun]
    rfl
  dsimp only
  rw [hthrough, hreached, ← hnext]
  clear hthrough hreached hvisible
  generalize (Machine.step m r'.effects ⟨_, loaded.store, loaded.hidden⟩).1 = now
    at hpending hdefs ⊢
  have hrelated' := hpending.related w hserves
  -- The return value is in its temporary if it may be needed behind the exit.
  have hresult : r.exit ∈ i.jumps → (r.frame.rv ∈ spilled → r.definesResult = true) →
      (Mmix.performAll w (cell.stores.flatMap Access.store) ⟨now.store, now.hidden⟩).store
        r.frame.rv = (Machine.step m r.effects s).1.store r.frame.rv := by
    intro hexit hdefines
    by_cases hspilled : r.frame.rv ∈ spilled
    · have hnone := hjumps (List.ne_nil_of_mem hexit)
      have hleaves : leaves spilled r i = true := by
        simp [leaves, reloadsResult, hspilled, hdefines hspilled, hexit]
      rw [stores_eq_nil hserves hnone, (hdefs hnone).1]
      show now.store _ = _
      rw [(hdefs hnone).2]
      exact hready.result hleaves
    · exact hrelated'.temps _ hspilled (.inl hserves.rv)
  refine ⟨⟨rfl, hrelated', fun hleft hdefines => hresult ?_ hdefines⟩, hresult⟩
  -- Control is outside of the code after a jump to the exit only.
  rw [hnext] at hleft
  cases htarget : i.target? m (i.uses.map s.store) s.hidden with
  | none =>
      rw [htarget] at hleft
      cases hleft
  | some l =>
      rw [htarget, Option.elim_some, Routine.goto_effects] at hleft
      cases hlabel : Flow.labelIndex? l r.instrs with
      | some found =>
          rw [hlabel] at hleft
          cases hleft
      | none =>
          rw [hlabel] at hleft
          cases hleft
          exact Instr.mem_jumps_of_target? htarget

/-- An instruction that is carried out is seen in the run through its part. -/
theorem sublist_of_carriesOut {part : List Instr} (hcarries : CarriesOut m r r' i part s s') :
    ((Machine.step m r.effects s).2.map Occurrence.visible).Sublist
      ((Machine.run m r'.effects s' part.length).2.map Occurrence.visible) := by
  obtain ⟨before, body, after, rfl, -, -, -, hvisible⟩ := hcarries
  rw [List.length_append, List.length_cons, ← Nat.add_assoc, Nat.add_right_comm, Machine.run_add,
    Machine.run, ← hvisible]
  simp only [List.map_append]
  exact (List.sublist_append_right ..).trans (List.sublist_append_left ..)

/-- Runs keep the two machines matched, and what is carried out before spilling is carried out
after it. -/
theorem matches_run (h : Translation r r' spilled first last slots cells) (hm : m.ServesSlots w)
    (hmatches : Matches r spilled first last slots X (cells.map Cell.toList) s s') (n : Nat)
    (hspares : ∀ o ∈ (Machine.run m r.effects s n).2, m.Spares X o) :
    ∃ k, Matches r spilled first last slots X (cells.map Cell.toList)
        (Machine.run m r.effects s n).1 (Machine.run m r'.effects s' k).1 ∧
      ((Machine.run m r.effects s n).2.map Occurrence.visible).Sublist
        ((Machine.run m r'.effects s' k).2.map Occurrence.visible) := by
  induction n with
  | zero => exact ⟨0, hmatches, .refl _⟩
  | succ n ih =>
      rw [Machine.run] at hspares ⊢
      rw [List.forall_mem_append] at hspares
      obtain ⟨k, hk, hsublist⟩ := ih hspares.1
      generalize hreached : Machine.run m r.effects s n = reached at hspares hk hsublist ⊢
      dsimp only at hspares ⊢
      -- One more step is that of an instruction, which its cell carries out, or no step at all.
      obtain ⟨index, i, hplace, hi⟩ | hstuck := r.at_or_stuck reached.1
      · obtain ⟨cell, ρ, hcell, hserves⟩ := h.getElem?_cells hi
        obtain ⟨hcarries, hnext, -⟩ := h.carriesOut hm hi hcell hserves hplace hk hspares.2
        refine ⟨k + cell.toList.length, ?_, ?_⟩
        · rw [Machine.run_add]
          exact hnext
        · rw [Machine.run_add, List.map_append, List.map_append]
          exact hsublist.append (sublist_of_carriesOut hcarries)
      · rw [Routine.step_of_stuck hstuck, List.append_nil]
        exact ⟨k, hk, hsublist⟩

end Translation

/-- The code of `r'` consists of a part for each instruction of `r`, and does what the code
of `r` does as long as that leaves the octabytes in `X` alone. -/
structure Refines (m : Meaning Word (Hidden E)) (r r' : Routine) (spilled : TempSet)
    (first last : Nat) (parts : List (List Instr)) : Prop where
  instrs : r'.instrs = parts.flatten
  length : parts.length = r.instrs.length
  /-- From states that match, the part of an instruction carries it out and leads to states
  that match. If it may jump to the exit, the return value is in its temporary. -/
  block : ∀ (X : Word → Prop) (s s' : Machine.State Temp Word (Hidden E)) (index : Nat) (i : Instr)
    (part : List Instr), Matches r spilled first last r'.slots X parts s s' →
      s.place = .line index → r.instrs[index]? = some i → parts[index]? = some part →
        (∀ o ∈ (Machine.step m r.effects s).2, m.Spares X o) →
          CarriesOut m r r' i part s s' ∧
            let reached := (Machine.run m r'.effects s' part.length).1
            let next := (Machine.step m r.effects s).1
            Matches r spilled first last r'.slots X parts next reached ∧
              (r.exit ∈ i.jumps → (r.frame.rv ∈ spilled → r.definesResult = true) →
                reached.store r.frame.rv = next.store r.frame.rv)
  /-- Whenever the code of `r` has taken `n` steps, the code of `r'` has carried out the same
  operations, among others, and is in a state that matches. -/
  runs : ∀ (X : Word → Prop) (s s' : Machine.State Temp Word (Hidden E)),
    Matches r spilled first last r'.slots X parts s s' → ∀ n,
      (∀ o ∈ (Machine.run m r.effects s n).2, m.Spares X o) → ∃ k,
        Matches r spilled first last r'.slots X parts (Machine.run m r.effects s n).1
          (Machine.run m r'.effects s' k).1 ∧
        ((Machine.run m r.effects s n).2.map Occurrence.visible).Sublist
          ((Machine.run m r'.effects s' k).2.map Occurrence.visible)

/-! ### From the code of spilling -/

/-- The cells of a routine serve its instructions. -/
theorem Rendered.serves {is : List Instr} {cells : List Cell} {st st' : State}
    (h : Rendered spilled r is cells st st') (hfirst : first ≤ st.supply.next)
    (hrv : r.frame.rv.number < first) (htemps : ∀ i ∈ is, ∀ t ∈ i.operands, t.number < first)
    (hlocals : 0 ≤ r.frame.localsSize) (hlaid : st'.slots.Laid r.frame.localsSize) :
    List.Forall₂ (fun i cell => ∃ ρ, Cell.Serves r.frame spilled (leaves spilled r i) i first
      st'.supply.next st'.slots ρ cell) is cells := by
  induction h with
  | nil st => exact .nil
  | @cons i is cell cells st mid st' ρ hrenders hadvances hrest ih =>
      rw [List.forall_mem_cons] at htemps
      have hothers := hrest.advances
      have hmono := hrenders.mono hfirst hothers.supply hothers.slots
      refine .cons ⟨ρ, hmono, htemps.1, hrv, fun hleaves => ?_, hlocals, hlaid⟩
        (ih (Nat.le_trans hfirst hadvances.supply) htemps.2 hlaid)
      exact (leaves_eq_true.mp hleaves).1.1

end Spill

/-- The instruction is a copy, a label or an operation that does not access memory. -/
def Instr.quiet (i : Instr) : Bool :=
  match i.kind with
  | .oper template _ _ _ => (Mmix.read? template).any fun shown =>
      shown.1 ≠ .ldo ∧ shown.1 ≠ .sto ∧ shown.1 ≠ .pushj
  | _ => true

/-- An instruction that does not access memory leaves all octabytes alone. -/
theorem Instr.spares_of_quiet {E : Type} (w : Mmix.World E) {i : Instr} (hquiet : i.quiet = true)
    (X : Word → Prop) (operands : List Word) (h : Hidden E) :
    ∀ o ∈ i.occurrences (Mmix.meaning w) operands h, (Mmix.meaning w).Spares X o := by
  obtain ⟨kind, live⟩ := i
  cases kind with
  | oper template uses defs jumps =>
      obtain ⟨⟨mnemonic, args⟩, hread, hmem⟩ := (Option.any_eq_true _ _).mp hquiet
      intro o ho
      cases List.mem_singleton.mp ho
      exact Mmix.spares_of_read w X hread (of_decide_eq_true hmem) operands h _
  | move template dst src => exact List.forall_mem_nil _
  | label l => exact List.forall_mem_nil _

/-- Code that does not access memory leaves all of it alone. -/
theorem Routine.spares_run_of_quiet {E : Type} (w : Mmix.World E) {r : Routine}
    (hquiet : ∀ i ∈ r.instrs, i.quiet = true) (X : Word → Prop)
    (s : Machine.State Temp Word (Hidden E)) (n : Nat) :
    ∀ o ∈ (Machine.run (Mmix.meaning w) r.effects s n).2, (Mmix.meaning w).Spares X o := by
  induction n with
  | zero => exact List.forall_mem_nil _
  | succ n ih =>
      rw [Machine.run, List.forall_mem_append]
      refine ⟨ih, ?_⟩
      generalize (Machine.run (Mmix.meaning w) r.effects s n).1 = reached
      intro o ho
      obtain ⟨index, i, hplace, hi⟩ | hstuck := r.at_or_stuck reached
      · rw [step_effects hplace hi, Machine.perform_effect] at ho
        exact i.spares_of_quiet w (hquiet i (List.mem_of_getElem? hi)) X _ _ o ho
      · rw [step_of_stuck hstuck] at ho
        cases ho

/-- Code without loads, stores and calls leaves all of memory alone. -/
theorem Routine.spares_run {E : Type} (w : Mmix.World E) {r : Routine}
    (hops : ∀ i ∈ r.instrs, ∃ o : Operation, i = o.instr ∧ o.Readable ∧
      o.mnemonic ≠ .ldo ∧ o.mnemonic ≠ .sto ∧ o.mnemonic ≠ .pushj)
    (X : Word → Prop) (s : Machine.State Temp Word (Hidden E)) (n : Nat) :
    ∀ o ∈ (Machine.run (Mmix.meaning w) r.effects s n).2, (Mmix.meaning w).Spares X o := by
  refine r.spares_run_of_quiet w (fun i hi => ?_) X s n
  obtain ⟨o, rfl, hreadable, hmem⟩ := hops i hi
  show (Mmix.read? o.template).any _ = true
  rw [Operation.read?_template hreadable]
  exact decide_eq_true hmem

/-- **Spilling preserves meaning.** If no instruction of a routine both jumps and writes, its
temporaries are not in the supply and its slots are laid out from an empty table, then spilling
fails for want of room only, and otherwise the result does what the routine does. -/
theorem Routine.spill_preserves_meaning {E : Type} {w : Mmix.World E}
    {m : Meaning Word (Hidden E)} (hm : m.ServesSlots w) {r : Routine} (spilled : TempSet)
    (supply : Supply) (shielded : TempSet) (hflow : ∀ i ∈ r.instrs, i.jumps = [] ∨ i.defs = [])
    (htemps : ∀ i ∈ r.instrs, ∀ t ∈ i.operands, t.number < supply.next)
    (hrv : r.frame.rv.number < supply.next) (hlocals : 0 ≤ r.frame.localsSize)
    (hslots : r.slots.Laid r.frame.localsSize) :
    (∃ e, (r.spill spilled supply shielded).outcome = .error e ∧ e.Exhausted) ∨
      ∃ result parts, (r.spill spilled supply shielded).outcome = .ok result ∧
        result.routine.slots.Laid r.frame.localsSize ∧
        Spill.Refines m r result.routine spilled supply.next result.supply.next parts := by
  rcases r.spill_cases spilled supply shielded with hfails | ⟨result, cells, st, hok, hrendered,
    hroutine, hsupply, -⟩
  · exact .inl hfails
  · have hadvances := hrendered.advances
    have hlaid := hadvances.laid hslots
    have hserves := hrendered.serves (Nat.le_refl supply.next) hrv htemps hlocals hlaid
    have htranslation : Spill.Translation r result.routine spilled supply.next st.supply.next
        st.slots cells := ⟨hserves, by rw [hroutine, List.flatMap_def], hflow⟩
    refine .inr ⟨result, cells.map Spill.Cell.toList, hok, ?_, ?_⟩
    · rw [hroutine]
      exact hlaid
    · have hresult : result.routine.slots = st.slots := by rw [hroutine]
      rw [hsupply]
      refine ⟨htranslation.instrs, ?_, ?_, ?_⟩
      · rw [List.length_map, hserves.length_eq]
      · intro X s s' index i part hmatches hplace hi hpart hspares
        obtain ⟨cell, ρ, hcell, hserves⟩ := htranslation.getElem?_cells hi
        rw [List.getElem?_map, hcell] at hpart
        cases hpart
        rw [hresult] at hmatches ⊢
        exact htranslation.carriesOut hm hi hcell hserves hplace hmatches hspares
      · intro X s s' hmatches n hspares
        rw [hresult] at hmatches ⊢
        exact htranslation.matches_run hm hmatches n hspares

/-- Return the sum of five and three. -/
def Routine.sum : Routine where
  frame := ⟨⟨"sum"⟩, 0, 16, 0, 0, ⟨0⟩, ⟨1⟩⟩
  entry := ⟨"enter"⟩
  exit := ⟨"exit"⟩
  instrs := [(Operation.set .low ⟨2⟩ 5).instr, (Operation.combineNumber .add ⟨1⟩ ⟨2⟩ 3).instr,
    (Operation.jump ⟨"exit"⟩).instr]
  slots := .empty

/-- The state in which the sum is started, on a machine in which calls do nothing. -/
def Routine.sumStart : Machine.State Temp Word (Hidden Unit) :=
  ⟨.line 0, fun _ => 0, ⟨fun _ => 4096, 0, fun _ => 0, ()⟩⟩

/-- If both of its temporaries are spilled, the sum is in the temporary of the return value
behind the exit. -/
theorem Routine.sum_spill_preserves_meaning :
    ∃ result, (sum.spill (.ofList [⟨1⟩, ⟨2⟩]) ⟨3⟩ ∅).outcome = .ok result ∧ ∃ k,
      let reached := (Machine.run (Mmix.meaning ⟨fun _ => 0, fun _ => id⟩) result.routine.effects
        sumStart k).1
      reached.place = .left ⟨"exit"⟩ ∧ reached.store ⟨1⟩ = 8 := by
  have hok : (sum.spill (.ofList [⟨1⟩, ⟨2⟩]) ⟨3⟩ ∅).outcome.isOk = true := by decide +kernel
  have hoperations : ∀ i ∈ sum.instrs, ∃ o : Operation, i = o.instr ∧ o.Readable ∧
      o.mnemonic ≠ .ldo ∧ o.mnemonic ≠ .sto ∧ o.mnemonic ≠ .pushj := by
    intro i hi
    simp only [sum, List.mem_cons, List.not_mem_nil, or_false] at hi
    rcases hi with rfl | rfl | rfl
    · exact ⟨_, rfl, (Operation.proper_set .low (by decide)).toReadable, nofun, nofun, nofun⟩
    · exact ⟨_, rfl,
        (Operation.proper_combineNumber rfl rfl (by decide)).toReadable, nofun, nofun, nofun⟩
    · exact ⟨_, rfl, (Operation.proper_jump (by decide)).toReadable, nofun, nofun, nofun⟩
  have hrun :
    (Machine.run (Mmix.meaning ⟨fun _ => 0, fun _ => id⟩) sum.effects sumStart 3).1.place =
        .left ⟨"exit"⟩ ∧
      (Machine.run (Mmix.meaning ⟨fun _ => 0, fun _ => id⟩) sum.effects sumStart 3).1.store ⟨1⟩ =
        8 := by
    decide +kernel
  rcases spill_preserves_meaning (r := sum) (Mmix.servesSlots_meaning ⟨fun _ => 0, fun _ => id⟩)
    (.ofList [⟨1⟩, ⟨2⟩]) ⟨3⟩ ∅ (by decide) (by decide) (by decide) (by decide)
    (SlotTable.laid_empty 16) with ⟨e, he, -⟩ | ⟨result, parts, hresult, -, hrefines⟩
  · rw [he] at hok
    cases hok
  · -- The code does not use memory, so that all of it may be set aside for slots.
    have hstart : Spill.Matches sum (.ofList [⟨1⟩, ⟨2⟩]) 3 result.supply.next result.routine.slots
        (fun _ => True) parts sumStart sumStart :=
      ⟨rfl, ⟨fun _ _ _ => rfl, ⟨rfl, fun _ hx => absurd trivial hx⟩, fun _ _ _ _ => rfl,
        fun _ _ _ _ => trivial⟩, nofun⟩
    obtain ⟨k, hmatches, -⟩ :=
      hrefines.runs _ _ _ hstart 3 (spares_run ⟨fun _ => 0, fun _ => id⟩ hoperations _ _ _)
    refine ⟨result, hresult, k, ?_, ?_⟩
    · rw [hmatches.place, hrun.1]
      rfl
    · rw [← hrun.2]
      exact hmatches.result hrun.1 fun _ => by decide

end MmixCodegen
