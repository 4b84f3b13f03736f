import MmixCodegen.Proofs.Flow.Least
import MmixCodegen.Proofs.Interference
import MmixCodegen.Proofs.Layout
import MmixCodegen.Proofs.Spill.Held

/-!
# `MmixCodegen.Proofs.Spill.Live`: shielded temporaries interfere within cells

`Routine.Celled` says of a routine that its code consists of cells that confine the
shielded temporaries. Control enters a cell where it begins, since a label is a cell of its
own, and none of the shielded temporaries is needed there. So they are live within their
cells only (`Celled.closed`), and an analysis keeps two of them apart only if a cell
joins them (`Celled.joins_of_keepsApart`).
-/

set_option autoImplicit false

namespace MmixCodegen

namespace Instr

variable {i : Instr}

/-- A label has no operands and does not jump. -/
theorem operands_of_label? {l : Label} (h : i.label? = some l) :
    i.uses = [] ∧ i.defs = [] ∧ i.jumps = [] := by
  obtain ⟨kind, live⟩ := i
  cases kind with
  | oper template uses defs jumps => cases h
  | move template dst src => cases h
  | label l' => exact ⟨rfl, rfl, rfl⟩

end Instr

namespace Spill

/-! ### Where control enters and leaves a cell -/

/-- The code of an access has no operands but its own two, does not jump and sets no label. -/
theorem Access.straight {a : Access} {i : Instr} (hi : i ∈ a.load ∨ i ∈ a.store) :
    (∀ t ∈ i.operands, t = a.address ∨ t = a.place) ∧ i.jumps = [] ∧ i.label? = none := by
  obtain ⟨o, ho, rfl⟩ := mem_code hi
  rcases mem_operations ho with ho | rfl | rfl
  · have honly := only_locate _ (List.mem_map_of_mem ho)
    refine ⟨fun t ht => .inl ?_, honly.jumps, rfl⟩
    exact (List.mem_append.mp ht).elim (honly.uses t) (honly.defs t)
  · have hoperands : ∀ t ∈ [a.address, a.place], t = a.address ∨ t = a.place := by simp
    exact ⟨hoperands, rfl, rfl⟩
  · have hoperands : ∀ t ∈ [a.place, a.address], t = a.address ∨ t = a.place := by simp
    exact ⟨hoperands, rfl, rfl⟩

namespace Cell

variable {base : Nat} {shielded : TempSet} {exit : Label} {rv : Temp} {result : Option Temp}
  {c : Cell} {i : Instr}

/-- Only the instruction itself jumps or sets a label. -/
theorem eq_body_of_mem_toList (hi : i ∈ c.toList) :
    (i.jumps = [] ∧ i.label? = none) ∨ i = c.body := by
  rw [toList, List.mem_append, List.mem_cons, List.mem_flatMap, List.mem_flatMap] at hi
  rcases hi with ⟨a, -, hi⟩ | hi | ⟨a, -, hi⟩
  · exact .inl (Access.straight (.inl hi)).2
  · exact .inr hi
  · exact .inl (Access.straight (.inr hi)).2

/-- The operands of the loads of a cell are accessed in it. -/
theorem mem_accessed_of_loads (hi : i ∈ c.loads.flatMap Access.load) {t : Temp}
    (ht : t ∈ i.operands) : t ∈ c.accessed := by
  obtain ⟨a, ha, hi⟩ := List.mem_flatMap.mp hi
  rcases (Access.straight (.inl hi)).1 t ht with rfl | rfl
  · exact List.mem_append_left _ (List.mem_append_left _
      (List.mem_map_of_mem (List.mem_append_left _ ha)))
  · exact List.mem_append_left _ (List.mem_append_right _ (List.mem_map_of_mem ha))

/-- The operands of the stores of a cell are accessed in it. -/
theorem mem_accessed_of_stores (hi : i ∈ c.stores.flatMap Access.store) {t : Temp}
    (ht : t ∈ i.operands) : t ∈ c.accessed := by
  obtain ⟨a, ha, hi⟩ := List.mem_flatMap.mp hi
  rcases (Access.straight (.inr hi)).1 t ht with rfl | rfl
  · exact List.mem_append_left _ (List.mem_append_left _
      (List.mem_map_of_mem (List.mem_append_right _ ha)))
  · exact List.mem_append_right _ (List.mem_map_of_mem ha)

/-- The operands in the code of a cell are temporaries of the cell. -/
theorem mem_temps_of_mem_operands (hi : i ∈ c.toList) {t : Temp} (ht : t ∈ i.operands) :
    t ∈ c.temps := by
  rw [toList, List.mem_append, List.mem_cons] at hi
  rcases hi with hi | rfl | hi
  · exact List.mem_append_left _ (mem_accessed_of_loads hi ht)
  · exact List.mem_append_right _ ht
  · exact List.mem_append_left _ (mem_accessed_of_stores hi ht)

/-- A cell whose instruction writes nothing stores nothing. -/
theorem Confines.stores_eq_nil (h : c.Confines base shielded exit rv result)
    (hdefs : c.body.defs = []) : c.stores = [] := by
  rw [← List.map_eq_nil_iff, ← Cell.stored, List.eq_nil_iff_forall_not_mem]
  intro t ht
  have hdef := (h.stored t ht).2.2
  rw [hdefs] at hdef
  cases hdef

/-- A label is a cell of its own. -/
theorem Confines.eq_zero_of_label? (h : c.Confines base shielded exit rv result) {offset : Nat}
    {l : Label} (hi : c.toList[offset]? = some i) (hl : i.label? = some l) : offset = 0 := by
  have hbody : i = c.body := by
    refine (eq_body_of_mem_toList (List.mem_of_getElem? hi)).resolve_left ?_
    rw [hl]
    exact fun h => nomatch h.2
  obtain ⟨huses, hdefs, hjumps⟩ := Instr.operands_of_label? hl
  rw [hbody] at huses hdefs hjumps
  have hloads : c.loads = [] := by
    rw [← List.map_eq_nil_iff, ← Cell.loaded, List.eq_nil_iff_forall_not_mem]
    intro t ht
    rcases (h.loaded t ht).2 with ⟨-, huse⟩ | ⟨-, hexit⟩
    · rw [huses] at huse
      cases huse
    · rw [hjumps] at hexit
      cases hexit
  rw [toList, hloads, h.stores_eq_nil hdefs] at hi
  have hlt := (List.getElem?_eq_some_iff.mp hi).1
  simpa using hlt

/-- A jump writes nothing, and its cell ends with it. -/
theorem Confines.drop_of_jumps (h : c.Confines base shielded exit rv result) {offset : Nat}
    (hi : c.toList[offset]? = some i) (hjumps : i.jumps ≠ []) :
    i.defs = [] ∧ c.toList.drop (offset + 1) = [] := by
  have hbody : i = c.body := by
    refine (eq_body_of_mem_toList (List.mem_of_getElem? hi)).resolve_left ?_
    exact fun h => hjumps h.1
  have hdefs : c.body.defs = [] := (h.modest.jump (hbody ▸ hjumps)).1
  refine ⟨hbody ▸ hdefs, List.drop_of_length_le ?_⟩
  rw [toList, h.stores_eq_nil hdefs] at hi ⊢
  rw [List.length_append]
  by_contra hlt
  have hlt : offset < (c.loads.flatMap Access.load).length := by
    simp only [List.flatMap_nil, List.length_cons, List.length_nil] at hlt
    omega
  -- Before the last instruction there are loads only.
  rw [List.getElem?_append_left hlt] at hi
  obtain ⟨a, -, hi⟩ := List.mem_flatMap.mp (List.mem_of_getElem? hi)
  exact hjumps (Access.straight (.inl hi)).2.1

end Cell

end Spill

/-! ### Live sets -/

namespace Routine

open Spill

/-- The code of a routine consists of cells that confine the shielded temporaries. -/
structure Celled (base : Nat) (shielded : TempSet) (r : Routine) (cs : List Cell) : Prop where
  kinds : r.instrs.map Instr.kind = (cs.flatMap Cell.toList).map Instr.kind
  rv : r.frame.rv.number < base
  confines : ∀ c ∈ cs,
    c.Confines base shielded r.exit r.frame.rv (FlowGraph.ofRoutine r).exitLive

namespace Celled

variable {base : Nat} {shielded : TempSet} {r : Routine} {cs : List Cell} {index : Nat}
  {i : Instr} {t u v : Temp}

/-- A shielded temporary may be live where it is needed by what is left of a cell. -/
def bound (shielded : TempSet) (r : Routine) (cs : List Cell) (index : Nat) (t : Temp) : Prop :=
  t ∈ shielded →
    Needs r.exit (FlowGraph.ofRoutine r).exitLive t (Layout.rest (cs.map Cell.toList) index)

/-- An instruction of the routine stands in one of the cells. -/
theorem exists_cell (h : r.Celled base shielded cs) (hi : r.instrs[index]? = some i) :
    ∃ c ∈ cs, ∃ offset j, c.toList[offset]? = some j ∧ i.kind = j.kind ∧
      Layout.rest (cs.map Cell.toList) index = c.toList.drop offset ∧
      (Layout.rest (cs.map Cell.toList) (index + 1) = c.toList.drop (offset + 1) ∨
        ∃ d ∈ cs, Layout.rest (cs.map Cell.toList) (index + 1) = d.toList) := by
  have hkind := congrArg (fun kinds => kinds[index]?) h.kinds
  simp only [List.getElem?_map, hi, Option.map_some] at hkind
  obtain ⟨j, hj, hkind⟩ := Option.map_eq_some_iff.mp hkind.symm
  rw [List.flatMap_def] at hj
  obtain ⟨part, hpart, offset, hj, hrest, hnext⟩ := Layout.exists_part_of_getElem?_flatten hj
  obtain ⟨c, hc, rfl⟩ := List.mem_map.mp hpart
  refine ⟨c, hc, offset, j, hj, hkind.symm, hrest, hnext.imp_right fun hmem => ?_⟩
  obtain ⟨d, hd, heq⟩ := List.mem_map.mp hmem
  exact ⟨d, hd, heq.symm⟩

/-- Each instruction of the routine is one of a cell, up to live sets. -/
theorem exists_mem_toList (h : r.Celled base shielded cs) (hi : i ∈ r.instrs) :
    ∃ c ∈ cs, ∃ j ∈ c.toList, i.kind = j.kind := by
  obtain ⟨index, hi⟩ := List.getElem?_of_mem hi
  obtain ⟨c, hc, offset, j, hj, hkind, -⟩ := h.exists_cell hi
  exact ⟨c, hc, j, List.mem_of_getElem? hj, hkind⟩

/-- Nothing shielded is needed where a label is. -/
theorem not_bound_of_label? (h : r.Celled base shielded cs) {l : Label}
    (hi : r.instrs[index]? = some i) (hl : i.label? = some l) (ht : t ∈ shielded) :
    ¬bound shielded r cs index t := by
  intro hbound
  obtain ⟨c, hc, offset, j, hj, hkind, hrest, -⟩ := h.exists_cell hi
  rw [Instr.label?_congr hkind] at hl
  have hneeds := hbound ht
  rw [hrest, (h.confines c hc).eq_zero_of_label? hj hl, List.drop_zero] at hneeds
  exact (h.confines c hc).not_needs ht hneeds

/-- What is needed behind an instruction is needed by the rest of its cell, or it is the
return value and control may leave. -/
theorem needs_of_passes (h : r.Celled base shielded cs) {c : Cell} {offset : Nat}
    (hnext : Layout.rest (cs.map Cell.toList) (index + 1) = c.toList.drop (offset + 1) ∨
      ∃ d ∈ cs, Layout.rest (cs.map Cell.toList) (index + 1) = d.toList)
    (ht : t ∈ shielded) (hpasses : (Flow.node r index i).Passes (FlowGraph.ofRoutine r).exitLive
      (bound shielded r cs) t) :
    (r.exit ∈ i.jumps ∧ (FlowGraph.ofRoutine r).exitLive = some t) ∨
      Needs r.exit (FlowGraph.ofRoutine r).exitLive t (c.toList.drop (offset + 1)) := by
  rcases hpasses with ⟨hexits, hlive⟩ | ⟨s, hs, hbound⟩
  · obtain ⟨l, hl, hexit⟩ := List.any_eq_true.mp hexits
    simp only [Bool.and_eq_true, decide_eq_true_eq] at hexit
    exact .inl ⟨hexit.1 ▸ hl, hlive⟩
  · refine .inr ?_
    simp only [Flow.node] at hs
    split at hs
    · -- Control goes on behind the instruction.
      split at hs
      · cases List.mem_singleton.mp hs
        have hneeds := hbound ht
        rcases hnext with hnext | ⟨d, hd, hnext⟩
        · rwa [hnext] at hneeds
        · rw [hnext] at hneeds
          exact absurd hneeds ((h.confines d hd).not_needs ht)
      · cases hs
    · -- Control goes to a label.
      rw [Flow.targets, List.mem_eraseDups] at hs
      obtain ⟨l, -, hl⟩ := List.mem_filterMap.mp hs
      obtain ⟨j, hj, hlabel⟩ := Flow.label?_of_labelIndex? hl
      exact absurd hbound (h.not_bound_of_label? hj hlabel ht)

/-- Shielded temporaries may be live within their cells only: this bound allows what the
instructions ask for. -/
theorem closed (h : r.Celled base shielded cs) :
    (FlowGraph.ofRoutine r).Closed (bound shielded r cs) := by
  intro index n t hn hasks ht
  obtain ⟨i, hi, rfl⟩ : ∃ i, r.instrs[index]? = some i ∧ n = Flow.node r index i := by
    simp only [FlowGraph.ofRoutine, List.getElem?_mapIdx] at hn
    obtain ⟨i, hi, heq⟩ := Option.map_eq_some_iff.mp hn
    exact ⟨i, hi, heq.symm⟩
  obtain ⟨c, hc, offset, j, hj, hkind, hrest, hnext⟩ := h.exists_cell hi
  have hdrop : c.toList.drop offset = j :: c.toList.drop (offset + 1) := by
    obtain ⟨hlt, heq⟩ := List.getElem?_eq_some_iff.mp hj
    rw [← heq, List.cons_getElem_drop_succ]
  rw [hrest, hdrop]
  rcases hasks with huse | ⟨hpasses, hdef⟩
  · exact .inl (Instr.uses_congr hkind ▸ huse)
  · refine .inr ⟨Instr.defs_congr hkind ▸ hdef, ?_⟩
    have hneeds := h.needs_of_passes hnext ht hpasses
    rwa [Instr.jumps_congr hkind] at hneeds

/-- An analysis changes nothing about the cells. -/
theorem analyze (h : r.Celled base shielded cs) : r.analyze.1.Celled base shielded cs where
  kinds := r.map_kind_analyze.trans h.kinds
  rv := h.rv
  confines := by
    have hlive : (FlowGraph.ofRoutine r.analyze.1).exitLive = (FlowGraph.ofRoutine r).exitLive :=
      r.exitLive_withLives r.size_settle
    rw [hlive]
    exact h.confines

/-- Shielded temporaries that an analyzed instruction keeps apart are joined by a cell. -/
theorem joins_of_keepsApart (h : r.Celled base shielded cs)
    (hi : r.analyze.1.instrs[index]? = some i) (hapart : i.KeepsApart u v) (hu : u ∈ shielded)
    (hv : v ∈ shielded) (hne : u ≠ v) : ∃ c ∈ cs, c.Joins u v := by
  obtain ⟨i', hi', hkind, hbefore, hafter⟩ := bounded_analyze h.closed hi
  obtain ⟨c, hc, offset, j, hj, hkind', hrest, hnext⟩ := h.exists_cell hi'
  have hconfines := h.confines c hc
  refine ⟨c, hc, hconfines.joins_of_clash hu hv hne ?_⟩
  have hdefs : i.defs = j.defs := Instr.defs_congr (hkind.trans hkind')
  have hneeds : ∀ t ∈ shielded, t ∈ i.live.after →
      (r.exit ∈ j.jumps ∧ (FlowGraph.ofRoutine r).exitLive = some t) ∨
        Needs r.exit (FlowGraph.ofRoutine r).exitLive t (c.toList.drop (offset + 1)) := by
    intro t ht hlive
    rw [← Instr.jumps_congr hkind']
    exact h.needs_of_passes hnext ht (hafter t hlive)
  -- Behind a jump nothing but the return value is needed.
  have hleaves : r.exit ∈ j.jumps → j.defs = [] ∧ c.toList.drop (offset + 1) = [] :=
    fun hexit => hconfines.drop_of_jumps hj fun hjumps => by simp [hjumps] at hexit
  have hendangers : ∀ u v, v ∈ shielded → u ∈ i.defs → v ∈ i.live.after →
      u ∈ j.defs ∧
        Needs r.exit (FlowGraph.ofRoutine r).exitLive v (c.toList.drop (offset + 1)) := by
    intro u v hv hdef hlive
    rw [hdefs] at hdef
    rcases hneeds v hv hlive with ⟨hexit, -⟩ | hv
    · rw [(hleaves hexit).1] at hdef
      cases hdef
    · exact ⟨hdef, hv⟩
  rcases hapart with ⟨hu', hv'⟩ | ⟨hu', hv'⟩ | ⟨hu', hv', -⟩ | ⟨hv', hu', -⟩
  · -- Both are live before the instruction, so there is one before it in the cell.
    have hu' := hbefore u hu' hu
    have hv' := hbefore v hv' hv
    rw [hrest] at hu' hv'
    cases offset with
    | zero => exact absurd hu' (hconfines.not_needs hu)
    | succ offset =>
        have hlt : offset < c.toList.length := by
          have hlt := (List.getElem?_eq_some_iff.mp hj).1
          omega
        exact clash_of_getElem? (List.getElem?_eq_getElem hlt) (.inr hu') (.inr hv')
  · rcases hneeds u hu hu' with ⟨hexit, hresult⟩ | hu' <;>
      rcases hneeds v hv hv' with ⟨hexit', hresult'⟩ | hv'
    · rw [hresult] at hresult'
      exact absurd (Option.some.inj hresult') hne
    · rw [(hleaves hexit).2] at hv'
      exact hv'.elim
    · rw [(hleaves hexit').2] at hu'
      exact hu'.elim
    · exact clash_of_getElem? hj (.inr hu') (.inr hv')
  · obtain ⟨hdef, hv'⟩ := hendangers u v hv hu' hv'
    exact clash_of_getElem? hj (.inl hdef) (.inr hv')
  · obtain ⟨hdef, hu'⟩ := hendangers v u hu hv' hu'
    exact clash_of_getElem? hj (.inr hu') (.inl hdef)

end Celled

end Routine

end MmixCodegen
