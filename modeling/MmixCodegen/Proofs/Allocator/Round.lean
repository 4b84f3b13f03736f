import MmixCodegen.Proofs.Allocator.Assign
import MmixCodegen.Proofs.Allocator.Sort

/-!
# `MmixCodegen.Proofs.Allocator.Round`: a round of a new allocator

`Finished g a` says that `a` is where an allocation that started from the graph
`g` has nothing left to do. The theorems about `Finished` are about the state
after registers were given out:

* `Finished.apart` and `Finished.lt_registers`: neighbours in `g` have different
  registers, all of which may be allocated;
* `Finished.forced`: a temporary without a register was forced;
* `Finished.isSome_colors_iff`: all other temporaries have one.

`round_of_checks` puts the stages of a round together. For a new allocator none of
the checks fails (`ofRoutines_eq`), so there is a colouring, `finalColoring`. It
keeps neighbours apart (`finalColoring_apart`), leaves out nothing that is not
spilled (`mem_colors_finalColoring`), and spills only from dense parts of the graph
(`exists_dense_of_mem_spilled`).
-/

set_option autoImplicit false

namespace MmixCodegen

namespace Allocator

variable {a : Allocator} {g : Interference} {t x y : Temp} {r : Register}

/-- Everything was pushed or merged, and no register was given out yet. -/
structure Finished (g : Interference) (a : Allocator) : Prop where
  underway : Underway g a
  next? : a.next? = none
  colors : a.colors = ∅

namespace Finished

/-- Giving out all registers unwinds the stack, and then lets each temporary have the register
of what it stands for. -/
theorem assignAll (h : Finished g a) :
    Unwound a (a.stack.foldl assign a) a.stack [] ∧
      Inherits (a.stack.foldl assign a) a.assignAll ∧
      ∀ t : Temp, a.assignAll.colors[t]? = (a.stack.foldl assign a).colors[a.representative t]? :=
  inherits_assignAll h.underway.tidy h.underway.valid h.colors

/-- When everything was pushed or merged, what a temporary stands for was pushed. -/
theorem representative_mem_stack (h : Finished g a) (ht : t ∈ a.graph.nodes) :
    a.representative t ∈ a.stack := by
  rw [h.underway.tidy.sorted.mem_stack]
  rcases h.underway.finished h.next? (h.underway.tidy.representative_mem t ht) with hs | hs
  · exact hs
  · exact absurd hs (h.underway.tidy.aliased.status_representative t)

/-- The status of a node in the end. -/
theorem status_assignAll (h : Finished g a) (ht : t ∈ a.graph.nodes) :
    a.status t = .onStack ∧ (a.assignAll.status t = .colored ∨ a.assignAll.status t = .spilled) ∨
      a.status t = .coalesced ∧ a.assignAll.status t = .coalesced := by
  obtain ⟨hunwound, hinherits, -⟩ := h.assignAll
  rw [hinherits.status]
  rcases h.underway.finished h.next? ht with hs | hs
  · exact Or.inl ⟨hs, hunwound.settled t ((h.underway.tidy.sorted.mem_stack t).mpr hs)⟩
  · have hstack : t ∉ a.stack := by
      rw [h.underway.tidy.sorted.mem_stack, hs]
      decide
    exact Or.inr ⟨hs, (hunwound.status t hstack).trans hs⟩

/-- Only registers that may be allocated are given out. -/
theorem lt_registers (h : Finished g a) (hr : a.assignAll.colors[t]? = some r) :
    r.index.toNat < a.registers := by
  obtain ⟨hunwound, -, hcolors⟩ := h.assignAll
  rw [hcolors] at hr
  have hpalette := mem_palette.mp (hunwound.palette _ r hr)
  omega

/-- Neighbours have different registers. -/
theorem apart (h : Finished g a) (hxy : x ∈ a.graph.neighbors y)
    (hx : a.assignAll.colors[x]? = some r) : a.assignAll.colors[y]? ≠ some r := by
  obtain ⟨hunwound, -, hcolors⟩ := h.assignAll
  rw [hcolors] at hx ⊢
  exact hunwound.apart x y r hxy hx

/-- A temporary is left without a register only if it was forced. -/
theorem forced (h : Finished g a) (hregisters : a.registers ≤ 256)
    (ht : a.assignAll.status t = .spilled) : ForcedIn g a t := by
  obtain ⟨hunwound, hinherits, -⟩ := h.assignAll
  rw [hinherits.status] at ht
  have hdone : t ∈ a.stack := by
    by_contra hnot
    have hstatus := (hunwound.status t hnot).symm.trans ht
    have hmem := h.underway.tidy.mem_nodes_of_status hstatus (by decide)
    rcases h.underway.finished h.next? hmem with hs | hs
    · exact hnot ((h.underway.tidy.sorted.mem_stack t).mpr hs)
    · rw [hs] at hstatus
      cases hstatus
  obtain ⟨top, below, hstack, hcrowded⟩ := hunwound.crowded t hdone ht
  rcases h.underway.bounded top t below hstack with hlow | hforced
  · omega
  · exact hforced

/-- What other temporaries stand for is never left without a register. -/
theorem representative_ne_of_spilled (h : Finished g a) (hregisters : a.registers ≤ 256)
    (ht : a.assignAll.status t = .spilled) (hx : a.representative x = t) : x = t :=
  (h.forced hregisters ht).1 x hx

/-- Exactly the nodes that are not spilled have a register. -/
theorem isSome_colors_iff (h : Finished g a) (hregisters : a.registers ≤ 256) :
    a.assignAll.colors[t]?.isSome ↔ t ∈ a.graph.nodes ∧ a.assignAll.status t ≠ .spilled := by
  obtain ⟨hunwound, hinherits, hcolors⟩ := h.assignAll
  rw [hcolors, hunwound.colored]
  constructor
  · rintro ⟨hmem, hcolored⟩
    have hnode : t ∈ a.graph.nodes := by
      by_contra hnot
      -- Only nodes have a status, so `t` would stand for itself.
      have hinitial : a.status t = .initial := by
        by_contra hne
        exact hnot (h.underway.tidy.sorted.mem_nodes t hne)
      rw [representative_of_not_coalesced (by rw [hinitial]; decide),
        h.underway.tidy.sorted.mem_stack, hinitial] at hmem
      cases hmem
    refine ⟨hnode, fun hspilled => ?_⟩
    rcases h.status_assignAll hnode with ⟨hs, -⟩ | ⟨-, hs⟩
    · rw [hinherits.status] at hspilled
      rw [representative_of_not_coalesced (by rw [hs]; decide), hspilled] at hcolored
      cases hcolored
    · rw [hs] at hspilled
      cases hspilled
  · rintro ⟨hnode, hstatus⟩
    have hmem := h.representative_mem_stack hnode
    refine ⟨hmem, ?_⟩
    rcases hunwound.settled _ hmem with hs | hs
    · exact hs
    · -- What `t` stands for would be spilled, so `t` would be spilled itself.
      rw [← hinherits.status] at hs
      have heq := h.representative_ne_of_spilled hregisters hs rfl
      exact absurd (heq ▸ hs) hstatus

end Finished

/-! ### The checks -/

/-- The check of symmetry does not fail on a sound graph. -/
theorem checkSymmetry_eq_ok (h : a.graph.Sound) : a.checkSymmetry = .ok () := by
  have hnone : a.unmirrored = [] := by
    rw [unmirrored, List.flatMap_eq_nil_iff]
    rintro ⟨u, neighbors⟩ hmem
    have hentry : a.graph.neighbors u = neighbors := by
      rw [Interference.neighbors, Std.ExtTreeMap.getD_eq_getD_getElem?,
        Std.ExtTreeMap.mem_toList_iff_getElem?_eq_some.mp hmem]
      rfl
    rw [List.map_eq_nil_iff, List.filter_eq_nil_iff]
    intro v hv
    rw [Std.ExtTreeSet.mem_toList, ← hentry] at hv
    simp [isMirrored, (h.interferes_iff u v).mpr hv, h.symm hv]
  unfold checkSymmetry
  rw [hnone, h.listed_eq, if_pos rfl]
  rfl

/-- The check of the registers does not fail after a complete allocation. -/
theorem Finished.checkColors_eq_ok (h : Finished g a) : a.assignAll.checkColors = .ok () := by
  obtain ⟨hunwound, hinherits, -⟩ := h.assignAll
  have hgraph : a.assignAll.graph = a.graph := hinherits.graph.trans hunwound.graph
  have hregisters : a.assignAll.registers = a.registers :=
    hinherits.registers.trans hunwound.registers
  have hsound := h.underway.tidy.sound
  have hclashes : a.assignAll.clashes = [] := by
    rw [clashes, List.filterMap_eq_nil_iff]
    intro e he
    rw [Std.ExtTreeSet.mem_toList, hgraph] at he
    have hedge : e.high ∈ a.graph.neighbors e.low := by
      rw [← hsound.interferes_iff, Interference.interferes, ← hsound.ordered e he]
      exact Std.ExtTreeSet.mem_iff_contains.mp he
    cases hlow : a.assignAll.colors[e.low]? with
    | none => rfl
    | some r =>
        cases hhigh : a.assignAll.colors[e.high]? with
        | none => rfl
        | some s =>
            have hne : r ≠ s := by
              rintro rfl
              exact h.apart hedge hhigh hlow
            simp [hne]
  have hstrays : a.assignAll.strays = [] := by
    rw [strays, List.filterMap_eq_nil_iff]
    rintro ⟨t, r⟩ hmem
    have hlt := h.lt_registers (Std.ExtTreeMap.mem_toList_iff_getElem?_eq_some.mp hmem)
    simp [hregisters, hlt]
  unfold checkColors
  rw [hclashes, hstrays]
  rfl

/-- The checks of the sets do not fail, neither before nor after registers were given out. -/
theorem Finished.checkPartition_eq_ok (h : Finished g a) :
    a.checkPartition = .ok () ∧ a.assignAll.checkPartition = .ok () := by
  obtain ⟨hunwound, hinherits, -⟩ := h.assignAll
  refine ⟨Allocator.checkPartition_eq_ok h.underway.tidy.sorted h.underway.tidy.queued
    fun t ht => ?_,
    Allocator.checkPartition_eq_ok hinherits.tidy.sorted hinherits.tidy.queued fun t ht => ?_⟩
  · rcases h.underway.finished h.next? ht with hs | hs <;> rw [hs] <;> decide
  · rw [hinherits.graph, hunwound.graph] at ht
    rcases h.status_assignAll ht with ⟨-, hs | hs⟩ | ⟨-, hs⟩ <;> rw [hs] <;> decide

/-! ### The stages -/

/-- A stage whose check succeeds hands its state and its events on. -/
theorem runStages_of_ok {check : Except Failure Unit} (h : check = .ok ()) (state : Allocator)
    (events : List Event) (ss : List Stage) :
    runStages a (⟨state, events, check⟩ :: ss) =
      ((runStages state ss).1,
        ⟨events ++ (runStages state ss).2.events, (runStages state ss).2.outcome⟩) := by
  rw [runStages, h]

/-- The events of a round none of whose checks fails. -/
def roundEvents (a : Allocator) (rs : List Routine) : List Event :=
  let built := a.build rs
  let (actions, drained) := built.sort.drain
  .graphBuilt built.graph.nodes.size built.graph.edges.size built.graph.moves.size ::
    (actions.flatMap Action.events ++ (drained.actualSpills drained.assignAll).map .actualSpill ++
      [drained.assignAll.summary])

/-- A round ends with a colouring if none of its checks fails. -/
theorem round_of_checks (a : Allocator) (rs : List Routine) (hregisters : a.registers ≠ 0)
    (hbuilt : (a.build rs).checkSymmetry = .ok ())
    (hsorted : (a.build rs).sort.checkPartition = .ok ())
    (hsymmetry : (a.build rs).sort.drain.2.checkSymmetry = .ok ())
    (hpartition : (a.build rs).sort.drain.2.checkPartition = .ok ())
    (hassigned : (a.build rs).sort.drain.2.assignAll.checkPartition = .ok ())
    (hcolors : (a.build rs).sort.drain.2.assignAll.checkColors = .ok ()) :
    a.round rs = ((a.build rs).sort.drain.2.assignAll,
      ⟨a.roundEvents rs, .ok (a.build rs).sort.drain.2.assignAll.coloring⟩) := by
  -- The last two stages make two checks each.
  have hdrained : (do
      (a.build rs).sort.drain.2.checkSymmetry
      (a.build rs).sort.drain.2.checkPartition) = Except.ok () := by
    rw [hsymmetry, hpartition]
    rfl
  have hfinal : (do
      (a.build rs).sort.drain.2.assignAll.checkPartition
      (a.build rs).sort.drain.2.assignAll.checkColors) = Except.ok () := by
    rw [hassigned, hcolors]
    rfl
  unfold round
  rw [if_neg hregisters]
  unfold stages
  dsimp only
  rw [runStages_of_ok hbuilt, runStages_of_ok hsorted, runStages_of_ok hdrained,
    runStages_of_ok hfinal]
  simp [runStages, roundEvents, bind, Logged.andThen, pure, Logged.emit]

/-- A merge is reported exactly if such an action was taken. -/
theorem merged_mem_roundEvents {rs : List Routine} {u v : Temp} :
    Event.merged v u ∈ a.roundEvents rs ↔
      ∃ index m, Action.merge index m u v ∈ (a.build rs).sort.drain.1 := by
  simp only [roundEvents, summary, List.mem_cons, List.mem_append, List.mem_flatMap, List.mem_map,
    reduceCtorEq, and_false, exists_false, or_false, false_or, List.not_mem_nil]
  constructor
  · rintro ⟨action, hmem, hevent⟩
    cases action with
    | merge index m u' v' =>
        simp only [Action.events, List.mem_singleton, Event.merged.injEq] at hevent
        obtain ⟨rfl, rfl⟩ := hevent
        exact ⟨index, m, hmem⟩
    | spill t forced =>
        cases forced <;> simp [Action.events] at hevent
    | _ => simp [Action.events] at hevent
  · rintro ⟨index, m, hmem⟩
    exact ⟨_, hmem, by simp [Action.events]⟩

/-! ### The round -/

section New

variable (registers : Nat) (shielded : TempSet) (rs : List Routine)

/-- The state of a new allocator after all actions were taken. -/
def drained : Allocator :=
  ((Allocator.new registers shielded).build rs).sort.drain.2

/-- The final state is a later one of the allocation that started. -/
theorem steps_drained :
    Steps ((Allocator.new registers shielded).build rs).restart
      (drained registers shielded rs) := by
  have hsort := (tidy_restart registers shielded rs).steps_sort
  exact hsort.trans (hsort.tidy.steps_runs (runs_drain _))

/-- When all actions were taken, nothing is left to do. -/
theorem finished_drained :
    Finished (Interference.ofRoutines rs) (drained registers shielded rs) := by
  have hunderway := underway_sort registers shielded rs
  exact ⟨hunderway.runs (runs_drain _), hunderway.tidy.next?_drain,
    (steps_drained registers shielded rs).colors⟩

/-- The check of the sets does not fail after sorting. -/
theorem checkPartition_sort :
    ((Allocator.new registers shielded).build rs).sort.checkPartition = .ok () := by
  have hunderway := underway_sort registers shielded rs
  refine checkPartition_eq_ok hunderway.tidy.sorted hunderway.tidy.queued fun t ht => ?_
  rcases hunderway.inPlay t ht with hs | hs | hs | hs | hs <;> rw [hs] <;> decide

/-- The colouring that a round of a new allocator ends with. -/
def finalColoring : Coloring :=
  (drained registers shielded rs).assignAll.coloring

/-- The registers of the colouring are those of the final state. -/
theorem colors_finalColoring :
    (finalColoring registers shielded rs).colors
      = (drained registers shielded rs).assignAll.colors := by
  rw [finalColoring, coloring]

/-- The spills of the colouring are the temporaries of that status. -/
theorem spilled_finalColoring :
    (finalColoring registers shielded rs).spilled
      = (drained registers shielded rs).assignAll.sets.spilled := by
  rw [finalColoring, coloring]

/-- No check of a round of a new allocator fails. -/
theorem ofRoutines_eq (hregisters : registers ≠ 0) :
    Coloring.ofRoutines registers shielded rs =
      ⟨(Allocator.new registers shielded).roundEvents rs,
        .ok (finalColoring registers shielded rs)⟩ := by
  have hfinished := finished_drained registers shielded rs
  have hround := round_of_checks (Allocator.new registers shielded) rs hregisters
    (checkSymmetry_eq_ok (Interference.sound_ofRoutines rs))
    (checkPartition_sort registers shielded rs)
    (checkSymmetry_eq_ok hfinished.underway.tidy.sound)
    hfinished.checkPartition_eq_ok.1 hfinished.checkPartition_eq_ok.2 hfinished.checkColors_eq_ok
  rw [Coloring.ofRoutines, hround]
  rfl

/-! ### The colouring -/

/-- The number of registers remains. -/
theorem registers_drained : (drained registers shielded rs).registers = registers :=
  (steps_drained registers shielded rs).registers

/-- The nodes of the final graph are the temporaries that are mentioned. -/
theorem mem_nodes_drained : t ∈ (drained registers shielded rs).graph.nodes ↔ Mentioned rs t := by
  rw [(finished_drained registers shielded rs).underway.nodes, Interference.mem_nodes_ofRoutines]

/-- A temporary is spilled just if this is its final status. -/
theorem mem_spilled_finalColoring :
    t ∈ (finalColoring registers shielded rs).spilled ↔
      (drained registers shielded rs).assignAll.status t = .spilled := by
  obtain ⟨-, hinherits, -⟩ := (finished_drained registers shielded rs).assignAll
  rw [spilled_finalColoring]
  exact hinherits.tidy.sorted.mem_spilled

/-- Only temporaries of the code are spilled. -/
theorem mentioned_of_mem_spilled (ht : t ∈ (finalColoring registers shielded rs).spilled) :
    Mentioned rs t := by
  obtain ⟨hunwound, hinherits, -⟩ := (finished_drained registers shielded rs).assignAll
  rw [← mem_nodes_drained registers shielded, ← hunwound.graph, ← hinherits.graph]
  exact hinherits.tidy.mem_nodes_of_status ((mem_spilled_finalColoring _ _ _).mp ht) (by decide)

/-- Exactly the temporaries of the code that are not spilled have a register. -/
theorem mem_colors_finalColoring (hle : registers ≤ 256) :
    t ∈ (finalColoring registers shielded rs).colors ↔
      Mentioned rs t ∧ t ∉ (finalColoring registers shielded rs).spilled := by
  have hfinished := finished_drained registers shielded rs
  rw [← Std.ExtTreeMap.isSome_getElem?_iff_mem, mem_spilled_finalColoring, colors_finalColoring,
    ← mem_nodes_drained registers shielded]
  exact hfinished.isSome_colors_iff (by rw [registers_drained]; exact hle)

/-- Temporaries that are kept apart have different registers. -/
theorem finalColoring_apart {u v : Temp} (hne : u ≠ v) (hapart : KeptApart rs u v)
    (hu : (finalColoring registers shielded rs).colors[u]? = some r) :
    (finalColoring registers shielded rs).colors[v]? ≠ some r := by
  have hfinished := finished_drained registers shielded rs
  have hedge := (Interference.mem_neighbors_ofRoutines rs u v).mpr ⟨hne, hapart⟩
  rw [colors_finalColoring] at hu ⊢
  exact fun hv => hfinished.apart (hfinished.underway.edges u v hedge) hv hu

/-- What is spilled was forced: it was chosen from a dense set of the graph as it
was built, and that set was shielded if the choice was. -/
theorem exists_dense_of_mem_spilled (hle : registers ≤ 256)
    (ht : t ∈ (finalColoring registers shielded rs).spilled) :
    ∃ s ⊆ (Interference.ofRoutines rs).nodes.toFinset, t ∈ s ∧
      Dense (Interference.ofRoutines rs).nbrs registers s ∧
      (t ∈ shielded → s ⊆ shielded.toFinset) := by
  have hregisters : (drained registers shielded rs).registers ≤ 256 := by
    rw [registers_drained]
    exact hle
  obtain ⟨-, s, hs, hmem, hdense, hshield⟩ := (finished_drained registers shielded rs).forced
    hregisters ((mem_spilled_finalColoring _ _ _).mp ht)
  rw [registers_drained] at hdense
  rw [(steps_drained registers shielded rs).shielded] at hshield
  exact ⟨s, hs, hmem, hdense, fun h => hshield (TempSet.mem_toFinset.mpr h)⟩

/-- Only temporaries of the core of the graph are spilled. -/
theorem mem_core_of_mem_spilled (hle : registers ≤ 256) :
    ∀ t ∈ (finalColoring registers shielded rs).spilled,
      t ∈ core (Interference.ofRoutines rs).nbrs registers
        (Interference.ofRoutines rs).nodes.toFinset := by
  intro t ht
  obtain ⟨s, hs, hmem, hdense, -⟩ := exists_dense_of_mem_spilled registers shielded rs hle ht
  exact mem_core.mpr ⟨s, hs, hdense, hmem⟩

/-- A shielded temporary is spilled only if it is in the core of the shielded ones alone. -/
theorem mem_core_of_shielded (hle : registers ≤ 256) :
    ∀ t ∈ (finalColoring registers shielded rs).spilled, t ∈ shielded →
      t ∈ core (Interference.ofRoutines rs).nbrs registers
        ((Interference.ofRoutines rs).nodes.toFinset ∩ shielded.toFinset) := by
  intro t ht hshielded
  obtain ⟨s, hs, hmem, hdense, hshield⟩ := exists_dense_of_mem_spilled registers shielded rs hle ht
  exact mem_core.mpr ⟨s, Finset.subset_inter hs (hshield hshielded), hdense, hmem⟩

end New

end Allocator

end MmixCodegen
