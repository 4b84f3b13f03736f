import MmixCodegen.Proofs.Allocator.Round

/-!
# `MmixCodegen.Proofs.Coloring`: what a round of colouring promises

The theorems are about a single round over the code of some routines, whatever
live sets their instructions carry:

* `ofRoutines_keeps_apart`: the round has an outcome, and temporaries that some
  instruction keeps apart do not share a register;
* `ofRoutines_partitions`: each temporary either has a register or is spilled;
* `spilled_subset_core`: what is spilled is in a part of the interference graph
  that is too dense, before anything was merged.

The last two need that there are no more than 256 registers, since no others can
be named.
-/

set_option autoImplicit false

namespace MmixCodegen

namespace Coloring

open Allocator

/-! ### Registers -/

/-- A round over any code ends with a colouring. Its actions run out, none of its
checks fails, all registers may be allocated, and temporaries that an instruction
keeps apart have different registers. -/
theorem ofRoutines_keeps_apart (registers : Nat) (hregisters : 1 ≤ registers) (shielded : TempSet)
    (rs : List Routine) :
    ((Allocator.new registers shielded).build rs).sort.drain.2.next? = none ∧
    ∃ c, (Coloring.ofRoutines registers shielded rs).outcome = .ok c ∧
      (∀ (t : Temp) (r : Register), c.colors[t]? = some r → r.index.toNat < registers) ∧
      ∀ (u v : Temp) (r s : Register), u ≠ v → KeptApart rs u v →
        c.colors[u]? = some r → c.colors[v]? = some s → r ≠ s := by
  have hfinished := finished_drained registers shielded rs
  refine ⟨hfinished.next?, finalColoring registers shielded rs, ?_, ?_, ?_⟩
  · rw [ofRoutines_eq registers shielded rs (by omega)]
  · intro t r hr
    have hlt := hfinished.lt_registers hr
    rwa [registers_drained] at hlt
  · intro u v r s hne hapart hu hv heq
    exact finalColoring_apart registers shielded rs hne hapart hu (heq ▸ hv)

/-- Three temporaries of which one is copied while another one is live. -/
def crossing : Routine where
  frame := ⟨⟨"f"⟩, 0, 0, 0, 0, ⟨0⟩, ⟨1⟩⟩
  entry := ⟨"f"⟩
  exit := ⟨"f.exit"⟩
  instrs :=
    [⟨.oper "SETL `d0,1" [] [⟨2⟩] [], ⟨∅, .ofList [⟨2⟩]⟩⟩,
      ⟨.oper "SETL `d0,2" [] [⟨3⟩] [], ⟨.ofList [⟨2⟩], .ofList [⟨2⟩, ⟨3⟩]⟩⟩,
      ⟨.move Instr.moveTemplate ⟨4⟩ ⟨2⟩, ⟨.ofList [⟨2⟩, ⟨3⟩], .ofList [⟨3⟩, ⟨4⟩]⟩⟩,
      ⟨.oper "ADD `d0,`s0,`s1" [⟨3⟩, ⟨4⟩] [⟨1⟩] [], ⟨.ofList [⟨3⟩, ⟨4⟩], .ofList [⟨1⟩]⟩⟩]
  slots := .empty

/-- With a single register the copy and the other temporary cannot both have it. -/
theorem crossing_keeps_apart :
    1 ≤ 1 ∧ ∃ c, (Coloring.ofRoutines 1 ∅ [crossing]).outcome = .ok c ∧
      ∀ r s : Register, c.colors[(⟨3⟩ : Temp)]? = some r →
        c.colors[(⟨4⟩ : Temp)]? = some s → r ≠ s := by
  obtain ⟨-, c, hc, -, hapart⟩ := ofRoutines_keeps_apart 1 (by decide) ∅ [crossing]
  refine ⟨by decide, c, hc, fun r s => hapart ⟨3⟩ ⟨4⟩ r s (by decide) ?_⟩
  refine ⟨crossing, by simp, _, List.mem_of_getElem? (i := 2) rfl, Or.inr (Or.inl ⟨?_, ?_⟩)⟩
  · simp [TempSet.ofList]
  · simp [TempSet.ofList]

/-! ### Nothing is left out -/

/-- A round gives each temporary of the code a register or spills it, but not
both, and it does neither to others. What another temporary was merged into is
not spilled. -/
theorem ofRoutines_partitions (registers : Nat) (hpos : 1 ≤ registers) (hle : registers ≤ 256)
    (shielded : TempSet) (rs : List Routine) :
    ∃ c, (Coloring.ofRoutines registers shielded rs).outcome = .ok c ∧
      (∀ t, t ∈ c.colors ∨ t ∈ c.spilled ↔ Mentioned rs t) ∧
      (∀ t, ¬(t ∈ c.colors ∧ t ∈ c.spilled)) ∧
      ∀ u v, Event.merged v u ∈ (Coloring.ofRoutines registers shielded rs).events →
        u ∉ c.spilled := by
  refine ⟨finalColoring registers shielded rs, ?_, fun t => ?_, fun t => ?_, ?_⟩
  · rw [ofRoutines_eq registers shielded rs (by omega)]
  · rw [mem_colors_finalColoring registers shielded rs hle]
    constructor
    · rintro (⟨hmem, -⟩ | hs)
      · exact hmem
      · exact mentioned_of_mem_spilled registers shielded rs hs
    · intro hmem
      by_cases hs : t ∈ (finalColoring registers shielded rs).spilled
      · exact Or.inr hs
      · exact Or.inl ⟨hmem, hs⟩
  · rw [mem_colors_finalColoring registers shielded rs hle]
    rintro ⟨⟨-, hne⟩, hs⟩
    exact hne hs
  · intro u v hevent hmem
    rw [ofRoutines_eq registers shielded rs (by omega), merged_mem_roundEvents] at hevent
    obtain ⟨index, m, hmerge⟩ := hevent
    obtain ⟨hne, hrep⟩ := (underway_sort registers shielded rs).representative_eq_of_merge
      (runs_drain _) hmerge
    -- What `u` stands for is `u` itself, and nothing else stands for it.
    have hfinished := finished_drained registers shielded rs
    have hnode := (mem_nodes_drained registers shielded rs).mpr
      (mentioned_of_mem_spilled registers shielded rs hmem)
    rw [mem_spilled_finalColoring] at hmem
    have hself : (drained registers shielded rs).representative u = u := by
      rcases hfinished.status_assignAll hnode with ⟨hs, -⟩ | ⟨-, hs⟩
      · exact representative_of_not_coalesced (by rw [hs]; decide)
      · rw [hmem] at hs
        cases hs
    have hregisters : (drained registers shielded rs).registers ≤ 256 := by
      rw [registers_drained]
      exact hle
    exact hne (hfinished.representative_ne_of_spilled hregisters hmem (hrep.trans hself)).symm

/-- Two registers are enough for `crossing`, and a temporary that it does not mention is neither
coloured nor spilled. -/
theorem crossing_partitions :
    (1 ≤ 2 ∧ 2 ≤ 256) ∧ ∃ c, (Coloring.ofRoutines 2 ∅ [crossing]).outcome = .ok c ∧
      ((⟨4⟩ : Temp) ∈ c.colors ∨ ⟨4⟩ ∈ c.spilled) ∧
        ¬((⟨9⟩ : Temp) ∈ c.colors ∨ ⟨9⟩ ∈ c.spilled) := by
  obtain ⟨c, hc, hpartition, -, -⟩ := ofRoutines_partitions 2 (by decide) (by decide) ∅ [crossing]
  refine ⟨by decide, c, hc, (hpartition ⟨4⟩).mpr ?_, fun h => ?_⟩
  · exact ⟨crossing, by simp, _, List.mem_of_getElem? (i := 2) rfl,
      by simp [Instr.mem_temps, Instr.defs]⟩
  · obtain ⟨r, hr, i, hi, ht⟩ := (hpartition ⟨9⟩).mp h
    rw [List.mem_singleton] at hr
    subst hr
    simp only [crossing, List.mem_cons, List.not_mem_nil, or_false] at hi
    rcases hi with rfl | rfl | rfl | rfl <;>
      simp [Instr.mem_temps, Instr.defs, Instr.uses, TempSet.ofList] at ht

/-! ### Spilling is forced -/

/-- What a round spills is in the core of the interference graph, and what it
spills although it is shielded is in the core of the shielded part. So nothing is
spilled if the graph can be emptied by taking out temporaries of low degree. -/
theorem spilled_subset_core (registers : Nat) (hpos : 1 ≤ registers) (hle : registers ≤ 256)
    (shielded : TempSet) (rs : List Routine) :
    ∃ c, (Coloring.ofRoutines registers shielded rs).outcome = .ok c ∧
      let g := Interference.ofRoutines rs
      (∀ t ∈ c.spilled, t ∈ core g.nbrs registers g.nodes.toFinset) ∧
      (∀ t ∈ c.spilled, t ∈ shielded →
        t ∈ core g.nbrs registers (g.nodes.toFinset ∩ shielded.toFinset)) ∧
      (Peels g.nbrs registers g.nodes.toFinset → c.spilled = ∅) ∧
      (Peels g.nbrs registers (g.nodes.toFinset ∩ shielded.toFinset) →
        ∀ t ∈ c.spilled, t ∉ shielded) := by
  have hcore := mem_core_of_mem_spilled registers shielded rs hle
  have hshielded := mem_core_of_shielded registers shielded rs hle
  refine ⟨finalColoring registers shielded rs, ?_, hcore, hshielded, fun hpeels => ?_,
    fun hpeels t ht hmem => ?_⟩
  · rw [ofRoutines_eq registers shielded rs (by omega)]
  · rw [Std.ExtTreeSet.eq_empty_iff_forall_not_mem]
    intro t ht
    have hin := hcore t ht
    rw [hpeels.core_eq_empty] at hin
    exact absurd hin (Finset.notMem_empty t)
  · have hin := hshielded t ht hmem
    rw [hpeels.core_eq_empty] at hin
    exact absurd hin (Finset.notMem_empty t)

/-- Two registers are enough. -/
theorem crossing_spills_nothing :
    (1 ≤ 2 ∧ 2 ≤ 256) ∧
      ∃ c, (Coloring.ofRoutines 2 ∅ [crossing]).outcome = .ok c ∧ c.spilled = ∅ := by
  obtain ⟨c, hc, -, -, hpeels, -⟩ := spilled_subset_core 2 (by decide) (by decide) ∅ [crossing]
  refine ⟨by decide, c, hc, hpeels ?_⟩
  refine .erase (t := ⟨1⟩) (by decide +kernel) (by decide +kernel) ?_
  refine .erase (t := ⟨2⟩) (by decide +kernel) (by decide +kernel) ?_
  refine .erase (t := ⟨3⟩) (by decide +kernel) (by decide +kernel) ?_
  refine .erase (t := ⟨4⟩) (by decide +kernel) (by decide +kernel) ?_
  exact .of_eq_empty (by decide +kernel)

end Coloring

end MmixCodegen
