import MmixCodegen.Proofs.Flow.Analyze

/-!
# `MmixCodegen.Proofs.Flow.Least`: nothing is live without a reason

The equations of a flow graph may have several solutions, and those with larger live sets
would do for the runs of a routine. An analysis starts from empty sets, so it finds the
least one. `FlowGraph.Closed` says of a bound on what may be live before each instruction
that it allows what the instructions ask for. The live sets of an analysis are then within
it: `Routine.bounded_analyze`.
-/

set_option autoImplicit false

namespace MmixCodegen

namespace Flow

/-- What is needed behind a node, if `bound` says what is needed before each instruction. -/
def Node.Passes (n : Node) (exitLive : Option Temp) (bound : Nat → Temp → Prop) (t : Temp) : Prop :=
  (n.exits = true ∧ exitLive = some t) ∨ ∃ s ∈ n.succs, bound s t

end Flow

namespace FlowGraph

variable {g : FlowGraph} {bound : Nat → Temp → Prop} {lives : Array Live}

/-- The bound allows whatever an instruction reads, and whatever is needed behind it and
not written by it. -/
def Closed (g : FlowGraph) (bound : Nat → Temp → Prop) : Prop :=
  ∀ ⦃index : Nat⦄ ⦃n : Flow.Node⦄ ⦃t : Temp⦄, g.nodes[index]? = some n →
    t ∈ n.uses ∨ (n.Passes g.exitLive bound t ∧ t ∉ n.defs) → bound index t

/-- What is live before the instructions is within the bound. -/
def Bounded (bound : Nat → Temp → Prop) (lives : Array Live) : Prop :=
  ∀ index, ∀ t ∈ before lives index, bound index t

namespace Bounded

/-- Empty live sets are within any bound. -/
theorem none (n : Nat) : Bounded bound (Array.replicate n .none) := by
  intro index t ht
  rw [before, getD_replicate_none] at ht
  simp [Live.none] at ht

/-- What the equations put behind a node is what the bound says is needed there. -/
theorem mem_after (h : Bounded bound lives) {n : Flow.Node} {exitLive : Option Temp} {t : Temp}
    (ht : t ∈ (Flow.transfer exitLive (before lives) n).after) : n.Passes exitLive bound t := by
  rcases Flow.mem_after_transfer.mp ht with hexit | ⟨s, hs, ht⟩
  · exact .inl hexit
  · exact .inr ⟨s, hs, h s t ht⟩

/-- Computing one live set anew stays within a closed bound. -/
theorem refresh (h : Bounded bound lives) (hclosed : g.Closed bound) {index : Nat}
    {n : Flow.Node} (hindex : index < lives.size) (hn : g.nodes[index]? = some n) :
    Bounded bound (refresh g.exitLive (n, index) lives) := by
  intro other t ht
  rw [before, getD_refresh hindex] at ht
  split at ht
  · next heq =>
      subst heq
      refine hclosed hn ?_
      rcases Flow.mem_before_transfer.mp ht with huse | ⟨ht, hdef⟩
      · exact .inl huse
      · exact .inr ⟨h.mem_after ht, hdef⟩
  · exact h other t ht

/-- So does computing any of them anew, one after the other. -/
theorem foldr_refresh (h : Bounded bound lives) (hclosed : g.Closed bound)
    (hsize : lives.size = g.nodes.length) {entries : List (Flow.Node × Nat)}
    (hentries : ∀ e ∈ entries, g.nodes[e.2]? = some e.1) :
    (entries.foldr (FlowGraph.refresh g.exitLive) lives).size = g.nodes.length ∧
      Bounded bound (entries.foldr (FlowGraph.refresh g.exitLive) lives) := by
  induction entries with
  | nil => exact ⟨hsize, h⟩
  | cons e entries ih =>
      obtain ⟨hrest, hbounded⟩ := ih fun e he => hentries e (List.mem_cons_of_mem _ he)
      have hn := hentries e List.mem_cons_self
      have hindex : e.2 < (entries.foldr (FlowGraph.refresh g.exitLive) lives).size := by
        rw [hrest]
        exact (List.getElem?_eq_some_iff.mp hn).1
      exact ⟨Array.size_setIfInBounds.trans hrest, hbounded.refresh hclosed hindex hn⟩

/-- No number of passes leads out of the bound. -/
theorem settleWithin (h : Bounded bound lives) (hclosed : g.Closed bound)
    (hsize : lives.size = g.nodes.length) (fuel : Nat) :
    Bounded bound (g.settleWithin fuel lives).1 := by
  induction fuel generalizing lives with
  | zero => exact h
  | succ fuel ih =>
      obtain ⟨hpass, hbounded⟩ := h.foldr_refresh hclosed hsize (Rising.zipIdx_entries g)
      unfold FlowGraph.settleWithin
      dsimp only
      split
      · exact h
      · exact ih hbounded hpass

end Bounded

/-- The live sets that settle are within every closed bound. -/
theorem bounded_settle (hclosed : g.Closed bound) : Bounded bound g.settle.1 :=
  (Bounded.none g.nodes.length).settleWithin hclosed Array.size_replicate _

end FlowGraph

namespace Routine

variable {r : Routine} {bound : Nat → Temp → Prop}

/-- An analysis finds one pair of live sets for each instruction. -/
theorem size_settle (r : Routine) : (FlowGraph.ofRoutine r).settle.1.size = r.instrs.length := by
  rw [(FlowGraph.settle_fixed (FlowGraph.ofRoutine r)).1.size_eq]
  simp [FlowGraph.ofRoutine]

/-- What an analysis finds to be live is within any bound that its flow graph allows. -/
theorem bounded_analyze (hclosed : (FlowGraph.ofRoutine r).Closed bound) {index : Nat} {i : Instr}
    (hi : r.analyze.1.instrs[index]? = some i) :
    ∃ j, r.instrs[index]? = some j ∧ i.kind = j.kind ∧ (∀ t ∈ i.live.before, bound index t) ∧
      ∀ t ∈ i.live.after,
        (Flow.node r index j).Passes (FlowGraph.ofRoutine r).exitLive bound t := by
  obtain ⟨hrising, hpass⟩ := FlowGraph.settle_fixed (FlowGraph.ofRoutine r)
  have hbounded := FlowGraph.bounded_settle hclosed
  replace hi : (r.withLives (FlowGraph.ofRoutine r).settle.1).instrs[index]? = some i := hi
  rw [r.getElem?_withLives r.size_settle] at hi
  obtain ⟨j, hj, rfl⟩ := Option.map_eq_some_iff.mp hi
  have hnode : (FlowGraph.ofRoutine r).nodes[index]? = some (Flow.node r index j) := by
    simp [FlowGraph.ofRoutine, hj]
  refine ⟨j, hj, rfl, hbounded index, fun t ht => ?_⟩
  rw [FlowGraph.getD_eq_transfer_of_pass hrising hpass hnode] at ht
  exact hbounded.mem_after ht

/-- The temporary that is live at the exit is the return value, if it is written at all. -/
theorem exitLive_eq_some {t : Temp} :
    (FlowGraph.ofRoutine r).exitLive = some t ↔ r.definesResult = true ∧ r.frame.rv = t := by
  simp [FlowGraph.ofRoutine]

/-- An analysis changes the live sets of a routine, and nothing else. -/
theorem map_kind_analyze (r : Routine) :
    r.analyze.1.instrs.map Instr.kind = r.instrs.map Instr.kind :=
  r.map_kind_withLives r.size_settle

/-- Every temporary that an analyzed routine mentions is an operand somewhere. -/
theorem exists_operand_of_analyze {i : Instr} (hi : i ∈ r.analyze.1.instrs) {t : Temp}
    (ht : t ∈ i.temps) : ∃ j ∈ r.instrs, t ∈ j.operands := by
  -- The bound is the same for all instructions.
  have hpasses : ∀ (n : Flow.Node) (t : Temp), n.Passes (FlowGraph.ofRoutine r).exitLive
      (fun _ t => ∃ j ∈ r.instrs, t ∈ j.operands) t → ∃ j ∈ r.instrs, t ∈ j.operands := by
    rintro n t (⟨-, hlive⟩ | ⟨s, -, hoperand⟩)
    · obtain ⟨hdefines, rfl⟩ := exitLive_eq_some.mp hlive
      obtain ⟨j, hj, hdef⟩ := List.any_eq_true.mp hdefines
      exact ⟨j, hj, List.mem_append_right _ (List.contains_iff_mem.mp hdef)⟩
    · exact hoperand
  have hclosed : (FlowGraph.ofRoutine r).Closed fun _ t => ∃ j ∈ r.instrs, t ∈ j.operands := by
    rintro index n t hn (huse | ⟨ht, -⟩)
    · simp only [FlowGraph.ofRoutine, List.getElem?_mapIdx] at hn
      obtain ⟨j, hj, rfl⟩ := Option.map_eq_some_iff.mp hn
      exact ⟨j, List.mem_of_getElem? hj, List.mem_append_left _ huse⟩
    · exact hpasses n t ht
  obtain ⟨index, hi⟩ := List.getElem?_of_mem hi
  obtain ⟨j, hj, hkind, hbefore, hafter⟩ := bounded_analyze hclosed hi
  rw [Instr.temps, List.mem_append, List.mem_append, Std.ExtTreeSet.mem_toList,
    Std.ExtTreeSet.mem_toList] at ht
  rcases ht with (ht | ht) | ht
  · refine ⟨j, List.mem_of_getElem? hj, ?_⟩
    rwa [Instr.operands, Instr.uses, Instr.defs, hkind] at ht
  · exact hbefore t ht
  · exact hpasses _ t (hafter t ht)

end Routine

end MmixCodegen
