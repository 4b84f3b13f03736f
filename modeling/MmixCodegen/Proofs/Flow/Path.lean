import MmixCodegen.Proofs.Flow.Least
import MmixCodegen.Proofs.Layout

/-!
# `MmixCodegen.Proofs.Flow.Path`: liveness is a matter of paths

A temporary is needed at an instruction if some path from there, along which it is not
written, ends where it is read, or where control leaves the routine and it is the return
value. This is `Routine.Needed`, and it does not mention live sets at all.

`Routine.analyze_eq_needed` says that an analysis finds just that. One direction holds of
every solution of the equations of a flow graph, by induction on the path
(`Routine.mem_before_of_needed`). For the other one it matters that the analysis finds the
least solution: what is needed satisfies the equations, so nothing else is live
(`Routine.closed_needed`).
-/

set_option autoImplicit false

namespace MmixCodegen

namespace Flow

/-- A label has no index just if no instruction sets it. -/
theorem labelIndex?_eq_none {l : Label} {instrs : List Instr} :
    labelIndex? l instrs = none ↔ ∀ i ∈ instrs, i.label? ≠ some l := by
  rw [labelIndex?, lastIndex?_eq_none_iff]
  simp only [decide_eq_false_iff_not, ne_eq]

end Flow

namespace Routine

variable {r : Routine} {t : Temp} {index next last : Nat} {i : Instr}

/-- Control may go on from one instruction to another. -/
def Goes (r : Routine) (index next : Nat) : Prop :=
  ∃ n, (FlowGraph.ofRoutine r).nodes[index]? = some n ∧ next ∈ n.succs

/-- The return value is written somewhere, and control may leave the routine from the
instruction: it jumps to the exit label, and no instruction sets that label. -/
structure Returns (r : Routine) (i : Instr) : Prop where
  written : ∃ j ∈ r.instrs, r.frame.rv ∈ j.defs
  jumps : r.exit ∈ i.jumps
  unset : ∀ j ∈ r.instrs, j.label? ≠ some r.exit

/-- A path from one instruction to another along which `t` is not written, except perhaps by
the last instruction. -/
inductive Path (r : Routine) (t : Temp) : Nat → Nat → Prop
  | refl (index : Nat) : Path r t index index
  | step {index next last : Nat} {i : Instr} (here : r.instrs[index]? = some i)
      (keeps : t ∉ i.defs) (goes : r.Goes index next) (rest : Path r t next last) :
      Path r t index last

/-- A path leads to an instruction that reads `t`, or to one that may leave the routine with
`t` as its return value. -/
def Needed (r : Routine) (index : Nat) (t : Temp) : Prop :=
  ∃ last i, r.Path t index last ∧ r.instrs[last]? = some i ∧
    (t ∈ i.uses ∨ (t = r.frame.rv ∧ r.Returns i ∧ t ∉ i.defs))

/-- The nodes of a flow graph stand at the places of their instructions. -/
theorem getElem?_nodes (h : r.instrs[index]? = some i) :
    (FlowGraph.ofRoutine r).nodes[index]? = some (Flow.node r index i) := by
  simp [FlowGraph.ofRoutine, h]

/-- Control goes on from an instruction to the successors of its node. -/
theorem goes_iff (h : r.instrs[index]? = some i) :
    r.Goes index next ↔ next ∈ (Flow.node r index i).succs := by
  rw [Goes, getElem?_nodes h]
  simp

/-- Without jumps, control goes on to the next instruction, if there is one. -/
theorem goes_of_straight (hi : r.instrs[index]? = some i) (hjumps : i.jumps = []) :
    r.Goes index next ↔ next = index + 1 ∧ index + 1 < r.instrs.length := by
  rw [goes_iff hi]
  show next ∈ (if i.jumps.isEmpty then if index + 1 < r.instrs.length then [index + 1] else []
    else Flow.targets r.instrs i.jumps) ↔ _
  rw [hjumps, List.isEmpty_nil, if_pos rfl]
  split
  · next hlt => simp [hlt]
  · next hge => simp [hge]

/-- With jumps, control goes on where one of their labels is set. -/
theorem goes_of_jump (hi : r.instrs[index]? = some i) (hjumps : i.jumps ≠ []) :
    r.Goes index next ↔ ∃ l ∈ i.jumps, Flow.labelIndex? l r.instrs = some next := by
  rw [goes_iff hi]
  show next ∈ (if i.jumps.isEmpty then if index + 1 < r.instrs.length then [index + 1] else []
    else Flow.targets r.instrs i.jumps) ↔ _
  rw [if_neg (by simpa using hjumps), Flow.targets, List.mem_eraseDups, List.mem_filterMap]

/-- The flow graph keeps the return value alive where the routine returns it. -/
theorem returns_iff :
    (Flow.node r index i).exits = true ∧ (FlowGraph.ofRoutine r).exitLive = some t ↔
      t = r.frame.rv ∧ r.Returns i := by
  have hexits : (Flow.node r index i).exits = true ↔
      r.exit ∈ i.jumps ∧ ∀ j ∈ r.instrs, j.label? ≠ some r.exit := by
    show Flow.leaves r.instrs r.exit i.jumps = true ↔ _
    rw [← Flow.labelIndex?_eq_none, Flow.leaves, List.any_eq_true]
    constructor
    · rintro ⟨l, hl, hleaves⟩
      rw [Bool.and_eq_true, decide_eq_true_eq, Option.isNone_iff_eq_none] at hleaves
      obtain ⟨rfl, hnone⟩ := hleaves
      exact ⟨hl, hnone⟩
    · rintro ⟨hjump, hnone⟩
      exact ⟨r.exit, hjump, by simp [hnone]⟩
  have hwritten : r.definesResult = true ↔ ∃ j ∈ r.instrs, r.frame.rv ∈ j.defs := by
    simp [definesResult]
  rw [hexits, exitLive_eq_some, hwritten]
  constructor
  · rintro ⟨⟨hjumps, hunset⟩, hwritten, rfl⟩
    exact ⟨rfl, hwritten, hjumps, hunset⟩
  · rintro ⟨rfl, hwritten, hjumps, hunset⟩
    exact ⟨⟨hjumps, hunset⟩, hwritten, rfl⟩

/-! ### The equations -/

/-- The live sets that an analysis finds for an instruction. -/
def solution (r : Routine) (index : Nat) : Live :=
  (FlowGraph.ofRoutine r).settle.1.getD index .none

/-- An analysis gives each instruction its solution, and changes nothing else. -/
theorem getElem?_analyze (r : Routine) (index : Nat) :
    r.analyze.1.instrs[index]? =
      r.instrs[index]?.map fun i => { i with live := r.solution index } :=
  r.getElem?_withLives r.size_settle index

/-- The solution satisfies the equation of each instruction. -/
theorem solution_eq (h : r.instrs[index]? = some i) :
    r.solution index = Flow.transfer (FlowGraph.ofRoutine r).exitLive
      (fun index => (r.solution index).before) (Flow.node r index i) := by
  obtain ⟨hrising, hpass⟩ := FlowGraph.settle_fixed (FlowGraph.ofRoutine r)
  exact FlowGraph.getD_eq_transfer_of_pass hrising hpass (getElem?_nodes h)

/-- A temporary is live after an instruction just if it is live before some successor, or if it
is the return value and control may leave. -/
theorem mem_after_solution (h : r.instrs[index]? = some i) :
    t ∈ (r.solution index).after ↔
      (∃ next, r.Goes index next ∧ t ∈ (r.solution next).before) ∨
        (t = r.frame.rv ∧ r.Returns i) := by
  rw [solution_eq h, Flow.mem_after_transfer, returns_iff, or_comm]
  simp only [goes_iff h]

/-- A temporary is live before an instruction just if it is read there, or live after
it and not written. -/
theorem mem_before_solution (h : r.instrs[index]? = some i) :
    t ∈ (r.solution index).before ↔ t ∈ i.uses ∨ (t ∈ (r.solution index).after ∧ t ∉ i.defs) := by
  rw [solution_eq h]
  exact Flow.mem_before_transfer

/-- There are no live sets beyond the last instruction. -/
theorem exists_instr_of_mem_before (h : t ∈ (r.solution index).before) :
    ∃ i, r.instrs[index]? = some i := by
  by_contra hnone
  have hge : r.instrs.length ≤ index := by
    rw [← List.getElem?_eq_none_iff, Option.eq_none_iff_forall_ne_some]
    exact fun i hi => hnone ⟨i, hi⟩
  have hsize : (FlowGraph.ofRoutine r).settle.1.size ≤ index := by rwa [r.size_settle]
  rw [solution, Array.getD_eq_getD_getElem?, Array.getElem?_eq_none hsize] at h
  simp [Live.none] at h

/-- What an instruction asks for, in terms of where control may go. -/
theorem closed_of_steps {bound : Nat → Temp → Prop}
    (h : ∀ (index : Nat) (i : Instr) (t : Temp), r.instrs[index]? = some i →
      t ∈ i.uses ∨ (((∃ next, r.Goes index next ∧ bound next t) ∨ (t = r.frame.rv ∧ r.Returns i)) ∧
        t ∉ i.defs) → bound index t) : (FlowGraph.ofRoutine r).Closed bound := by
  intro index n t hn hasks
  have hi : ∃ i, r.instrs[index]? = some i ∧ Flow.node r index i = n := by
    simp only [FlowGraph.ofRoutine, List.getElem?_mapIdx] at hn
    exact Option.map_eq_some_iff.mp hn
  obtain ⟨i, hi, rfl⟩ := hi
  refine h index i t hi (hasks.imp_right fun hpasses => ⟨?_, hpasses.2⟩)
  rcases hpasses.1 with hexit | ⟨next, hnext, ht⟩
  · exact .inr (returns_iff.mp hexit)
  · exact .inl ⟨next, (goes_iff hi).mpr hnext, ht⟩

/-! ### Both directions -/

/-- What a path needs is live at its start. -/
theorem mem_before_of_path (hpath : r.Path t index last) (ht : t ∈ (r.solution last).before) :
    t ∈ (r.solution index).before := by
  induction hpath with
  | refl => exact ht
  | step here keeps goes rest ih =>
      have hafter := (mem_after_solution here).mpr (.inl ⟨_, goes, ih ht⟩)
      exact (mem_before_solution here).mpr (.inr ⟨hafter, keeps⟩)

/-- What is needed is live, by induction on the path. -/
theorem mem_before_of_needed (h : r.Needed index t) : t ∈ (r.solution index).before := by
  obtain ⟨last, i, hpath, hi, huse | ⟨hrv, hreturns, hdef⟩⟩ := h
  · exact mem_before_of_path hpath ((mem_before_solution hi).mpr (.inl huse))
  · have hafter := (mem_after_solution hi).mpr (.inr ⟨hrv, hreturns⟩)
    exact mem_before_of_path hpath ((mem_before_solution hi).mpr (.inr ⟨hafter, hdef⟩))

/-- An instruction asks for nothing that is not needed. -/
theorem closed_needed (r : Routine) : (FlowGraph.ofRoutine r).Closed r.Needed := by
  refine closed_of_steps ?_
  rintro index i t hi (huse | ⟨⟨next, hgoes, last, j, hpath, hj, hneeds⟩ | ⟨hrv, hreturns⟩, hdef⟩)
  · exact ⟨index, i, .refl index, hi, .inl huse⟩
  -- The path of the next instruction starts one step earlier.
  · exact ⟨last, j, .step hi hdef hgoes hpath, hj, hneeds⟩
  · exact ⟨index, i, .refl index, hi, .inr ⟨hrv, hreturns, hdef⟩⟩

/-- What is live before an instruction is just what is needed there. -/
theorem mem_before_iff_needed : t ∈ (r.solution index).before ↔ r.Needed index t :=
  ⟨fun ht => FlowGraph.bounded_settle r.closed_needed index t ht, mem_before_of_needed⟩

/-- Liveness is path liveness. An analysis changes live sets alone, and whatever these were
before, a temporary is live before an instruction just if it is needed there. What is live
after an instruction is what is live before those that may come next, and the return value if
the routine returns from there. -/
theorem analyze_eq_needed (r : Routine) (index : Nat) (i : Instr) (hi : r.instrs[index]? = some i) :
    ∃ live, r.analyze.1.instrs[index]? = some { i with live } ∧
      (∀ t, t ∈ live.before ↔ r.Needed index t) ∧
      ∀ t, t ∈ live.after ↔
        (∃ next j, r.Goes index next ∧ r.analyze.1.instrs[next]? = some j ∧ t ∈ j.live.before) ∨
          (t = r.frame.rv ∧ r.Returns i) := by
  have hsolution : r.analyze.1.instrs[index]? = some { i with live := r.solution index } := by
    rw [getElem?_analyze, hi]
    rfl
  refine ⟨r.solution index, hsolution, fun t => mem_before_iff_needed, fun t => ?_⟩
  rw [mem_after_solution hi]
  refine or_congr_left ⟨?_, ?_⟩
  · rintro ⟨next, hgoes, ht⟩
    obtain ⟨j, hj⟩ := exists_instr_of_mem_before ht
    exact ⟨next, { j with live := r.solution next }, hgoes, by rw [getElem?_analyze, hj]; rfl, ht⟩
  · rintro ⟨next, j, hgoes, hj, ht⟩
    rw [getElem?_analyze] at hj
    obtain ⟨_, _, rfl⟩ := Option.map_eq_some_iff.mp hj
    exact ⟨next, hgoes, ht⟩

/-- A loop that adds temporary 3 to temporary 2 until that is zero, and returns it. -/
def accumulate : Routine where
  frame := ⟨⟨"accumulate"⟩, 0, 0, 0, 0, ⟨0⟩, ⟨1⟩⟩
  entry := ⟨"accumulate"⟩
  exit := ⟨"exit"⟩
  slots := .empty
  instrs := [
    .ofKind (.label ⟨"loop"⟩),
    .ofKind (.oper "ADD `d0,`s0,`s1" [⟨2⟩, ⟨3⟩] [⟨2⟩] []),
    .ofKind (.oper "BNZ `s0,loop" [⟨2⟩] [] [⟨"loop"⟩, ⟨"done"⟩]),
    .ofKind (.label ⟨"done"⟩),
    .copy ⟨1⟩ ⟨2⟩,
    .ofKind (.oper "JMP exit" [] [] [⟨"exit"⟩])]

/-- At the branch temporary 3 is live because of the next round. -/
theorem accumulate_eq_needed :
    ∃ live, accumulate.analyze.1.instrs[2]? =
        some ⟨.oper "BNZ `s0,loop" [⟨2⟩] [] [⟨"loop"⟩, ⟨"done"⟩], live⟩ ∧ ⟨3⟩ ∈ live.before := by
  obtain ⟨live, hlive, hbefore, -⟩ := analyze_eq_needed accumulate 2 _ rfl
  have hback : accumulate.Goes 2 0 := ⟨_, rfl, by decide⟩
  have henter : accumulate.Goes 0 1 := ⟨_, rfl, by decide⟩
  have hround : accumulate.Path ⟨3⟩ 2 1 :=
    .step rfl (by decide) hback (.step rfl (by decide) henter (.refl 1))
  exact ⟨live, hlive, (hbefore ⟨3⟩).mpr ⟨1, _, hround, rfl, .inl (by decide)⟩⟩

end Routine

end MmixCodegen
