import MmixCodegen.Proofs.Flow.Live

/-!
# `MmixCodegen.Proofs.Flow.Analyze`: the live sets of an analyzed routine

`Routine.Analyzed r` says that the live sets that the instructions of `r` carry
satisfy the equations of its own flow graph. `analyzed_analyze` says that an
analysis leads there, from any live sets. What other proofs need of the equations
are three inclusions: `Analyzed.mem_before_of_mem_uses`,
`Analyzed.mem_before_of_mem_after` and `Analyzed.mem_after_of_mem_before`.
-/

set_option autoImplicit false

namespace MmixCodegen

namespace Flow

/-- The last index in a mapped list is the last index of those whose images have the property. -/
theorem lastIndex?_map {α β : Type} (f : α → β) (p : β → Bool) (index : Nat) (xs : List α) :
    lastIndex? p index (xs.map f) = lastIndex? (fun x => p (f x)) index xs := by
  induction xs generalizing index with
  | nil => rfl
  | cons x xs ih => rw [List.map_cons, lastIndex?, lastIndex?, ih]

/-- The index that counting starts at is added to what is found. -/
theorem lastIndex?_add {α : Type} (p : α → Bool) (index : Nat) (xs : List α) :
    lastIndex? p index xs = (lastIndex? p 0 xs).map (· + index) := by
  induction xs generalizing index with
  | nil => rfl
  | cons x xs ih =>
      rw [lastIndex?, lastIndex?, ih (index + 1), ih (0 + 1)]
      cases lastIndex? p 0 xs with
      | some found =>
          simp only [Option.map_some, Option.some.injEq]
          omega
      | none =>
          simp only [Option.map_none]
          split <;> simp

/-- Where a label is set depends on what the instructions do alone. -/
theorem labelIndex?_congr {instrs instrs' : List Instr}
    (h : instrs'.map Instr.kind = instrs.map Instr.kind) (l : Label) :
    labelIndex? l instrs' = labelIndex? l instrs := by
  have hkinds : ∀ is : List Instr, labelIndex? l is
      = lastIndex? (fun kind => (Instr.ofKind kind).label? = some l) 0 (is.map Instr.kind) := by
    intro is
    rw [lastIndex?_map]
    rfl
  rw [hkinds, hkinds, h]

end Flow

namespace Routine

variable {r : Routine} {index : Nat} {i : Instr} {t : Temp}

/-- The live sets of each instruction are what it asks for. -/
def Analyzed (r : Routine) : Prop :=
  ∀ (index : Nat) (i : Instr), r.instrs[index]? = some i →
    i.live = Flow.transfer (FlowGraph.ofRoutine r).exitLive (FlowGraph.before r.lives)
      (Flow.node r index i)

/-- The temporaries that are live before instruction number `index`. -/
def liveBefore (r : Routine) (index : Nat) : TempSet :=
  FlowGraph.before r.lives index

/-- At an instruction, what is live before its index is what it says itself. -/
theorem liveBefore_eq (h : r.instrs[index]? = some i) : r.liveBefore index = i.live.before := by
  simp [liveBefore, FlowGraph.before, lives, Array.getD_eq_getD_getElem?, h]

/-! ### The analysis -/

section WithLives

variable {lives : Array Live}

/-- New live sets go to the instructions by their positions, and nothing else of them changes. -/
theorem getElem?_withLives (r : Routine) (hsize : lives.size = r.instrs.length) (index : Nat) :
    (r.withLives lives).instrs[index]? =
      r.instrs[index]?.map fun i => { i with live := lives.getD index .none } := by
  show (r.instrs.zipWith (fun i live => { i with live }) lives.toList)[index]? = _
  rw [List.getElem?_zipWith, Array.getElem?_toList, Array.getD_eq_getD_getElem?]
  cases hi : r.instrs[index]? with
  | none => rfl
  | some i =>
      have hlt : index < lives.size := by
        rw [hsize]
        exact (List.getElem?_eq_some_iff.mp hi).1
      rw [Array.getElem?_eq_getElem hlt]
      rfl

/-- New live sets leave what the instructions do as it is. -/
theorem map_kind_withLives (r : Routine) (hsize : lives.size = r.instrs.length) :
    (r.withLives lives).instrs.map Instr.kind = r.instrs.map Instr.kind := by
  refine List.ext_getElem? fun index => ?_
  rw [List.getElem?_map, List.getElem?_map, r.getElem?_withLives hsize, Option.map_map]
  rfl

/-- The live sets that were given are the ones that are carried. -/
theorem lives_withLives (r : Routine) (hsize : lives.size = r.instrs.length) :
    (r.withLives lives).lives = lives := by
  refine Array.ext_getElem? fun index => ?_
  unfold Routine.lives
  rw [List.getElem?_toArray, List.getElem?_map, r.getElem?_withLives hsize,
    Array.getD_eq_getD_getElem?]
  by_cases hlt : index < lives.size
  · simp [hlt, hsize ▸ hlt]
  · have hge : r.instrs.length ≤ index := by omega
    simp [hlt, hge]

/-- New live sets do not change the flow of control. -/
theorem node_withLives (r : Routine) (hsize : lives.size = r.instrs.length)
    (index : Nat) (i : Instr)
    (live : Live) :
    Flow.node (r.withLives lives) index { i with live } = Flow.node r index i := by
  have hkinds := r.map_kind_withLives hsize
  have hlength : (r.withLives lives).instrs.length = r.instrs.length := by
    simpa using congrArg List.length hkinds
  have hlabels := fun l => Flow.labelIndex?_congr hkinds l
  unfold Flow.node Flow.targets Flow.leaves
  simp only [hlabels, hlength]
  rfl

/-- Whether the return value is written does not depend on live sets. -/
theorem definesResult_withLives (r : Routine) (hsize : lives.size = r.instrs.length) :
    (r.withLives lives).definesResult = r.definesResult := by
  have hany : ∀ r : Routine, r.definesResult
      = (r.instrs.map Instr.kind).any fun kind => (Instr.ofKind kind).defs.contains r.frame.rv := by
    intro r
    rw [List.any_map]
    rfl
  rw [hany, hany, r.map_kind_withLives hsize]
  rfl

/-- What is live at the exit does not depend on the live sets of the instructions. -/
theorem exitLive_withLives (r : Routine) (hsize : lives.size = r.instrs.length) :
    (FlowGraph.ofRoutine (r.withLives lives)).exitLive = (FlowGraph.ofRoutine r).exitLive := by
  unfold FlowGraph.ofRoutine
  dsimp only
  rw [r.definesResult_withLives hsize]
  rfl

/-- Live sets that a pass does not change are those that the instructions ask for. -/
theorem analyzed_withLives (r : Routine) (hrising : (FlowGraph.ofRoutine r).Rising lives)
    (hpass : (FlowGraph.ofRoutine r).pass lives = lives) : (r.withLives lives).Analyzed := by
  have hsize : lives.size = r.instrs.length := by
    rw [hrising.size_eq]
    simp [FlowGraph.ofRoutine]
  intro index i' hi'
  rw [r.getElem?_withLives hsize] at hi'
  obtain ⟨i, hi, rfl⟩ := Option.map_eq_some_iff.mp hi'
  have hnode : (FlowGraph.ofRoutine r).nodes[index]? = some (Flow.node r index i) := by
    simp [FlowGraph.ofRoutine, hi]
  rw [r.exitLive_withLives hsize, r.lives_withLives hsize, r.node_withLives hsize]
  exact FlowGraph.getD_eq_transfer_of_pass hrising hpass hnode

end WithLives

/-- An analysis gives every instruction the live sets that it asks for. -/
theorem analyzed_analyze (r : Routine) : r.analyze.1.Analyzed := by
  obtain ⟨hrising, hpass⟩ := FlowGraph.settle_fixed (FlowGraph.ofRoutine r)
  exact r.analyzed_withLives hrising hpass

/-! ### What the equations say -/

namespace Analyzed

/-- What an instruction reads is live before it. -/
theorem mem_before_of_mem_uses (h : r.Analyzed) (hi : r.instrs[index]? = some i) (ht : t ∈ i.uses) :
    t ∈ i.live.before := by
  rw [h index i hi]
  exact Flow.mem_before_transfer.mpr (Or.inl ht)

/-- What is live after an instruction is live before it too, unless the instruction writes it. -/
theorem mem_before_of_mem_after (h : r.Analyzed) (hi : r.instrs[index]? = some i)
    (ht : t ∈ i.live.after) (hdef : t ∉ i.defs) : t ∈ i.live.before := by
  rw [h index i hi] at ht ⊢
  exact Flow.mem_before_transfer.mpr (Or.inr ⟨ht, hdef⟩)

/-- What is live before a successor is live after the instruction. -/
theorem mem_after_of_mem_before (h : r.Analyzed) (hi : r.instrs[index]? = some i) {next : Nat}
    (hnext : next ∈ (Flow.node r index i).succs) (ht : t ∈ r.liveBefore next) :
    t ∈ i.live.after := by
  rw [h index i hi]
  exact Flow.mem_after_transfer.mpr (Or.inr ⟨next, hnext, ht⟩)

/-- Where control leaves the routine the return value is live, if it is ever written. -/
theorem rv_mem_after (h : r.Analyzed) (hi : r.instrs[index]? = some i)
    (hexits : (Flow.node r index i).exits = true) (hresult : r.definesResult = true) :
    r.frame.rv ∈ i.live.after := by
  rw [h index i hi]
  refine Flow.mem_after_transfer.mpr (Or.inl ⟨hexits, ?_⟩)
  show (if r.definesResult then some r.frame.rv else none) = _
  rw [if_pos hresult]

end Analyzed

end Routine

/-- A program is analyzed routine by routine. -/
theorem Program.routines_analyze (p : Program) :
    p.analyze.1.routines = p.routines.map fun r => r.analyze.1 := by
  simp [analyze]

end MmixCodegen
