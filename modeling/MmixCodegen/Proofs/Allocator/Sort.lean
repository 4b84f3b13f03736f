import MmixCodegen.Allocator.Round
import MmixCodegen.Proofs.Allocator.Underway

/-!
# `MmixCodegen.Proofs.Allocator.Sort`: where an allocation starts

Sorting gives each temporary that has no status yet the one that fits its degree
and its moves (`status_sort`), and changes nothing else.

`underway_sort` says that the state that a new allocator is in after the code was
added and its temporaries were sorted is one from which the graph can be taken
apart: nothing was pushed or merged, and all that `Underway` asks for is read off
the graph.
-/

set_option autoImplicit false

namespace MmixCodegen

namespace Allocator

variable {a : Allocator} {t x : Temp}

/-! ### Sorting -/

/-- Sorting puts a temporary into play. -/
theorem inPlay_grade (a : Allocator) (t : Temp) : (a.grade t).InPlay := by
  unfold grade
  split
  · exact Or.inr (Or.inr (Or.inl rfl))
  · split
    · exact Or.inr (Or.inl rfl)
    · exact Or.inl rfl

/-- Sorting neither leaves a temporary unsorted, nor pushes it, nor merges it. -/
theorem grade_ne (a : Allocator) (t : Temp) :
    a.grade t ≠ .initial ∧ a.grade t ≠ .onStack ∧ a.grade t ≠ .coalesced := by
  unfold grade
  split
  · decide
  · split <;> decide

/-- The status that sorting gives fits the degree. -/
theorem graded_of_grade {b : Allocator} {forced : Temp → Prop} (hstatus : b.status t = a.grade t)
    (hregisters : b.registers = a.registers) (hdegree : b.graph.degree t = a.graph.degree t) :
    b.Graded forced t := by
  unfold grade isSignificant at hstatus
  split at hstatus
  · next hhigh =>
    rw [decide_eq_true_eq] at hhigh
    refine ⟨fun _ => by omega, fun hs => ?_, fun hs => ?_⟩
    · rw [hstatus] at hs
      cases hs
    · rw [hstatus] at hs
      cases hs
  · next hlow =>
    rw [decide_eq_true_eq, Nat.not_le] at hlow
    refine Graded.of_lt ?_ (by omega)
    split at hstatus
    · exact Or.inl hstatus
    · exact Or.inr hstatus

/-- Sorting a temporary touches its status and the sets alone. -/
theorem status_sortNode (a : Allocator) (t x : Temp) :
    (a.sortNode t).status x = if x = t ∧ a.status t = .initial then a.grade t else a.status x := by
  unfold sortNode
  by_cases hinitial : a.status t = .initial
  · rw [if_pos hinitial, status_place]
    by_cases hx : x = t
    · rw [if_pos hx.symm, if_pos ⟨hx, hinitial⟩]
    · rw [if_neg (Ne.symm hx), if_neg fun hcon => hx hcon.1]
  · rw [if_neg hinitial, if_neg fun hcon => hinitial hcon.2]

/-- Where a temporary belongs does not depend on what was sorted before it. -/
theorem grade_sortNode (a : Allocator) (t x : Temp) : (a.sortNode t).grade x = a.grade x := by
  unfold sortNode
  split <;> rfl

/-- Sorting a list gives its unsorted members the statuses that fit them, and changes no other. -/
theorem status_foldl_sortNode (a : Allocator) (l : List Temp) (x : Temp) :
    (l.foldl sortNode a).status x =
      if x ∈ l ∧ a.status x = .initial then a.grade x else a.status x := by
  induction l generalizing a with
  | nil => simp
  | cons t l ih =>
      rw [List.foldl_cons, ih, grade_sortNode, status_sortNode]
      by_cases hx : x = t
      · subst hx
        by_cases hinitial : a.status x = .initial
        · simp [hinitial, (grade_ne a x).1]
        · simp [hinitial]
      · simp [hx]

/-- The status of a temporary after sorting. -/
theorem status_sort (a : Allocator) (t : Temp) :
    a.sort.status t =
      if t ∈ a.graph.nodes ∧ a.status t = .initial then a.restart.grade t else a.status t := by
  unfold sort
  rw [status_foldl_sortNode]
  simp only [Std.ExtTreeSet.mem_toList]
  rfl

/-- Sorting a temporary leads to a later state. -/
theorem Tidy.steps_sortNode (h : a.Tidy) (ht : t ∈ a.graph.nodes) : Steps a (a.sortNode t) := by
  unfold sortNode
  split
  · next hinitial =>
    exact h.steps_place ht _ (by rw [hinitial]; decide) (grade_ne a t).2.2
  · exact Steps.refl h

/-- Sorting several temporaries leads to a later state. -/
theorem Tidy.steps_foldl_sortNode (h : a.Tidy) {l : List Temp} (hl : ∀ t ∈ l, t ∈ a.graph.nodes) :
    Steps a (l.foldl sortNode a) := by
  induction l generalizing a with
  | nil => exact Steps.refl h
  | cons t l ih =>
      have hfirst := h.steps_sortNode (hl t (by simp))
      refine hfirst.trans (ih hfirst.tidy fun x hx => ?_)
      rw [hfirst.nodes]
      exact hl x (by simp [hx])

/-- Sorting all temporaries leads to a later state. -/
theorem Tidy.steps_sort (h : a.restart.Tidy) : Steps a.restart a.sort :=
  h.steps_foldl_sortNode fun _ ht => Std.ExtTreeSet.mem_toList.mp ht

/-- Sorting leaves the graph, the moves and the chains alone. -/
theorem sort_eq (a : Allocator) :
    a.sort.graph = a.graph ∧ a.sort.moveStatuses = a.restart.moveStatuses ∧
      a.sort.aliases = a.aliases ∧ a.sort.stack = a.stack := by
  have hsortNode : ∀ (a : Allocator) (t : Temp),
      (a.sortNode t).graph = a.graph ∧ (a.sortNode t).moveStatuses = a.moveStatuses ∧
        (a.sortNode t).aliases = a.aliases ∧ (a.sortNode t).stack = a.stack := by
    intro a t
    unfold sortNode
    split
    · next hinitial =>
      refine ⟨rfl, rfl, rfl, ?_⟩
      show (if a.grade t = .onStack then _ else _) = a.stack
      rw [if_neg (grade_ne a t).2.1, if_neg (by rw [hinitial]; decide)]
    · exact ⟨rfl, rfl, rfl, rfl⟩
  refine ⟨?_, ?_, ?_, ?_⟩
  · exact foldl_eq (p := Allocator.graph) (fun a t => (hsortNode a t).1) a.restart _
  · exact foldl_eq (p := Allocator.moveStatuses) (fun a t => (hsortNode a t).2.1) a.restart _
  · exact foldl_eq (p := Allocator.aliases) (fun a t => (hsortNode a t).2.2.1) a.restart _
  · exact foldl_eq (p := Allocator.stack) (fun a t => (hsortNode a t).2.2.2) a.restart _

/-- A temporary was sorted by the moves as they are now. -/
theorem isMoveRelated_sort (a : Allocator) (t : Temp) :
    a.sort.isMoveRelated t = a.restart.isMoveRelated t := by
  obtain ⟨hgraph, hmoves, -, -⟩ := sort_eq a
  unfold isMoveRelated pendingMoves
  rw [hgraph]
  congr 3
  funext index
  unfold isPending
  rw [hmoves]

/-- All moves wait, and no other move is put aside. -/
theorem queued_restart (h : a.active = ∅) : a.restart.Queued := by
  refine ⟨Array.size_replicate, fun index => ?_, fun index => ?_⟩
  · show index ∈ Std.ExtTreeSet.ofList (List.range a.graph.moves.size) compare ↔
      (Array.replicate a.graph.moves.size MoveStatus.worklist)[index]? = some .worklist
    simp [Array.getElem?_replicate]
  · show index ∈ a.active ↔
      (Array.replicate a.graph.moves.size MoveStatus.worklist)[index]? = some .active
    rw [h]
    simp [Array.getElem?_replicate]

/-! ### A new allocator -/

section New

variable (registers : Nat) (shielded : TempSet) (rs : List Routine)

/-- In a new allocator nothing is sorted. -/
theorem status_build : ((Allocator.new registers shielded).build rs).status t = .initial := by
  simp [status, build, new]

/-- A new allocator is tidy once it has seen the code. -/
theorem tidy_restart : ((Allocator.new registers shielded).build rs).restart.Tidy := by
  have hstatus : ∀ t, ((Allocator.new registers shielded).build rs).restart.status t = .initial :=
    fun t => status_build registers shielded rs
  have hne : ∀ t, ((Allocator.new registers shielded).build rs).restart.status t ≠ .coalesced := by
    intro t
    rw [hstatus]
    decide
  -- Everything is initial: the sets, the stack and the chains are all empty.
  refine ⟨Interference.sound_ofRoutines rs, Interference.closed_ofRoutines rs, ⟨?_, ?_, ?_, ?_⟩,
    ⟨?_, ?_⟩, queued_restart rfl, ?_⟩
  · intro s t hinitial hstack
    rw [hstatus]
    refine ⟨fun hmem => ?_, fun heq => absurd heq.symm hinitial⟩
    have hempty : NodeSets.empty.get s = ∅ := by cases s <;> rfl
    rw [show ((Allocator.new registers shielded).build rs).restart.sets = .empty from rfl, hempty]
      at hmem
    simp at hmem
  · intro t
    rw [hstatus]
    exact ⟨fun hmem => absurd hmem (List.not_mem_nil), fun heq => by cases heq⟩
  · exact List.nodup_nil
  · intro t ht
    exact absurd (hstatus t) ht
  · intro t
    refine ⟨fun hmem => ?_, fun heq => absurd heq (hne t)⟩
    have hmem' : t ∈ (∅ : TempMap Temp) := hmem
    simp at hmem'
  · exact fun t => ⟨t, .root (hne t)⟩
  · intro t ht
    rw [representative_of_not_coalesced (hne t)]
    exact ht

/-- A new allocator starts out with the whole graph of the routines. -/
theorem view_sort :
    ((Allocator.new registers shielded).build rs).sort.view
      = .whole (Interference.ofRoutines rs).nbrs := by
  obtain ⟨hgraph, -, -, hstack⟩ := sort_eq ((Allocator.new registers shielded).build rs)
  refine Elimination.ext ?_ (funext fun t => representative_of_not_coalesced ?_) hstack
  · exact congrArg Interference.nbrs hgraph
  · rw [status_sort, status_build]
    split
    · exact (grade_ne _ t).2.2
    · decide

/-- All moves of some code are pending. A temporary that no move mentions, and no
other, can be simplified. -/
theorem linked_sort : ((Allocator.new registers shielded).build rs).sort.Linked := by
  have hgraph := (sort_eq ((Allocator.new registers shielded).build rs)).1
  have hrep : ∀ t, ((Allocator.new registers shielded).build rs).sort.representative t = t :=
    fun t => congrFun (congrArg Elimination.rep (view_sort registers shielded rs)) t
  have hindexed := Interference.indexed_ofRoutines rs
  refine ⟨fun index m _ hm => ?_, fun t ht => ?_⟩
  · rw [hgraph] at hm ⊢
    rw [hrep, hrep]
    exact ⟨(hindexed m.dst index).mpr ⟨m, hm, Or.inl rfl⟩,
      (hindexed m.src index).mpr ⟨m, hm, Or.inr rfl⟩⟩
  · rw [status_sort, status_build] at ht
    split at ht
    · -- A status that says otherwise was given because of a pending move.
      unfold grade at ht
      split at ht
      · simp at ht
      · split at ht
        · simp at ht
        · next hidle => rw [isMoveRelated_sort, Bool.eq_false_iff]; exact hidle
    · simp at ht

/-- Once the code was added to a new allocator and its temporaries are sorted, the
graph can be taken apart. -/
theorem underway_sort :
    Underway (Interference.ofRoutines rs) ((Allocator.new registers shielded).build rs).sort := by
  have hsteps := (tidy_restart registers shielded rs).steps_sort
  have hgraph := (sort_eq ((Allocator.new registers shielded).build rs)).1
  have hview := view_sort registers shielded rs
  have hsound := Interference.sound_ofRoutines rs
  -- Nothing was taken out yet, so what is left of the graph is the graph.
  refine ⟨hsteps.tidy, linked_sort registers shielded rs, hsteps.nodes, ?_, ?_, ?_, ?_, ?_, ?_, ?_⟩
  · intro t ht
    rw [hsteps.nodes] at ht
    rw [status_sort, if_pos ⟨ht, status_build registers shielded rs⟩]
    exact inPlay_grade _ t
  · intro t x hx
    rw [hgraph]
    exact hx
  · rw [hview]
    refine Elimination.valid_whole (fun x y hxy => ?_) (fun x hx => ?_)
    · rw [Interference.mem_nbrs] at hxy ⊢
      exact hsound.symm hxy
    · exact hsound.irrefl x (Interference.mem_nbrs.mp hx)
  · intro t _
    rw [hgraph, hview, Elimination.live_whole, Interference.nbrs, TempSet.card_toFinset]
    exact Interference.degree_ofRoutines rs t
  · intro t
    have hgrade : ((Allocator.new registers shielded).build rs).sort.status t
          = ((Allocator.new registers shielded).build rs).restart.grade t ∨
        ((Allocator.new registers shielded).build rs).sort.status t = .initial := by
      rw [status_sort, status_build]
      split
      · exact Or.inl rfl
      · exact Or.inr rfl
    rcases hgrade with hs | hs
    · exact graded_of_grade hs hsteps.registers (by rw [hgraph]; rfl)
    · refine ⟨fun h => ?_, fun h => ?_, fun h => ?_⟩ <;> rw [hs] at h <;> cases h
  · rw [hview]
    exact Elimination.untouched_whole
  · rw [hview]
    exact Elimination.bounded_whole

end New

end Allocator

end MmixCodegen
