import MmixCodegen.Proofs.Allocator.Follow
import MmixCodegen.Proofs.Coloring

/-!
# `MmixCodegen.Proofs.Disjoint`: code without common temporaries

Routines that have no temporary in common with the other ones of a program are a region of
it, `Region.within`. The graph of the program looks within the region like the graph of these
routines alone, except that moves have higher numbers (`Allocator.part_restart`). So a round over
the program leads to the same registers there, and to the same spills
(`Allocator.getElem?_colors_of_part`, `Allocator.mem_spilled_of_part`).

`Coloring.ofRoutines_append` is the consequence for two lists of routines: they are coloured
independently of each other, although they share all worklists.
-/

set_option autoImplicit false

namespace MmixCodegen

namespace Interference

variable {g : Interference} {t : Temp}

/-! ### The moves of some code -/

/-- The copies among some instructions. -/
def copies (is : List Instr) : List Move :=
  is.filterMap fun i => i.movePair?.map fun (dst, src) => ⟨dst, src⟩

/-- Instructions add their copies to the moves, in order. -/
theorem toList_moves_foldl_addInstr (hg : g.Sound) (is : List Instr) :
    (is.foldl addInstr g).moves.toList = g.moves.toList ++ copies is := by
  induction is generalizing g with
  | nil => simp [copies]
  | cons i is ih =>
      rw [List.foldl_cons, ih (sound_addInstr hg i), (moves_addInstr hg i).1, addCopy, copies]
      cases hpair : i.movePair? with
      | none => simp [hpair, copies]
      | some pair => simp [hpair, copies, addMove]

/-- The moves of a graph are all copies of the routines, in order. -/
theorem toList_moves_ofRoutines (rs : List Routine) :
    (ofRoutines rs).moves.toList = copies (rs.flatMap Routine.instrs) := by
  rw [ofRoutines, addRoutines_eq, toList_moves_foldl_addInstr sound_empty]
  rfl

/-- The moves of a program stand in the order of its routines. -/
theorem moves_ofRoutines_append (rs ss : List Routine) :
    (ofRoutines (rs ++ ss)).moves = (ofRoutines rs).moves ++ (ofRoutines ss).moves := by
  rw [← Array.toList_inj, Array.toList_append, toList_moves_ofRoutines, toList_moves_ofRoutines,
    toList_moves_ofRoutines, copies, copies, copies, List.flatMap_append, List.filterMap_append]

/-! ### The weights of some code -/

/-- A sequence of changes that each keep the weights keeps them. -/
theorem weights_foldl {α : Type} {f : Interference → α → Interference}
    (hf : ∀ g x, (f g x).weights = g.weights) (g : Interference) (l : List α) :
    (l.foldl f g).weights = g.weights := by
  induction l generalizing g with
  | nil => rfl
  | cons x l ih => rw [List.foldl_cons, ih, hf]

/-- Edges between all members of a list leave the weights as they are. -/
theorem weights_addClique (g : Interference) (ts : List Temp) :
    (g.addClique ts).weights = g.weights := by
  induction ts generalizing g with
  | nil => rfl
  | cons t ts ih =>
      rw [addClique, ih]
      exact weights_foldl (fun g u => weights_addEdge g t u) g ts

/-- The conflicts of an instruction leave the weights as they are. -/
theorem weights_addConflicts (g : Interference) (i : Instr) :
    (g.addConflicts i).weights = g.weights := by
  have hrow : ∀ (live : List Temp) (g : Interference) (d : Temp),
      (live.foldl (fun g t => g.addEdge d t) g).weights = g.weights :=
    fun live g d => weights_foldl (fun g t => weights_addEdge g d t) g live
  unfold addConflicts addDefs
  dsimp only
  rw [weights_foldl (hrow _), weights_addClique, weights_addClique]
  exact weights_foldl (f := addNode) (fun g t => rfl) g _

/-- Each occurrence in a list counts once. -/
theorem weight_foldl_addWeight (g : Interference) (ts : List Temp) (t : Temp) :
    (ts.foldl addWeight g).weight t = g.weight t + ts.count t := by
  induction ts generalizing g with
  | nil => simp
  | cons u ts ih =>
      rw [List.foldl_cons, ih, List.count_cons]
      by_cases hu : u = t
      · subst hu
        simp [addWeight, weight]
        omega
      · simp [addWeight, weight, Std.ExtTreeMap.getD_insert, hu]

/-- An instruction counts once for each of its live sets that a temporary belongs to. -/
theorem weight_addInstr (g : Interference) (i : Instr) (t : Temp) :
    (g.addInstr i).weight t =
      g.weight t + (i.live.before.toList ++ i.live.after.toList).count t := by
  have hcopy : ((g.addConflicts i).addCopy i).weights = g.weights := by
    rw [addCopy_eq]
    exact weights_addConflicts g i
  rw [addInstr, weight_foldl_addWeight, weight, hcopy, weight]

/-- Instructions count once for each of their live sets that a temporary is in. -/
theorem weight_foldl_addInstr (g : Interference) (is : List Instr) (t : Temp) :
    (is.foldl addInstr g).weight t = g.weight t +
      (is.flatMap fun i => i.live.before.toList ++ i.live.after.toList).count t := by
  induction is generalizing g with
  | nil => simp
  | cons i is ih =>
      rw [List.foldl_cons, ih, weight_addInstr, List.flatMap_cons, Nat.add_assoc,
        ← List.count_append]

/-- Weights of two lists of routines add up. -/
theorem weight_ofRoutines_append (rs ss : List Routine) (t : Temp) :
    (ofRoutines (rs ++ ss)).weight t = (ofRoutines rs).weight t + (ofRoutines ss).weight t := by
  have hempty : empty.weight t = 0 := by simp [weight, empty]
  rw [ofRoutines, ofRoutines, ofRoutines, addRoutines_eq, addRoutines_eq, addRoutines_eq,
    weight_foldl_addInstr, weight_foldl_addInstr, weight_foldl_addInstr, hempty,
    List.flatMap_append, List.flatMap_append, List.count_append]
  omega

/-- What is not mentioned is in no live set. -/
theorem weight_eq_zero {rs : List Routine} (ht : ¬Mentioned rs t) :
    (ofRoutines rs).weight t = 0 := by
  have hempty : empty.weight t = 0 := by simp [weight, empty]
  rw [ofRoutines, addRoutines_eq, weight_foldl_addInstr, hempty, Nat.zero_add,
    List.count_eq_zero]
  intro hmem
  obtain ⟨i, hi, hlive⟩ := List.mem_flatMap.mp hmem
  -- What belongs to a live set is mentioned.
  refine ht (exists_mem_flatMap_instrs.mp ⟨i, hi, Instr.mem_temps.mpr ?_⟩)
  simp only [List.mem_append, Std.ExtTreeSet.mem_toList] at hlive
  tauto

end Interference

/-! ### The region of some routines -/

/-- A temporary is mentioned in two lists of routines together if it is in one of them. -/
theorem mentioned_append {rs ss : List Routine} {t : Temp} :
    Mentioned (rs ++ ss) t ↔ Mentioned rs t ∨ Mentioned ss t := by
  simp only [Mentioned, List.mem_append, or_and_right, exists_or]

/-- Without routines nothing is mentioned. -/
theorem not_mentioned_nil (t : Temp) : ¬Mentioned [] t := by
  simp [Mentioned]

/-- Two temporaries are kept apart by two lists of routines together if they are by one of them. -/
theorem keptApart_append {rs ss : List Routine} {u v : Temp} :
    KeptApart (rs ++ ss) u v ↔ KeptApart rs u v ∨ KeptApart ss u v := by
  simp only [KeptApart, List.mem_append, or_and_right, exists_or]

/-- Only temporaries that are mentioned are kept apart. -/
theorem KeptApart.mentioned {rs : List Routine} {u v : Temp} (h : KeptApart rs u v) :
    Mentioned rs u := by
  obtain ⟨r, hr, i, hi, hapart⟩ := h
  exact ⟨r, hr, i, hi, hapart.mem_temps.1⟩

/-- The routines `rs` of a program that has others before and after them. -/
def Region.within (before rs after : List Routine) : Region where
  all := (Interference.ofRoutines (before ++ rs ++ after)).nodes
  temps := (Interference.ofRoutines rs).nodes
  subset t ht := by
    rw [Interference.mem_nodes_ofRoutines] at ht ⊢
    rw [mentioned_append, mentioned_append]
    exact .inl (.inr ht)
  first := (Interference.ofRoutines before).moves.size
  count := (Interference.ofRoutines rs).moves.size

namespace Region

variable {before rs after : List Routine} {t : Temp} {i index : Nat} {m : Move}

/-- The temporaries of the region are those that its routines mention. -/
theorem mem_temps_within : t ∈ (within before rs after).temps ↔ Mentioned rs t :=
  Interference.mem_nodes_ofRoutines rs t

/-- The moves of the region stand after those of the routines before it. -/
theorem getElem?_moves_within (hi : i < (within before rs after).count) :
    (Interference.ofRoutines (before ++ rs ++ after)).moves[(within before rs after).first + i]? =
      (Interference.ofRoutines rs).moves[i]? := by
  have hlt : i < (Interference.ofRoutines rs).moves.size := hi
  rw [Interference.moves_ofRoutines_append, Interference.moves_ofRoutines_append]
  show ((Interference.ofRoutines before).moves ++ (Interference.ofRoutines rs).moves ++ _)[
    (Interference.ofRoutines before).moves.size + i]? = _
  rw [Array.getElem?_append_left (by simp; omega), Array.getElem?_append_right (by omega),
    Nat.add_sub_cancel_left]

/-- The moves of the region are moves of the program. -/
theorem lt_size_moves_within (hi : i < (within before rs after).count) :
    (within before rs after).first + i
      < (Interference.ofRoutines (before ++ rs ++ after)).moves.size := by
  have hlt : i < (Interference.ofRoutines rs).moves.size := hi
  have hmove := getElem?_moves_within hi
  rw [Array.getElem?_eq_getElem hlt] at hmove
  exact (Array.getElem?_eq_some_iff.mp hmove).1

/-- The ends of a move are mentioned by its routines. -/
theorem mentioned_ends (hm : (Interference.ofRoutines rs).moves[i]? = some m) :
    Mentioned rs m.dst ∧ Mentioned rs m.src := by
  rw [← Interference.mem_nodes_ofRoutines, ← Interference.mem_nodes_ofRoutines]
  exact (Interference.closed_ofRoutines rs).ends_mem i m hm

section Disjoint

variable (hbefore : ∀ t, Mentioned rs t → ¬Mentioned before t)
  (hafter : ∀ t, Mentioned rs t → ¬Mentioned after t)

include hbefore hafter

/-- Other moves belong to the other routines. -/
theorem not_mentioned_ends
    (hm : (Interference.ofRoutines (before ++ rs ++ after)).moves[index]? = some m)
    (hindex : ¬(within before rs after).Owns index) :
    ¬Mentioned rs m.dst ∧ ¬Mentioned rs m.src := by
  rw [Interference.moves_ofRoutines_append, Interference.moves_ofRoutines_append,
    Array.append_assoc] at hm
  by_cases hlow : index < (Interference.ofRoutines before).moves.size
  · rw [Array.getElem?_append_left hlow] at hm
    obtain ⟨hdst, hsrc⟩ := mentioned_ends hm
    exact ⟨fun h => hbefore _ h hdst, fun h => hbefore _ h hsrc⟩
  · rw [Array.getElem?_append_right (by omega)] at hm
    by_cases hown : index - (Interference.ofRoutines before).moves.size
        < (Interference.ofRoutines rs).moves.size
    · exact absurd ⟨_, hown, (Nat.add_sub_of_le (Nat.le_of_not_lt hlow)).symm⟩ hindex
    · rw [Array.getElem?_append_right (by omega)] at hm
      obtain ⟨hdst, hsrc⟩ := mentioned_ends hm
      exact ⟨fun h => hafter _ h hdst, fun h => hafter _ h hsrc⟩

/-- A temporary of the region takes part in the same moves in the program,
under their shifted numbers. -/
theorem mem_movesOf_within (ht : Mentioned rs t) :
    index ∈ (Interference.ofRoutines (before ++ rs ++ after)).movesOf t ↔
      ∃ i < (within before rs after).count, index = (within before rs after).first + i ∧
        i ∈ (Interference.ofRoutines rs).movesOf t := by
  simp only [Interference.indexed_ofRoutines _ t]
  constructor
  · rintro ⟨m, hm, hend⟩
    by_cases howns : (within before rs after).Owns index
    · obtain ⟨i, hi, rfl⟩ := howns
      rw [getElem?_moves_within hi] at hm
      exact ⟨i, hi, rfl, m, hm, hend⟩
    · obtain ⟨hdst, hsrc⟩ := not_mentioned_ends hbefore hafter hm howns
      rcases hend with rfl | rfl
      · exact absurd ht hdst
      · exact absurd ht hsrc
  · rintro ⟨i, hi, rfl, m, hm, hend⟩
    exact ⟨m, (getElem?_moves_within hi).trans hm, hend⟩

/-- A temporary of the region has the same neighbours in the program. -/
theorem neighbors_within (ht : Mentioned rs t) :
    (Interference.ofRoutines (before ++ rs ++ after)).neighbors t =
      (Interference.ofRoutines rs).neighbors t := by
  refine Std.ExtTreeSet.ext_mem fun x => ?_
  rw [Interference.mem_neighbors_ofRoutines, Interference.mem_neighbors_ofRoutines,
    keptApart_append, keptApart_append]
  refine and_congr_right fun _ => ⟨?_, fun hapart => .inl (.inr hapart)⟩
  rintro ((hapart | hapart) | hapart)
  · exact absurd hapart.mentioned (hbefore t ht)
  · exact hapart
  · exact absurd hapart.mentioned (hafter t ht)

/-- A temporary of the region has the same degree in the program. -/
theorem degree_within (ht : Mentioned rs t) :
    (Interference.ofRoutines (before ++ rs ++ after)).degree t =
      (Interference.ofRoutines rs).degree t := by
  rw [Interference.degree_ofRoutines, Interference.degree_ofRoutines,
    neighbors_within hbefore hafter ht]

/-- A temporary of the region is in as many live sets of the program. -/
theorem weight_within (ht : Mentioned rs t) :
    (Interference.ofRoutines (before ++ rs ++ after)).weight t =
      (Interference.ofRoutines rs).weight t := by
  rw [Interference.weight_ofRoutines_append, Interference.weight_ofRoutines_append,
    Interference.weight_eq_zero (hbefore t ht), Interference.weight_eq_zero (hafter t ht),
    Nat.zero_add, Nat.add_zero]

end Disjoint

/-- A temporary that is not of the region takes part in none of its moves. -/
theorem not_owns_of_mem_movesOf (ht : ¬Mentioned rs t)
    (hindex : index ∈ (Interference.ofRoutines (before ++ rs ++ after)).movesOf t) :
    ¬(within before rs after).Owns index := by
  rintro ⟨i, hi, rfl⟩
  obtain ⟨m, hm, hend⟩ := (Interference.indexed_ofRoutines (before ++ rs ++ after) t _).mp hindex
  rw [getElem?_moves_within hi] at hm
  rcases hend with rfl | rfl
  · exact ht (mentioned_ends hm).1
  · exact ht (mentioned_ends hm).2

end Region

namespace Allocator

open Region

variable {before rs after : List Routine} {t : Temp} (registers : Nat) (shielded : TempSet)

/-- Before anything is sorted, an allocation of a program looks within the region of some
routines like one of these routines, if no temporary of them occurs elsewhere. -/
theorem part_restart (hbefore : ∀ t, Mentioned rs t → ¬Mentioned before t)
    (hafter : ∀ t, Mentioned rs t → ¬Mentioned after t) :
    Part (within before rs after) ((Allocator.new registers shielded).build rs).restart
      ((Allocator.new registers shielded).build (before ++ rs ++ after)).restart := by
  have hinitial : ∀ (qs : List Routine) (t : Temp),
      ((Allocator.new registers shielded).build qs).restart.status t = .initial :=
    fun qs t => status_build registers shielded qs
  have hself : ∀ (qs : List Routine) (t : Temp),
      ((Allocator.new registers shielded).build qs).restart.representative t = t := by
    intro qs t
    exact representative_of_not_coalesced (by rw [hinitial]; decide)
  exact {
    part := tidy_restart registers shielded rs
    whole := tidy_restart registers shielded _
    registers := rfl
    shielded := rfl
    nodes := rfl
    all := rfl
    size := rfl
    moves := fun i hi => getElem?_moves_within hi
    moves_out := fun index m hm hindex => by
      rw [mem_temps_within, mem_temps_within]
      exact not_mentioned_ends hbefore hafter hm hindex
    movesOf := fun t ht index => mem_movesOf_within hbefore hafter (mem_temps_within.mp ht)
    movesOf_out := fun t ht index => not_owns_of_mem_movesOf fun h => ht (mem_temps_within.mpr h)
    neighbors := fun t ht => neighbors_within hbefore hafter (mem_temps_within.mp ht)
    degree := fun t ht => degree_within hbefore hafter (mem_temps_within.mp ht)
    weight := fun t ht => weight_within hbefore hafter (mem_temps_within.mp ht)
    status := fun t _ => (hinitial _ t).trans (hinitial _ t).symm
    moveStatuses := fun i hi => by
      -- All moves wait, so it is enough that there is such a move.
      refine Array.getElem?_replicate.trans (.trans ?_ Array.getElem?_replicate.symm)
      exact (if_pos (lt_size_moves_within hi)).trans (if_pos hi).symm
    representative := fun t _ => (hself _ t).trans (hself _ t).symm
    representative_out := fun t ht => by
      rw [hself]
      exact ht
    stack := rfl
    colors := fun _ _ => rfl }

/-! ### Sorting -/

namespace Part

variable {g : Region} {a c : Allocator}

/-- A temporary of the region is graded alike in both. -/
theorem grade (h : Part g a c) (ht : t ∈ g.temps) : c.grade t = a.grade t := by
  unfold Allocator.grade
  rw [h.isSignificant ht, h.isMoveRelated ht]

/-- Sorting the same temporary of the region keeps the two states alike there. -/
theorem sortNode (h : Part g a c) (ht : t ∈ g.temps) : Part g (a.sortNode t) (c.sortNode t) := by
  unfold Allocator.sortNode
  rw [h.status t ht, h.grade ht]
  split
  · next hinitial => exact h.place ht _ (by rw [hinitial]; decide) (grade_ne a t).2.2
  · exact h

/-- Sorting a temporary elsewhere in the program does not show in the region. -/
theorem sortNode_out (h : Part g a c) (ht : t ∉ g.temps) (hall : t ∈ g.all) :
    Part g a (c.sortNode t) := by
  unfold Allocator.sortNode
  split
  · next hinitial => exact h.place_out ht hall _ (by rw [hinitial]; decide) (grade_ne c t).2.2
  · exact h

/-- Sorting temporaries of the program in turn does to the region what sorting those of the
region does. -/
theorem foldl_sortNode (h : Part g a c) {l : List Temp} (hl : ∀ t ∈ l, t ∈ g.all) :
    Part g ((l.filter (· ∈ g.temps)).foldl Allocator.sortNode a)
      (l.foldl Allocator.sortNode c) := by
  induction l generalizing a c with
  | nil => exact h
  | cons t l ih =>
      have hrest : ∀ x ∈ l, x ∈ g.all := fun x hx => hl x (List.mem_cons_of_mem t hx)
      by_cases ht : t ∈ g.temps
      · rw [List.filter_cons_of_pos (by simpa using ht)]
        exact ih (h.sortNode ht) hrest
      · rw [List.filter_cons_of_neg (by simpa using ht)]
        exact ih (h.sortNode_out ht (hl t List.mem_cons_self)) hrest

/-- Sorting all temporaries keeps the two states alike within the region. -/
theorem sort (h : Part g a.restart c.restart) : Part g a.sort c.sort := by
  have hnodes : a.graph.nodes.toList = c.graph.nodes.toList.filter (· ∈ g.temps) := by
    refine TempSet.toList_eq_filter fun t => ?_
    have hown : a.graph.nodes = g.temps := h.nodes
    have hall : c.graph.nodes = g.all := h.all
    rw [hown, hall, decide_eq_true_eq]
    exact ⟨fun ht => ⟨g.subset t ht, ht⟩, fun ht => ht.2⟩
  have hsorted := h.foldl_sortNode (l := c.graph.nodes.toList) fun t ht =>
    h.all ▸ Std.ExtTreeSet.mem_toList.mp ht
  rwa [← hnodes] at hsorted

end Part

/-! ### The outcome within a region -/

section Outcome

variable {g : Region} {rs qs : List Routine}
  (hpart : Part g (drained registers shielded rs) (drained registers shielded qs))

include hpart

/-- A temporary of the region gets the same register in both. -/
theorem getElem?_colors_of_part (ht : t ∈ g.temps) :
    (finalColoring registers shielded qs).colors[t]? =
      (finalColoring registers shielded rs).colors[t]? := by
  -- In the end a temporary has the register of what it stands for.
  obtain ⟨-, -, hown⟩ := (finished_drained registers shielded rs).assignAll
  obtain ⟨-, -, hall⟩ := (finished_drained registers shielded qs).assignAll
  rw [colors_finalColoring, colors_finalColoring, hown, hall, hpart.representative t ht]
  exact hpart.unwind.colors _ (hpart.representative_mem ht)

/-- A temporary of the region is spilled in one just if it is in the other. -/
theorem mem_spilled_of_part (ht : t ∈ g.temps) :
    t ∈ (finalColoring registers shielded qs).spilled ↔
      t ∈ (finalColoring registers shielded rs).spilled := by
  obtain ⟨-, hown, -⟩ := (finished_drained registers shielded rs).assignAll
  obtain ⟨-, hall, -⟩ := (finished_drained registers shielded qs).assignAll
  rw [mem_spilled_finalColoring, mem_spilled_finalColoring, hown.status, hall.status,
    hpart.unwind.status t ht]

end Outcome

/-! ### Two lists of routines -/

/-- Giving out a register changes no move. -/
theorem moveStatuses_assign (a : Allocator) (t : Temp) :
    (a.assign t).moveStatuses = a.moveStatuses := by
  obtain ⟨aliases, heq⟩ := compressAll_eq a (a.graph.neighbors t).toList
  unfold assign
  dsimp only
  rw [heq]
  split <;> rfl

/-- Giving out all registers changes no move. -/
theorem moveStatuses_assignAll (a : Allocator) : a.assignAll.moveStatuses = a.moveStatuses := by
  have hinherit : ∀ (a : Allocator) (t : Temp), (a.inherit t).moveStatuses = a.moveStatuses := by
    intro a t
    unfold inherit
    dsimp only
    split <;> rfl
  exact (foldl_eq (p := Allocator.moveStatuses) hinherit _ _).trans
    (foldl_eq (p := Allocator.moveStatuses) moveStatuses_assign a _)

/-- The number of coalesced moves is fixed when nothing is left to do. -/
theorem coalescedMoves_finalColoring (rs : List Routine) :
    (finalColoring registers shielded rs).coalescedMoves =
      ((drained registers shielded rs).moveStatuses.toList.filter (· = .coalesced)).length := by
  rw [finalColoring, coloring, coalescedMoves, moveStatuses_assignAll]

/-- Only temporaries of the code get a register. -/
theorem getElem?_colors_of_not_mentioned (ht : ¬Mentioned rs t) :
    (finalColoring registers shielded rs).colors[t]? = none := by
  have hfinished := finished_drained registers shielded rs
  obtain ⟨hunwound, -, hcolors⟩ := hfinished.assignAll
  have hsorted := hfinished.underway.tidy.sorted
  rw [← mem_nodes_drained registers shielded] at ht
  have hinitial : (drained registers shielded rs).status t = .initial := by
    by_contra hne
    exact ht (hsorted.mem_nodes t hne)
  rw [colors_finalColoring, hcolors, representative_of_not_coalesced (by rw [hinitial]; decide)]
  by_contra hsome
  rw [← ne_eq, Option.ne_none_iff_isSome, hunwound.colored, hsorted.mem_stack, hinitial] at hsome
  cases hsome.1

/-- At the end there is one status for each move of the graph. -/
theorem size_moveStatuses_drained (rs : List Routine) :
    (drained registers shielded rs).moveStatuses.size =
      (Interference.ofRoutines rs).moves.size := by
  have hsteps := steps_drained registers shielded rs
  rw [hsteps.tidy.queued.size_eq, hsteps.moves]
  rfl

section Append

variable {ss : List Routine} (hdisjoint : ∀ t, Mentioned rs t → ¬Mentioned ss t)

include hdisjoint

/-- The first of two lists of routines is a part of both together. -/
theorem part_left :
    Part (within [] rs ss) (drained registers shielded rs)
      (drained registers shielded (rs ++ ss)) :=
  (part_restart registers shielded (fun t _ => not_mentioned_nil t) hdisjoint).sort.drain

/-- The second of two lists of routines is a part of both together. -/
theorem part_right :
    Part (within rs ss []) (drained registers shielded ss)
      (drained registers shielded (rs ++ ss)) := by
  have hpart : Part (within rs ss []) (drained registers shielded ss)
      (drained registers shielded (rs ++ ss ++ [])) :=
    (part_restart registers shielded (fun t hss hrs => hdisjoint t hrs hss)
      fun t _ => not_mentioned_nil t).sort.drain
  rwa [List.append_nil] at hpart

/-- The moves of both lists end as they would on their own. -/
theorem moveStatuses_drained_append :
    (drained registers shielded (rs ++ ss)).moveStatuses =
      (drained registers shielded rs).moveStatuses ++
        (drained registers shielded ss).moveStatuses := by
  have hsize := size_moveStatuses_drained registers shielded
  have hleft := (part_left registers shielded hdisjoint).moveStatuses
  have hright := (part_right registers shielded hdisjoint).moveStatuses
  refine Array.ext_getElem? fun index => ?_
  by_cases hlow : index < (Interference.ofRoutines rs).moves.size
  · rw [Array.getElem?_append_left (by rw [hsize]; exact hlow), ← hleft index hlow]
    exact congrArg _ (Nat.zero_add index).symm
  · obtain ⟨i, rfl⟩ := Nat.exists_eq_add_of_le (Nat.le_of_not_lt hlow)
    rw [Array.getElem?_append_right (by rw [hsize]; omega), hsize, Nat.add_sub_cancel_left]
    by_cases hi : i < (Interference.ofRoutines ss).moves.size
    · exact hright i hi
    · rw [Array.getElem?_eq_none, Array.getElem?_eq_none]
      · rw [hsize]
        omega
      · rw [hsize, Interference.moves_ofRoutines_append, Array.size_append]
        omega

/-- The registers for two lists of routines are those for one and those for the other. -/
theorem colors_finalColoring_append :
    (finalColoring registers shielded (rs ++ ss)).colors =
      (finalColoring registers shielded rs).colors ∪
        (finalColoring registers shielded ss).colors := by
  refine Std.ExtTreeMap.ext_getElem? fun t => ?_
  rw [Std.ExtTreeMap.getElem?_union]
  by_cases hrs : Mentioned rs t
  · rw [getElem?_colors_of_part registers shielded (part_left registers shielded hdisjoint)
        (mem_temps_within.mpr hrs),
      getElem?_colors_of_not_mentioned registers shielded (hdisjoint t hrs), Option.none_or]
  · rw [getElem?_colors_of_not_mentioned registers shielded hrs, Option.or_none]
    by_cases hss : Mentioned ss t
    · exact getElem?_colors_of_part registers shielded (part_right registers shielded hdisjoint)
        (mem_temps_within.mpr hss)
    · -- Neither list mentions the temporary, so it has no register anywhere.
      rw [getElem?_colors_of_not_mentioned registers shielded hss,
        getElem?_colors_of_not_mentioned registers shielded fun h =>
          (mentioned_append.mp h).elim hrs hss]

/-- The spills of two lists of routines are those of one and those of the other. -/
theorem spilled_finalColoring_append :
    (finalColoring registers shielded (rs ++ ss)).spilled =
      (finalColoring registers shielded rs).spilled ∪
        (finalColoring registers shielded ss).spilled := by
  have hmentioned : ∀ qs t, t ∈ (finalColoring registers shielded qs).spilled → Mentioned qs t :=
    fun qs _ => mentioned_of_mem_spilled registers shielded qs
  refine Std.ExtTreeSet.ext_mem fun t => ?_
  rw [Std.ExtTreeSet.mem_union_iff]
  by_cases hrs : Mentioned rs t
  · rw [mem_spilled_of_part registers shielded (part_left registers shielded hdisjoint)
      (mem_temps_within.mpr hrs)]
    exact ⟨.inl, fun h => h.resolve_right fun hs => hdisjoint t hrs (hmentioned ss t hs)⟩
  · by_cases hss : Mentioned ss t
    · rw [mem_spilled_of_part registers shielded (part_right registers shielded hdisjoint)
        (mem_temps_within.mpr hss)]
      exact ⟨.inr, fun h => h.resolve_left fun hs => hrs (hmentioned rs t hs)⟩
    · refine ⟨fun h => ?_, fun h => ?_⟩
      · exact ((mentioned_append.mp (hmentioned _ t h)).elim hrs hss).elim
      · exact (h.elim (fun hs => hrs (hmentioned rs t hs)) fun hs => hss (hmentioned ss t hs)).elim

/-- A round over both lists gives what rounds over each of them give. -/
theorem finalColoring_append :
    finalColoring registers shielded (rs ++ ss) =
      ⟨(finalColoring registers shielded rs).colors ∪ (finalColoring registers shielded ss).colors,
        (finalColoring registers shielded rs).spilled ∪
          (finalColoring registers shielded ss).spilled,
        (finalColoring registers shielded rs).coalescedMoves +
          (finalColoring registers shielded ss).coalescedMoves⟩ := by
  have hmoves : (finalColoring registers shielded (rs ++ ss)).coalescedMoves =
      (finalColoring registers shielded rs).coalescedMoves +
        (finalColoring registers shielded ss).coalescedMoves := by
    rw [coalescedMoves_finalColoring, coalescedMoves_finalColoring, coalescedMoves_finalColoring,
      moveStatuses_drained_append registers shielded hdisjoint, Array.toList_append,
      List.filter_append, List.length_append]
  rw [← colors_finalColoring_append registers shielded hdisjoint,
    ← spilled_finalColoring_append registers shielded hdisjoint, ← hmoves]

end Append

end Allocator

namespace Coloring

open Allocator

/-- Two lists of routines without common temporaries are coloured independently of each
other: a round over both gives out the same registers as a round over each, spills the same
temporaries and merges as many copies. So their order does not matter. -/
theorem ofRoutines_append (registers : Nat) (hregisters : 1 ≤ registers) (shielded : TempSet)
    (rs ss : List Routine) (hdisjoint : ∀ t, Mentioned rs t → ¬Mentioned ss t) :
    ∃ c d, (ofRoutines registers shielded rs).outcome = .ok c ∧
      (ofRoutines registers shielded ss).outcome = .ok d ∧
      (ofRoutines registers shielded (rs ++ ss)).outcome =
        .ok ⟨c.colors ∪ d.colors, c.spilled ∪ d.spilled, c.coalescedMoves + d.coalescedMoves⟩ ∧
      (ofRoutines registers shielded (ss ++ rs)).outcome =
        (ofRoutines registers shielded (rs ++ ss)).outcome := by
  have hok : ∀ qs, (ofRoutines registers shielded qs).outcome
      = .ok (finalColoring registers shielded qs) := by
    intro qs
    rw [ofRoutines_eq registers shielded qs (by omega)]
  have hdisjoint' : ∀ t, Mentioned ss t → ¬Mentioned rs t := fun t hss hrs => hdisjoint t hrs hss
  refine ⟨_, _, hok rs, hok ss, ?_, ?_⟩
  · rw [hok, finalColoring_append registers shielded hdisjoint]
  · rw [hok, hok, finalColoring_append registers shielded hdisjoint,
      finalColoring_append registers shielded hdisjoint']
    -- No temporary has a register from both, so it does not matter which one is asked first.
    have hcolors : (finalColoring registers shielded ss).colors ∪
        (finalColoring registers shielded rs).colors =
          (finalColoring registers shielded rs).colors ∪
        (finalColoring registers shielded ss).colors := by
      refine Std.ExtTreeMap.ext_getElem? fun t => ?_
      rw [Std.ExtTreeMap.getElem?_union, Std.ExtTreeMap.getElem?_union]
      by_cases hrs : Mentioned rs t
      · rw [getElem?_colors_of_not_mentioned registers shielded (hdisjoint t hrs), Option.none_or,
          Option.or_none]
      · rw [getElem?_colors_of_not_mentioned registers shielded hrs, Option.none_or, Option.or_none]
    have hspilled : (finalColoring registers shielded ss).spilled ∪
        (finalColoring registers shielded rs).spilled =
          (finalColoring registers shielded rs).spilled ∪
        (finalColoring registers shielded ss).spilled := by
      refine Std.ExtTreeSet.ext_mem fun t => ?_
      rw [Std.ExtTreeSet.mem_union_iff, Std.ExtTreeSet.mem_union_iff, or_comm]
    rw [hcolors, hspilled, Nat.add_comm]

/-- A copy whose ends can be merged, over other temporaries than those of `crossing`. -/
def passing : Routine where
  frame := ⟨⟨"g"⟩, 0, 0, 0, 0, ⟨10⟩, ⟨11⟩⟩
  entry := ⟨"g"⟩
  exit := ⟨"g.exit"⟩
  instrs :=
    [⟨.oper "SETL `d0,1" [] [⟨12⟩] [], ⟨∅, .ofList [⟨12⟩]⟩⟩,
      ⟨.move Instr.moveTemplate ⟨11⟩ ⟨12⟩, ⟨.ofList [⟨12⟩], .ofList [⟨11⟩]⟩⟩]
  slots := .empty

/-- With a single register something of `crossing` is spilled, which does not concern `passing`. -/
theorem crossing_append_passing :
    (∀ t, Mentioned [crossing] t → ¬Mentioned [passing] t) ∧
      ∃ c d, (ofRoutines 1 ∅ [crossing]).outcome = .ok c ∧
        (ofRoutines 1 ∅ [passing]).outcome = .ok d ∧
        (ofRoutines 1 ∅ [crossing, passing]).outcome =
          .ok ⟨c.colors ∪ d.colors, c.spilled ∪ d.spilled,
            c.coalescedMoves + d.coalescedMoves⟩ := by
  have hdisjoint : ∀ t, Mentioned [crossing] t → ¬Mentioned [passing] t := by
    intro t ht
    rw [← Interference.mem_nodes_ofRoutines] at ht ⊢
    have hnodes : ∀ t ∈ (Interference.ofRoutines [crossing]).nodes.toList,
        t ∉ (Interference.ofRoutines [passing]).nodes := by decide +kernel
    exact hnodes t (Std.ExtTreeSet.mem_toList.mpr ht)
  obtain ⟨c, d, hc, hd, happend, -⟩ :=
    ofRoutines_append 1 (by decide) ∅ [crossing] [passing] hdisjoint
  exact ⟨hdisjoint, c, d, hc, hd, happend⟩

end Coloring

end MmixCodegen
