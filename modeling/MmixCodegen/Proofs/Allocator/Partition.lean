import MmixCodegen.Allocator.Round
import MmixCodegen.Proofs.Interference

/-!
# `MmixCodegen.Proofs.Allocator.Partition`: everything is where its status says

`Sorted` says that each temporary is in exactly the set that its status names,
`Queued` says the same of moves. A change of status keeps the first
(`Sorted.place`), a change of a move's status the second (`Queued.placeMove`).
Together they make the check of an allocation succeed (`checkPartition_eq_ok`).
-/

set_option autoImplicit false

namespace MmixCodegen

namespace NodeSets

/-- The set that a status names. Two of them name none. -/
def get (s : NodeSets) : NodeStatus → TempSet
  | .initial => ∅
  | .simplify => s.simplify
  | .freeze => s.freeze
  | .spill => s.spill
  | .spilled => s.spilled
  | .coalesced => s.coalesced
  | .onStack => ∅
  | .colored => s.colored

/-- A change to the set of one status leaves the others alone. -/
theorem get_update (s : NodeSets) {status other : NodeStatus} (f : TempSet → TempSet)
    (hinitial : other ≠ .initial) (hstack : other ≠ .onStack) :
    (s.update status f).get other = if status = other then f (s.get other) else s.get other := by
  cases status <;> cases other <;> first | rfl | exact absurd rfl hinitial | exact absurd rfl hstack

end NodeSets

namespace Allocator

/-- Each temporary is in exactly the set that its status names, and only nodes of
the graph have a status. -/
structure Sorted (a : Allocator) : Prop where
  mem_get : ∀ s t, s ≠ .initial → s ≠ .onStack → (t ∈ a.sets.get s ↔ a.status t = s)
  mem_stack : ∀ t, t ∈ a.stack ↔ a.status t = .onStack
  nodup : a.stack.Nodup
  mem_nodes : ∀ t, a.status t ≠ .initial → t ∈ a.graph.nodes

namespace Sorted

variable {a : Allocator} {t : Temp}

/-- The temporaries that can be simplified are those of this status. -/
theorem mem_simplify (h : a.Sorted) : t ∈ a.sets.simplify ↔ a.status t = .simplify :=
  h.mem_get .simplify t (by decide) (by decide)

/-- The temporaries that can be frozen are those of this status. -/
theorem mem_freeze (h : a.Sorted) : t ∈ a.sets.freeze ↔ a.status t = .freeze :=
  h.mem_get .freeze t (by decide) (by decide)

/-- The candidates for spilling are those of this status. -/
theorem mem_spill (h : a.Sorted) : t ∈ a.sets.spill ↔ a.status t = .spill :=
  h.mem_get .spill t (by decide) (by decide)

/-- The spilled temporaries are those of this status. -/
theorem mem_spilled (h : a.Sorted) : t ∈ a.sets.spilled ↔ a.status t = .spilled :=
  h.mem_get .spilled t (by decide) (by decide)

/-- The merged temporaries are those of this status. -/
theorem mem_coalesced (h : a.Sorted) : t ∈ a.sets.coalesced ↔ a.status t = .coalesced :=
  h.mem_get .coalesced t (by decide) (by decide)

/-- The temporaries with a register are those of this status. -/
theorem mem_colored (h : a.Sorted) : t ∈ a.sets.colored ↔ a.status t = .colored :=
  h.mem_get .colored t (by decide) (by decide)

/-- In a stack without repetitions, taking off one temporary leaves all others. -/
theorem unstack_eq_filter {l : List Temp} (h : l.Nodup) (t : Temp) :
    unstack t l = l.filter (· ≠ t) := by
  cases l with
  | nil => rfl
  | cons top rest =>
      rw [List.nodup_cons] at h
      by_cases htop : top = t
      · -- The rest does not contain `t`, so filtering leaves it as it is.
        subst htop
        have hrest : rest.filter (· ≠ top) = rest := by
          rw [List.filter_eq_self]
          intro x hx
          have hne : x ≠ top := fun heq => h.1 (heq ▸ hx)
          simpa using hne
        rw [unstack, if_pos rfl, List.filter_cons_of_neg (by simp), hrest]
      · rw [unstack, if_neg htop, List.filter_cons_of_pos (by simpa using htop)]

/-- The stack after a change of status. -/
theorem stack_place (h : a.Sorted) (t : Temp) (next : NodeStatus) :
    (a.place t next).stack =
      if next = .onStack then t :: a.stack.filter (· ≠ t) else a.stack.filter (· ≠ t) := by
  have hfilter : (if a.status t = .onStack then unstack t a.stack else a.stack)
      = a.stack.filter (· ≠ t) := by
    by_cases hprev : a.status t = .onStack
    · rw [if_pos hprev, unstack_eq_filter h.nodup]
    · rw [if_neg hprev, eq_comm, List.filter_eq_self]
      intro x hx
      have hne : x ≠ t := by
        rintro rfl
        exact hprev ((h.mem_stack x).mp hx)
      simpa using hne
  simp only [place, hfilter]

/-- A change of status moves a temporary from one set to another. -/
theorem place (h : a.Sorted) (ht : t ∈ a.graph.nodes) (next : NodeStatus) :
    (a.place t next).Sorted where
  mem_get := by
    intro s x hinitial hstack
    rw [status_place]
    show x ∈ ((a.sets.update (a.status t) (·.erase t)).update next (·.insert t)).get s ↔ _
    rw [NodeSets.get_update _ _ hinitial hstack, NodeSets.get_update _ _ hinitial hstack]
    have hmem := h.mem_get s x hinitial hstack
    -- `t` was taken out of the set of its old status, wherever it goes now.
    by_cases hxt : t = x
    · subst hxt
      rw [if_pos rfl]
      by_cases hs : next = s
      · rw [if_pos hs]
        simp [hs]
      · rw [if_neg hs]
        refine ⟨fun hin => ?_, fun heq => absurd heq hs⟩
        by_cases hprev : a.status t = s
        · rw [if_pos hprev, TempSet.mem_erase_iff] at hin
          exact absurd rfl hin.1
        · rw [if_neg hprev, hmem] at hin
          exact absurd hin hprev
    · rw [if_neg hxt, ← hmem]
      split <;> split <;> simp [hxt]
  mem_stack := by
    intro x
    rw [h.stack_place, status_place]
    by_cases hxt : t = x
    · subst hxt
      by_cases hs : next = .onStack <;> simp [hs]
    · by_cases hs : next = .onStack <;> simp [hs, hxt, Ne.symm hxt, h.mem_stack]
  nodup := by
    rw [h.stack_place]
    split
    · exact List.nodup_cons.mpr ⟨by simp, h.nodup.filter _⟩
    · exact h.nodup.filter _
  mem_nodes := by
    intro x hx
    rw [status_place] at hx
    by_cases hxt : t = x
    · exact hxt ▸ ht
    · rw [if_neg hxt] at hx
      exact h.mem_nodes x hx

/-- Sorting depends on the sets, the stack and the statuses alone. -/
theorem congr {b : Allocator} (h : a.Sorted) (hsets : b.sets = a.sets) (hstack : b.stack = a.stack)
    (hstatuses : b.statuses = a.statuses) (hnodes : b.graph.nodes = a.graph.nodes) : b.Sorted := by
  have hstatus : ∀ t, b.status t = a.status t := fun t => by rw [status, status, hstatuses]
  refine ⟨?_, ?_, hstack ▸ h.nodup, ?_⟩
  · intro s t hinitial hs
    rw [hsets, hstatus]
    exact h.mem_get s t hinitial hs
  · intro t
    rw [hstack, hstatus]
    exact h.mem_stack t
  · intro t ht
    rw [hstatus] at ht
    rw [hnodes]
    exact h.mem_nodes t ht

end Sorted

/-! ### Moves -/

/-- Each move is in exactly the set that its status names. -/
structure Queued (a : Allocator) : Prop where
  size_eq : a.moveStatuses.size = a.graph.moves.size
  mem_waiting : ∀ index, index ∈ a.waiting ↔ a.moveStatuses[index]? = some .worklist
  mem_active : ∀ index, index ∈ a.active ↔ a.moveStatuses[index]? = some .active

/-- A move is pending just if it waits or was put aside. -/
theorem isPending_iff {a : Allocator} {index : Nat} :
    a.isPending index = true ↔
      a.moveStatuses[index]? = some .worklist ∨ a.moveStatuses[index]? = some .active := by
  unfold isPending
  cases h : a.moveStatuses[index]? with
  | none => simp
  | some s => cases s <;> simp [MoveStatus.isPending]

/-- A new status concerns one move only, and only if there is such a move. -/
theorem moveStatuses_placeMove (a : Allocator) (index : Nat) (next : MoveStatus) (other : Nat) :
    (a.placeMove index next).moveStatuses[other]? =
      if index = other then a.moveStatuses[other]?.map fun _ => next
      else a.moveStatuses[other]? := by
  simp only [placeMove, Array.getElem?_setIfInBounds]
  by_cases h : index = other
  · subst h
    by_cases hlt : index < a.moveStatuses.size
    · simp [hlt]
    · simp [hlt]
  · simp [h]

/-- The members of the set for status `q` after a move's status has changed from
`prev` to `next`. -/
theorem mem_requeue (s : MoveSet) (prev : Option MoveStatus) (q next : MoveStatus)
    (index other : Nat) :
    (other ∈
      if next = q then (if prev = some q then s.erase index else s).insert index
      else if prev = some q then s.erase index else s) ↔
      if index = other then next = q ∨ (prev ≠ some q ∧ other ∈ s) else other ∈ s := by
  by_cases heq : index = other
  · subst heq
    split <;> split <;> simp_all
  · split <;> split <;> simp [heq]

/-- A change of a move's status moves it from one set to another. -/
theorem Queued.placeMove {a : Allocator} (h : a.Queued) {index : Nat}
    (hindex : a.moveStatuses[index]?.isSome) (next : MoveStatus) :
    (a.placeMove index next).Queued := by
  obtain ⟨prev, hprev⟩ := Option.isSome_iff_exists.mp hindex
  refine ⟨?_, ?_, ?_⟩
  · simp only [Allocator.placeMove, Array.size_setIfInBounds]
    exact h.size_eq
  · intro other
    rw [moveStatuses_placeMove]
    refine (mem_requeue a.waiting a.moveStatuses[index]? .worklist next index other).trans ?_
    rw [h.mem_waiting]
    by_cases heq : index = other
    · subst heq
      simp [hprev]
    · simp [heq]
  · intro other
    rw [moveStatuses_placeMove]
    refine (mem_requeue a.active a.moveStatuses[index]? .active next index other).trans ?_
    rw [h.mem_active]
    by_cases heq : index = other
    · subst heq
      simp [hprev]
    · simp [heq]

/-- Whether moves are where their statuses say depends on these sets and statuses only. -/
theorem Queued.congr {a b : Allocator} (h : a.Queued) (hstatuses : b.moveStatuses = a.moveStatuses)
    (hwaiting : b.waiting = a.waiting) (hactive : b.active = a.active)
    (hmoves : b.graph.moves.size = a.graph.moves.size) : b.Queued := by
  refine ⟨?_, ?_, ?_⟩
  · rw [hstatuses, hmoves]
    exact h.size_eq
  · rw [hstatuses, hwaiting]
    exact h.mem_waiting
  · rw [hstatuses, hactive]
    exact h.mem_active

/-! ### The check -/

/-- A temporary with a status is found in the place that its status names, and in no other. -/
theorem found_eq {a : Allocator} (h : a.Sorted) {t : Temp} (ht : a.status t ≠ .initial) :
    a.found t = [a.status t] := by
  have hcontains : ∀ (s : TempSet), s.contains t = decide (t ∈ s) := fun s => by
    rw [Bool.eq_iff_iff, decide_eq_true_iff, Std.ExtTreeSet.mem_iff_contains]
  have hstack : a.stack.contains t = decide (t ∈ a.stack) := by simp
  simp only [found, hcontains, hstack, h.mem_simplify, h.mem_freeze, h.mem_spill, h.mem_spilled,
    h.mem_coalesced, h.mem_colored, h.mem_stack]
  cases hs : a.status t <;> first | exact absurd hs ht | rfl

/-- The statuses under which temporaries are classified. -/
def classes : Finset NodeStatus :=
  {.simplify, .freeze, .spill, .spilled, .coalesced, .colored, .onStack}

/-- All sets and the stack together hold each node once. -/
theorem classified_eq {a : Allocator} (h : a.Sorted)
    (hall : ∀ t ∈ a.graph.nodes, a.status t ≠ .initial) : a.classified = a.graph.nodes.size := by
  have hset : ∀ (s : NodeStatus), s ≠ .initial → s ≠ .onStack →
      (a.graph.nodes.toFinset.filter fun t => a.status t = s).card = (a.sets.get s).size := by
    intro s hinitial hstack
    rw [← TempSet.card_toFinset]
    congr 1
    ext t
    rw [Finset.mem_filter, TempSet.mem_toFinset, TempSet.mem_toFinset,
      h.mem_get s t hinitial hstack]
    refine ⟨fun hmem => hmem.2, fun heq => ⟨h.mem_nodes t (heq ▸ hinitial), heq⟩⟩
  have hstack : (a.graph.nodes.toFinset.filter fun t => a.status t = .onStack).card
      = a.stack.length := by
    rw [← List.toFinset_card_of_nodup h.nodup]
    congr 1
    ext t
    rw [Finset.mem_filter, TempSet.mem_toFinset, List.mem_toFinset, h.mem_stack]
    refine ⟨fun hmem => hmem.2, fun heq => ⟨h.mem_nodes t (by rw [heq]; decide), heq⟩⟩
  -- Counting the nodes status by status.
  have hmaps : ∀ t ∈ a.graph.nodes.toFinset, a.status t ∈ classes := by
    intro t ht
    have hne := hall t (TempSet.mem_toFinset.mp ht)
    cases hs : a.status t <;> first | exact absurd hs hne | decide
  have hcount := Finset.card_eq_sum_card_fiberwise hmaps
  rw [TempSet.card_toFinset] at hcount
  simp only [classes, Finset.sum_insert, Finset.mem_insert, Finset.mem_singleton,
    Finset.sum_singleton, reduceCtorEq, or_self, not_false_eq_true] at hcount
  rw [hset _ (by decide) (by decide), hset _ (by decide) (by decide),
    hset _ (by decide) (by decide), hset _ (by decide) (by decide),
    hset _ (by decide) (by decide), hset _ (by decide) (by decide), hstack] at hcount
  simp only [NodeSets.get] at hcount
  rw [classified, hcount]
  omega

/-- If all temporaries are in place, then what the check finds is up to the moves. -/
theorem checkPartition_eq {a : Allocator} (hsorted : a.Sorted)
    (hall : ∀ t ∈ a.graph.nodes, a.status t ≠ .initial) :
    a.checkPartition = firstFailure a.misplacedMoves := by
  have hnodes : a.misplacedNodes = [] := by
    rw [misplacedNodes, List.filterMap_eq_nil_iff]
    intro t ht
    rw [Std.ExtTreeSet.mem_toList] at ht
    rw [if_pos (found_eq hsorted (hall t ht))]
  unfold checkPartition
  rw [hnodes, classified_eq hsorted hall, if_pos rfl]
  rfl

/-- The check reports each move that is not where its status says. -/
theorem mem_misplacedMoves {a : Allocator} {failure : Failure} :
    failure ∈ a.misplacedMoves ↔ ∃ index status, a.moveStatuses[index]? = some status ∧
      isMovePlaced status (a.waiting.contains index) (a.active.contains index) = false ∧
      failure = .misplacedMove index status (a.waiting.contains index)
        (a.active.contains index) := by
  have hget : ∀ status index, (status, index) ∈ a.moveStatuses.toList.zipIdx ↔
      a.moveStatuses[index]? = some status := by
    intro status index
    rw [List.mem_zipIdx_iff_getElem?, Array.getElem?_toList]
  rw [misplacedMoves, List.mem_filterMap]
  constructor
  · rintro ⟨⟨status, index⟩, hmem, hfailure⟩
    dsimp only at hfailure
    split at hfailure
    · cases hfailure
    · next hplaced =>
      cases hfailure
      exact ⟨index, status, (hget _ _).mp hmem, Bool.eq_false_iff.mpr hplaced, rfl⟩
  · rintro ⟨index, status, hmem, hplaced, rfl⟩
    refine ⟨(status, index), (hget _ _).mpr hmem, ?_⟩
    dsimp only
    rw [hplaced, if_neg Bool.false_ne_true]

/-- In a state where everything is in place, the check succeeds. -/
theorem checkPartition_eq_ok {a : Allocator} (hsorted : a.Sorted) (hqueued : a.Queued)
    (hall : ∀ t ∈ a.graph.nodes, a.status t ≠ .initial) : a.checkPartition = .ok () := by
  have hmoves : a.misplacedMoves = [] := by
    refine List.eq_nil_iff_forall_not_mem.mpr fun failure hmem => ?_
    obtain ⟨index, status, hget, hplaced, -⟩ := mem_misplacedMoves.mp hmem
    -- The two queues are told apart by the status, as the check expects.
    have hwaiting : a.waiting.contains index = decide (status = .worklist) := by
      rw [Bool.eq_iff_iff, ← Std.ExtTreeSet.mem_iff_contains, hqueued.mem_waiting, hget]
      simp
    have hactive : a.active.contains index = decide (status = .active) := by
      rw [Bool.eq_iff_iff, ← Std.ExtTreeSet.mem_iff_contains, hqueued.mem_active, hget]
      simp
    rw [hwaiting, hactive] at hplaced
    cases status <;> cases hplaced
  rw [checkPartition_eq hsorted hall, hmoves]
  rfl

end Allocator

end MmixCodegen
