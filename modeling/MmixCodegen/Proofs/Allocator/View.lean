import MmixCodegen.Proofs.Allocator.Linked
import MmixCodegen.Proofs.Elimination

/-!
# `MmixCodegen.Proofs.Allocator.View`: an allocation takes a graph apart

`Allocator.view` forgets everything about a state that an `Elimination` does not
have. `Tidy.view_perform` says that an action does to this view what
`Action.effect` says: one action pushes a temporary, one merges two of them, and
all others do nothing.
-/

set_option autoImplicit false

namespace MmixCodegen

/-- The neighbours of a temporary, without their order. -/
def Interference.nbrs (g : Interference) (t : Temp) : Finset Temp :=
  (g.neighbors t).toFinset

/-- The neighbours without their order are the neighbours. -/
@[simp]
theorem Interference.mem_nbrs {g : Interference} {t x : Temp} :
    x ∈ g.nbrs t ↔ x ∈ g.neighbors t :=
  TempSet.mem_toFinset

/-- What an action does to a graph that is being taken apart. -/
def Action.effect : Action → Elimination → Elimination
  | simplify t, e => e.push t
  | merge _ _ u v, e => e.merge u v
  | _, e => e

/-- No action separates what stands for the same temporary. -/
theorem Action.effect_rep (action : Action) {e : Elimination} {x y : Temp} (h : e.rep x = e.rep y) :
    (action.effect e).rep x = (action.effect e).rep y := by
  cases action with
  | merge _ _ u v =>
      show (e.merge u v).rep x = (e.merge u v).rep y
      rw [Elimination.rep_merge, Elimination.rep_merge, h]
  | _ => exact h

namespace Allocator

variable {a b : Allocator} {t u v x : Temp} {action : Action}

/-- The graph that an allocation takes apart. -/
def view (a : Allocator) : Elimination where
  nbrs := a.graph.nbrs
  rep := a.representative
  stack := a.stack

/-- In the view, a temporary stands for its representative. -/
theorem rep_view (a : Allocator) (t : Temp) : a.view.rep t = a.representative t :=
  rfl

/-- A temporary is present just if it is neither on the stack nor merged. -/
theorem isPresent_iff : a.isPresent t = true ↔ a.status t ≠ .onStack ∧ a.status t ≠ .coalesced := by
  unfold isPresent
  cases a.status t <;> simp

/-- The view shows neighbours, representatives and the stack, and nothing else. -/
theorem view_eq_of (hneighbors : ∀ t, b.graph.neighbors t = a.graph.neighbors t)
    (hrep : ∀ t, b.representative t = a.representative t) (hstack : b.stack = a.stack) :
    b.view = a.view := by
  refine Elimination.ext (funext fun t => ?_) (funext hrep) hstack
  show (b.graph.neighbors t).toFinset = (a.graph.neighbors t).toFinset
  rw [hneighbors]

/-- Housekeeping that adds no edges does not show in the view. -/
theorem Eases.view (h : Eases a b) (hneighbors : ∀ t, b.graph.neighbors t = a.graph.neighbors t) :
    b.view = a.view :=
  view_eq_of hneighbors h.representative h.stack

namespace Tidy

/-- The view has the same temporaries present. -/
theorem present_view (h : a.Tidy) : a.view.Present t ↔ a.isPresent t = true := by
  rw [isPresent_iff, Elimination.Present]
  show a.representative t = t ∧ t ∉ a.stack ↔ _
  rw [h.aliased.representative_eq_self_iff, h.sorted.mem_stack]
  exact and_comm

/-- The neighbours that are left in the view are the adjacent temporaries. -/
theorem mem_live_view (h : a.Tidy) : x ∈ a.view.live t ↔ x ∈ a.adjacent t := by
  rw [Elimination.mem_live, h.present_view, adjacent, List.mem_filter, Std.ExtTreeSet.mem_toList]
  exact and_congr_left' Interference.mem_nbrs

/-- No temporary is adjacent twice. -/
theorem nodup_adjacent (a : Allocator) (t : Temp) : (a.adjacent t).Nodup :=
  (TempSet.nodup_toList _).filter _

/-! ### Pushing -/

/-- A status that is neither `coalesced` nor `onStack`, before and after, does not
show in the view. -/
theorem view_place (h : a.Tidy) {next : NodeStatus}
    (hprev : a.status t ≠ .coalesced ∧ a.status t ≠ .onStack)
    (hnext : next ≠ .coalesced ∧ next ≠ .onStack) : (a.place t next).view = a.view := by
  refine view_eq_of (fun _ => rfl) (representative_place hprev.1 hnext.1) ?_
  rw [h.sorted.stack_place, if_neg hnext.2, List.filter_eq_self]
  intro x hx
  have hne : x ≠ t := fun heq => hprev.2 ((h.sorted.mem_stack t).mp (heq ▸ hx))
  simpa using hne

/-- A temporary that goes on the stack is pushed in the view. -/
theorem view_push (h : a.Tidy) (ht : a.status t = .simplify) :
    (a.place t .onStack).view = a.view.push t := by
  refine Elimination.ext rfl (funext fun x => ?_) ?_
  · exact representative_place (by rw [ht]; decide) (by decide) x
  · show (a.place t .onStack).stack = t :: a.stack
    rw [h.sorted.stack_place, if_pos rfl, List.cons.injEq, List.filter_eq_self]
    refine ⟨rfl, fun x hx => ?_⟩
    have hne : x ≠ t := by
      rintro rfl
      rw [h.sorted.mem_stack, ht] at hx
      cases hx
    simpa using hne

/-- After a temporary went on the stack, the rest of the action is housekeeping. -/
theorem eases_simplify (h : a.Tidy) (ht : a.status t = .simplify) :
    Eases (a.place t .onStack) (a.simplify t) := by
  have hpush := h.steps_place (h.mem_nodes_of_status ht (by decide)) .onStack
    (by rw [ht]; decide) (by decide)
  exact Eases.foldl (fun _ x h => h.eases_loseNeighbor x) hpush.tidy _

/-- Taking a temporary out of the graph pushes it in the view. -/
theorem view_simplify (h : a.Tidy) (ht : a.status t = .simplify) :
    (a.simplify t).view = a.view.push t := by
  rw [← h.view_push ht]
  refine (h.eases_simplify ht).view fun x => ?_
  exact foldl_eq (p := fun b => b.graph.neighbors x) (fun b n => neighbors_loseNeighbor b n x) _ _

/-! ### Merging -/

/-- After `v` was merged, its neighbours that are still present are those that
were present before. -/
theorem mem_adjacent_join (h : a.Tidy) :
    x ∈ ((a.join u v).wakeMoves v).adjacent v ↔ x ∈ a.view.live v := by
  rw [h.mem_live_view, adjacent, adjacent, List.mem_filter, List.mem_filter, graph_wakeMoves,
    Std.ExtTreeSet.mem_toList, Std.ExtTreeSet.mem_toList]
  show x ∈ a.graph.neighbors v ∧ _ ↔ _
  refine and_congr_right fun hx => ?_
  have hxv : v ≠ x := by
    rintro rfl
    exact h.sound.irrefl v hx
  rw [isPresent_iff, isPresent_iff, status_wakeMoves, status_join, if_neg hxv]

/-- The graph is still sound when two temporaries were joined. -/
theorem sound_join (h : a.Tidy) : ((a.join u v).wakeMoves v).graph.Sound := by
  rw [graph_wakeMoves]
  exact h.sound.of_eq rfl rfl

/-- The temporary that is merged into does not become its own neighbour. -/
theorem notMem_adjacent_join (h : a.Tidy) (hm : a.view.Mergeable u v) :
    u ∉ ((a.join u v).wakeMoves v).adjacent v := by
  rw [h.mem_adjacent_join]
  exact hm.not_mem_live

/-- A merge makes neighbours of `u` and of what is left of the neighbours of `v`,
and of nothing else. -/
theorem mem_neighbors_merge (h : a.Tidy) (hm : a.view.Mergeable u v) (t x : Temp) :
    x ∈ (a.merge u v).graph.neighbors t ↔
      x ∈ a.graph.neighbors t ∨ (t = u ∧ x ∈ a.view.live v) ∨ (x = u ∧ t ∈ a.view.live v) := by
  rw [merge, graph_burden, absorb,
    mem_neighbors_foldl_takeOver h.sound_join (h.notMem_adjacent_join hm), h.mem_adjacent_join,
    h.mem_adjacent_join, graph_wakeMoves]
  rfl

/-- Sorting a temporary that became one of high degree does not show in the view. -/
theorem view_burden (h : a.Tidy) (t : Temp) : (a.burden t).view = a.view := by
  unfold burden
  split
  · next hguard =>
    rw [Bool.and_eq_true, decide_eq_true_eq] at hguard
    refine h.view_place ?_ (by decide)
    rw [hguard.2]
    decide
  · rfl

/-- A merge is a merge in the view. -/
theorem view_merge (h : a.Tidy) (hu : u ∈ a.graph.nodes) (hv : v ∈ a.graph.nodes)
    (hm : a.view.Mergeable u v) : (a.merge u v).view = a.view.merge u v := by
  have hu' := isPresent_iff.mp (h.present_view.mp hm.left)
  have hv' := isPresent_iff.mp (h.present_view.mp hm.right)
  obtain ⟨hjoin, hrep⟩ := h.steps_join hu hv hu'.2 hv'.2 hm.ne
  have habsorb := Tidy.eases_absorb hjoin.tidy (hjoin.nodes ▸ hu)
  have hburden := view_burden habsorb.tidy u
  refine Elimination.ext (funext fun t => ?_) (funext fun t => ?_) ?_
  · ext x
    rw [Elimination.mem_nbrs_merge hm]
    exact Interference.mem_nbrs.trans
      ((h.mem_neighbors_merge hm t x).trans (or_congr_left Interference.mem_nbrs.symm))
  · have hfinal := congrFun (congrArg Elimination.rep hburden) t
    exact hfinal.trans ((habsorb.representative t).trans (hrep t))
  -- `v` was present, so it is not on the stack that it would be taken from.
  · have hfinal := congrArg Elimination.stack hburden
    refine (hfinal.trans habsorb.stack).trans ?_
    show (a.place v .coalesced).stack = a.stack
    rw [h.sorted.stack_place, if_neg (by decide), List.filter_eq_self]
    intro x hx
    have hxv : x ≠ v := fun heq => hv'.1 ((h.sorted.mem_stack v).mp (heq ▸ hx))
    simpa using hxv

/-! ### All actions -/

/-- Settling a waiting move does not show in the view. -/
theorem view_settleMove (h : a.Tidy) {index : Nat} (hindex : index ∈ a.waiting) (m : Move)
    (next : MoveStatus) : ((a.compressEnds m).placeMove index next).view = a.view :=
  (h.eases_settleMove hindex m next).view fun _ => rfl

/-- Releasing a temporary does not show in the view. -/
theorem view_release (h : a.Tidy) (t : Temp) : (a.release t).view = a.view :=
  (h.eases_release t).view fun x => by rw [graph_release]

/-- Freezing and spilling do not show in the view. -/
theorem view_freezeMoves (h : a.Tidy) (ht : a.status t = .freeze ∨ a.status t = .spill) :
    ((a.place t .simplify).freezeMoves t).view = a.view := by
  have hmem : t ∈ a.graph.nodes := by
    rcases ht with ht | ht <;> exact h.mem_nodes_of_status ht (by decide)
  have hstatus : a.status t ≠ .coalesced ∧ a.status t ≠ .onStack := by
    rcases ht with ht | ht <;> rw [ht] <;> decide
  have hplace := h.steps_place hmem .simplify hstatus.1 (by decide)
  rw [← h.view_place hstatus (show NodeStatus.simplify ≠ .coalesced ∧ _ by decide)]
  exact (hplace.tidy.eases_freezeMoves t).view fun x => by rw [graph_freezeMoves]

/-- The ends of a move that is merged are still in the graph. -/
theorem mergeable (h : a.Tidy) (hlinked : a.Linked) {index : Nat} {m : Move}
    (hindex : index ∈ a.waiting) (hm : a.graph.moves[index]? = some m)
    (hne : a.representative m.dst ≠ a.representative m.src)
    (hapart : a.graph.interferes (a.representative m.dst) (a.representative m.src) = false) :
    a.view.Mergeable (a.representative m.dst) (a.representative m.src) := by
  obtain ⟨⟨-, hu⟩, -, hv⟩ := h.representative_ends hm
  have hpending : a.isPending index = true :=
    isPending_iff.mpr (Or.inl ((h.queued.mem_waiting index).mp hindex))
  -- An end of a pending move has not been pushed.
  have hu' := hlinked.not_idle hpending hm (Or.inl rfl)
  have hv' := hlinked.not_idle hpending hm (Or.inr rfl)
  refine ⟨?_, ?_, hne, fun hmem => ?_⟩
  · rw [h.present_view, isPresent_iff]
    exact ⟨fun hs => hu' (Or.inr hs), hu⟩
  · rw [h.present_view, isPresent_iff]
    exact ⟨fun hs => hv' (Or.inr hs), hv⟩
  · rw [show a.view.nbrs = a.graph.nbrs from rfl, Interference.mem_nbrs, ← h.sound.interferes_iff,
      Interference.interferes_comm, hapart] at hmem
    cases hmem

/-- A merge is enabled only for two temporaries that may be merged in the view. -/
theorem mergeable_of_enabled (h : a.Tidy) (hlinked : a.Linked) {index : Nat} {m : Move}
    (haction : a.Enabled (.merge index m u v)) : a.view.Mergeable u v := by
  cases haction with
  | merge hindex hm hne hapart htest => exact h.mergeable hlinked hindex hm hne hapart

/-- An action does to the graph what its effect says. -/
theorem view_perform (h : a.Tidy) (hlinked : a.Linked) (haction : a.Enabled action) :
    (a.perform action).view = action.effect a.view := by
  cases haction with
  | simplify ht => exact h.view_simplify ht
  | @join index m hindex hm heq =>
      have hmove := (h.eases_settleMove hindex m .coalesced).tidy
      exact (hmove.view_release _).trans (h.view_settleMove hindex m .coalesced)
  | @constrain index m hindex hm =>
      have hmove := (h.eases_settleMove hindex m .constrained).tidy
      have hdst := (hmove.eases_release (a.representative m.dst)).tidy
      exact (hdst.view_release _).trans
        ((hmove.view_release _).trans (h.view_settleMove hindex m .constrained))
  | @merge index m hindex hm hne hapart htest =>
      have hmove := h.eases_settleMove hindex m .coalesced
      have hsettled := h.view_settleMove hindex m .coalesced
      obtain ⟨⟨hu, hu'⟩, hv, hv'⟩ := h.representative_ends hm
      -- The move is settled before its ends are merged, which does not change the view.
      have hmergeable := h.mergeable hlinked hindex hm hne hapart
      have hmerge := hmove.tidy.steps_merge (hmove.nodes ▸ hu) (hmove.nodes ▸ hv) hu' hv' hne
      have hview := hmove.tidy.view_merge (hmove.nodes ▸ hu) (hmove.nodes ▸ hv)
        (hsettled ▸ hmergeable)
      rw [hsettled] at hview
      exact (hmerge.tidy.view_release _).trans hview
  | @postpone index m hindex hm => exact h.view_settleMove hindex m .active
  | freeze ht => exact h.view_freezeMoves (Or.inl ht)
  | spill ht hsimplify hfreeze hshield => exact h.view_freezeMoves (Or.inr ht)

end Tidy

end Allocator

end MmixCodegen
