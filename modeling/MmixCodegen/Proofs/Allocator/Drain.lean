import MmixCodegen.Proofs.Allocator.Step
import Mathlib.Algebra.BigOperators.Group.Finset.Basic
import Mathlib.Algebra.Order.BigOperators.Group.Finset

/-!
# `MmixCodegen.Proofs.Allocator.Drain`: actions run out

Every action lowers the potential of a tidy state (`Tidy.potential_perform`). So
a drained state is one in which there is nothing left to do
(`Tidy.next?_drain`), and this holds for any state to start from.

`Runs a actions b` says that the actions lead from `a` to `b`, each of them being
the next one where it is taken. What every action keeps, a run keeps
(`Runs.induct`).
-/

set_option autoImplicit false

namespace MmixCodegen

namespace Allocator

variable {a b : Allocator} {t u v x : Temp} {action : Action}

/-! ### The charges of the temporaries -/

/-- The charges of all nodes together. -/
def charges (a : Allocator) : Nat :=
  ∑ t ∈ a.graph.nodes.toFinset, charge (a.graph.moves.size + 2) (a.status t)

/-- The potential is the sum of the charges and the number of waiting moves. -/
theorem potential_eq (a : Allocator) : a.potential = a.charges + a.waiting.size := by
  unfold potential charges TempSet.toFinset
  rw [List.sum_toFinset _ a.graph.nodes.nodup_toList]
  rfl

/-- Coming closer to being simplified costs nothing. -/
theorem charge_le_of_eases {s s' : NodeStatus} (h : s.Eases s') (weight : Nat) :
    charge weight s' ≤ charge weight s := by
  unfold charge
  rcases h with rfl | ⟨rfl, rfl⟩ | ⟨rfl | rfl, rfl⟩ <;> simp [presence, reluctance]

/-- What is not merged is charged at least the weight of leaving the graph. -/
theorem le_charge_of_ne {s : NodeStatus} (h : s ≠ .coalesced) (weight : Nat) :
    weight ≤ charge weight s := by
  unfold charge
  cases s with
  | coalesced => exact absurd rfl h
  | onStack => simp [presence]
  | _ =>
      simp only [presence]
      omega

/-- Housekeeping raises no charge. -/
theorem Eases.charges_le (h : Eases a b) : b.charges ≤ a.charges := by
  unfold charges
  rw [h.nodes, h.moves]
  exact Finset.sum_le_sum fun t _ => charge_le_of_eases (h.status t) _

/-- A new status trades one charge for another. -/
theorem charges_place (a : Allocator) (ht : t ∈ a.graph.nodes) (next : NodeStatus) :
    (a.place t next).charges + charge (a.graph.moves.size + 2) (a.status t) =
      a.charges + charge (a.graph.moves.size + 2) next := by
  have hmem : t ∈ a.graph.nodes.toFinset := TempSet.mem_toFinset.mpr ht
  -- All other summands stay as they are.
  have hrest : ∑ x ∈ a.graph.nodes.toFinset.erase t,
        charge (a.graph.moves.size + 2) ((a.place t next).status x)
      = ∑ x ∈ a.graph.nodes.toFinset.erase t, charge (a.graph.moves.size + 2) (a.status x) := by
    refine Finset.sum_congr rfl fun x hx => ?_
    rw [status_place, if_neg (Ne.symm (Finset.ne_of_mem_erase hx))]
  have hnew : (a.place t next).charges = charge (a.graph.moves.size + 2) next
      + ∑ x ∈ a.graph.nodes.toFinset.erase t, charge (a.graph.moves.size + 2) (a.status x) := by
    unfold charges
    show ∑ x ∈ a.graph.nodes.toFinset,
        charge (a.graph.moves.size + 2) ((a.place t next).status x) = _
    rw [← Finset.add_sum_erase _ _ hmem, hrest, status_place, if_pos rfl]
  have hold : a.charges = charge (a.graph.moves.size + 2) (a.status t)
      + ∑ x ∈ a.graph.nodes.toFinset.erase t, charge (a.graph.moves.size + 2) (a.status x) :=
    (Finset.add_sum_erase _ _ hmem).symm
  omega

/-- Sorting a temporary again adds at most one. -/
theorem charges_burden_le (h : a.Tidy) (t : Temp) : (a.burden t).charges ≤ a.charges + 1 := by
  unfold burden
  split
  · next hguard =>
    rw [Bool.and_eq_true, decide_eq_true_eq] at hguard
    have hplace := charges_place a (h.mem_nodes_of_status hguard.2 (by decide)) .spill
    rw [hguard.2] at hplace
    simp only [charge, presence, reluctance] at hplace
    omega
  · omega

/-- A merge pays for everything that it may wake up. -/
theorem charges_merge_le (h : a.Tidy) (hu : u ∈ a.graph.nodes) (hv : v ∈ a.graph.nodes)
    (hu' : a.status u ≠ .coalesced) (hv' : a.status v ≠ .coalesced) (hne : u ≠ v) :
    (a.merge u v).charges + a.graph.moves.size + 1 ≤ a.charges := by
  have hjoin := (h.steps_join hu hv hu' hv' hne).1
  have habsorb := Tidy.eases_absorb hjoin.tidy (hjoin.nodes ▸ hu)
  have hgone : (a.join u v).charges + charge (a.graph.moves.size + 2) (a.status v)
      = a.charges + charge (a.graph.moves.size + 2) .coalesced := charges_place a hv .coalesced
  -- `v` gives up more than all moves together can cost.
  have hpaid := le_charge_of_ne hv' (a.graph.moves.size + 2)
  have hmerged :=
    (charges_burden_le habsorb.tidy u).trans (Nat.add_le_add_right habsorb.charges_le 1)
  have hdef : (a.merge u v).charges ≤ (a.join u v).charges + 1 := hmerged
  have hzero : charge (a.graph.moves.size + 2) .coalesced = 0 := by
    simp [charge, presence, reluctance]
  omega

/-! ### The waiting moves -/

/-- No more moves wait than there are. -/
theorem size_waiting_le (h : a.Queued) : a.waiting.size ≤ a.graph.moves.size := by
  have hsub : a.waiting.toList ⊆ List.range a.graph.moves.size := by
    intro index hindex
    rw [Std.ExtTreeSet.mem_toList, h.mem_waiting] at hindex
    rw [List.mem_range, ← h.size_eq]
    exact (Array.getElem?_eq_some_iff.mp hindex).1
  have hnodup : a.waiting.toList.Nodup := by
    refine (Std.ExtTreeSet.distinct_toList (t := a.waiting)).imp ?_
    intro i j hne hij
    exact hne (hij ▸ Std.ReflCmp.compare_self)
  have hle := (List.subperm_of_subset hnodup hsub).length_le
  rwa [Std.ExtTreeSet.length_toList, List.length_range] at hle

/-- A waiting move that is settled or put aside no longer waits. -/
theorem size_waiting_settleMove {index : Nat} {m : Move} {next : MoveStatus} (h : a.Queued)
    (hindex : index ∈ a.waiting) (hnext : next ≠ .worklist) :
    ((a.compressEnds m).placeMove index next).waiting.size + 1 = a.waiting.size := by
  have hwaiting : ((a.compressEnds m).placeMove index next).waiting = a.waiting.erase index := by
    have hprev : (a.compressEnds m).moveStatuses[index]? = some .worklist :=
      (h.mem_waiting index).mp hindex
    dsimp only [placeMove]
    rw [if_neg hnext, if_pos hprev]
    rfl
  rw [hwaiting, Std.ExtTreeSet.size_erase, if_pos (Std.ExtTreeSet.mem_iff_contains.mp hindex)]
  have hpos : a.waiting.size ≠ 0 := by
    intro hzero
    rw [Std.ExtTreeSet.eq_empty_iff_size_eq_zero.mpr hzero] at hindex
    simp at hindex
  omega

/-- Releasing a temporary wakes no move. -/
theorem waiting_release (a : Allocator) (t : Temp) : (a.release t).waiting = a.waiting := by
  unfold release
  split <;> rfl

/-- Giving up a move wakes none. -/
theorem size_waiting_freezeMove_le (a : Allocator) (root : Temp) (index : Nat) :
    (a.freezeMove root index).waiting.size ≤ a.waiting.size := by
  unfold freezeMove
  split
  · exact Nat.le_refl _
  · next m hm =>
    dsimp only
    rw [waiting_release]
    show (if a.moveStatuses[index]? = some .worklist then a.waiting.erase index
      else a.waiting).size ≤ _
    split
    · exact Std.ExtTreeSet.size_erase_le
    · exact Nat.le_refl _

/-- Giving up several moves wakes none. -/
theorem size_waiting_freezeMoves_le (a : Allocator) (t : Temp) :
    (a.freezeMoves t).waiting.size ≤ a.waiting.size := by
  have hfold : ∀ (root : Temp) (l : List Nat) (a : Allocator),
      (l.foldl (freezeMove root) a).waiting.size ≤ a.waiting.size := by
    intro root l
    induction l with
    | nil => exact fun a => Nat.le_refl _
    | cons index l ih =>
        exact fun a => (ih _).trans (size_waiting_freezeMove_le a root index)
  exact hfold _ _ (a.compress t)

/-! ### The potential -/

namespace Tidy

/-- Giving up the moves of a temporary brings it closer to leaving the graph. -/
theorem potential_freezeMoves (h : a.Tidy) (ht : a.status t = .freeze ∨ a.status t = .spill) :
    ((a.place t .simplify).freezeMoves t).potential < a.potential := by
  have hmem : t ∈ a.graph.nodes := by
    rcases ht with ht | ht <;> exact h.mem_nodes_of_status ht (by decide)
  have hstatus : a.status t ≠ .coalesced := by
    rcases ht with ht | ht <;> rw [ht] <;> decide
  have hplace := h.steps_place hmem .simplify hstatus (by decide)
  have hle := (hplace.tidy.eases_freezeMoves t).charges_le
  have hwaiting := size_waiting_freezeMoves_le (a.place t .simplify) t
  have hsame : (a.place t .simplify).waiting = a.waiting := rfl
  have hcharges := charges_place a hmem .simplify
  rw [potential_eq, potential_eq]
  rw [hsame] at hwaiting
  rcases ht with ht | ht
  · rw [ht] at hcharges
    simp only [charge, presence, reluctance] at hcharges
    omega
  · rw [ht] at hcharges
    simp only [charge, presence, reluctance] at hcharges
    omega

/-- A push pays for all moves that it may wake. -/
theorem potential_simplify (h : a.Tidy) (ht : a.status t = .simplify) :
    (a.simplify t).potential < a.potential := by
  have hmem := h.mem_nodes_of_status ht (by decide)
  have hpush := h.steps_place hmem .onStack (by rw [ht]; decide) (by decide)
  have hlose : Eases (a.place t .onStack) (a.simplify t) :=
    Eases.foldl (fun _ x h => h.eases_loseNeighbor x) hpush.tidy _
  -- However many moves wait afterwards, taking `t` out pays for them.
  have hwaiting := size_waiting_le hlose.tidy.queued
  rw [hlose.moves, hpush.moves] at hwaiting
  have hle := hlose.charges_le
  have hcharges := charges_place a hmem .onStack
  rw [ht] at hcharges
  simp only [charge, presence, reluctance] at hcharges
  rw [potential_eq, potential_eq]
  omega

/-- A merge pays for all moves that it may wake. -/
theorem potential_merge (h : a.Tidy) (hu : u ∈ a.graph.nodes) (hv : v ∈ a.graph.nodes)
    (hu' : a.status u ≠ .coalesced) (hv' : a.status v ≠ .coalesced) (hne : u ≠ v) :
    ((a.merge u v).release u).potential < a.potential := by
  have hmerge := h.steps_merge hu hv hu' hv' hne
  have hwaiting := size_waiting_le hmerge.tidy.queued
  rw [hmerge.moves] at hwaiting
  have hcharges := charges_merge_le h hu hv hu' hv' hne
  have hle := (hmerge.tidy.eases_release u).charges_le
  rw [potential_eq, potential_eq, waiting_release]
  omega

/-- Housekeeping that also settles a waiting move. -/
theorem potential_settleMove {index : Nat} {m : Move} {next : MoveStatus} (h : a.Queued)
    (hindex : index ∈ a.waiting) (hnext : next ≠ .worklist) (hab : Eases a b)
    (hwaiting : b.waiting = ((a.compressEnds m).placeMove index next).waiting) :
    b.potential < a.potential := by
  have hsize := size_waiting_settleMove (m := m) h hindex hnext
  have hle := hab.charges_le
  rw [potential_eq, potential_eq, hwaiting]
  omega

/-- Every action that is taken lowers the potential. -/
theorem potential_perform (h : a.Tidy) (haction : a.Enabled action) :
    (a.perform action).potential < a.potential := by
  cases haction with
  | simplify ht => exact h.potential_simplify ht
  | @join index m hindex hm heq =>
      have hmove := h.eases_settleMove hindex m .coalesced
      exact potential_settleMove h.queued hindex (by decide)
        (hmove.trans (hmove.tidy.eases_release _)) (waiting_release _ _)
  | @constrain index m hindex hm =>
      have hmove := h.eases_settleMove hindex m .constrained
      have hdst := hmove.trans (hmove.tidy.eases_release (a.representative m.dst))
      exact potential_settleMove h.queued hindex (by decide)
        (hdst.trans (hdst.tidy.eases_release _))
        ((waiting_release _ _).trans (waiting_release _ _))
  | @merge index m hindex hm hne hapart htest =>
      have hmove := h.eases_settleMove hindex m .coalesced
      obtain ⟨⟨hu, hu'⟩, hv, hv'⟩ := h.representative_ends hm
      -- The move is settled first, then its ends are merged. Both lower the potential.
      have hsettled := potential_settleMove h.queued hindex (by decide) hmove rfl
      exact (hmove.tidy.potential_merge (hmove.nodes ▸ hu) (hmove.nodes ▸ hv) hu' hv' hne).trans
        hsettled
  | @postpone index m hindex hm =>
      exact potential_settleMove h.queued hindex (by decide)
        (h.eases_settleMove hindex m .active) rfl
  | freeze ht => exact h.potential_freezeMoves (Or.inl ht)
  | spill ht hsimplify hfreeze hshield => exact h.potential_freezeMoves (Or.inr ht)

end Tidy

/-! ### Runs -/

/-- The actions lead from one state to another, each being the next one. -/
inductive Runs : Allocator → List Action → Allocator → Prop
  | done {a : Allocator} : Runs a [] a
  | step {a b : Allocator} {action : Action} {rest : List Action} (hnext : a.next? = some action)
      (hrest : Runs (a.perform action) rest b) : Runs a (action :: rest) b

/-- The actions that are taken lead from the first state to the last one. -/
theorem runs_drainWithin (fuel : Nat) (a : Allocator) :
    Runs a (a.drainWithin fuel).1 (a.drainWithin fuel).2 := by
  induction fuel generalizing a with
  | zero => exact .done
  | succ fuel ih =>
      unfold drainWithin
      cases hnext : a.next? with
      | none => exact .done
      | some action => exact .step hnext (ih _)

/-- So do they if there is fuel enough to take all of them. -/
theorem runs_drain (a : Allocator) : Runs a a.drain.1 a.drain.2 :=
  runs_drainWithin a.potential a

/-- What every action keeps, a run keeps. -/
theorem Runs.induct {p : Allocator → Prop} {actions : List Action} (h : Runs a actions b)
    (hstep : ∀ a action, p a → a.next? = some action → p (a.perform action)) (ha : p a) : p b := by
  induction h with
  | done => exact ha
  | step hnext _ ih => exact ih (hstep _ _ ha hnext)

namespace Tidy

/-- A run from a tidy state leads to a later state of the same allocation. -/
theorem steps_runs (h : a.Tidy) {actions : List Action} (hrun : Runs a actions b) : Steps a b := by
  induction hrun with
  | done => exact Steps.refl h
  | step hnext _ ih =>
      have hfirst := h.steps_perform (enabled_of_next? h hnext)
      exact hfirst.trans (ih hfirst.tidy)

/-- With as much fuel as the potential, the actions run out before the fuel does. -/
theorem next?_drainWithin (h : a.Tidy) {fuel : Nat} (hfuel : a.potential ≤ fuel) :
    (a.drainWithin fuel).2.next? = none := by
  induction fuel generalizing a with
  | zero =>
      -- Nothing is left of the potential, so no action can lower it.
      cases hnext : a.next? with
      | none => exact hnext
      | some action =>
          have hlt := h.potential_perform (enabled_of_next? h hnext)
          omega
  | succ fuel ih =>
      unfold drainWithin
      cases hnext : a.next? with
      | none => exact hnext
      | some action =>
          have haction := enabled_of_next? h hnext
          have hlt := h.potential_perform haction
          exact ih (h.steps_perform haction).tidy (by omega)

/-- A drained state has nothing left to do. -/
theorem next?_drain (h : a.Tidy) : a.drain.2.next? = none :=
  h.next?_drainWithin (Nat.le_refl _)

end Tidy

end Allocator

end MmixCodegen
