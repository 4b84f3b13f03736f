import MmixCodegen.Allocator.Action
import MmixCodegen.Proofs.Allocator.Degree

/-!
# `MmixCodegen.Proofs.Allocator.Step`: the actions of an allocation

`Enabled` lists when each action is taken, and `enabled_of_next?` says that the
next action always is one of these. From here on no proof looks into the
decision again.

`Steps` says what every action keeps (`Tidy.steps_perform`). Above all the state
stays tidy, whatever it was carried over from.
-/

set_option autoImplicit false

namespace MmixCodegen

namespace Allocator

/-- When each action is taken. -/
inductive Enabled (a : Allocator) : Action → Prop
  | simplify {t : Temp} (ht : a.status t = .simplify) : Enabled a (.simplify t)
  | join {index : Nat} {m : Move} (hindex : index ∈ a.waiting) (hm : a.graph.moves[index]? = some m)
      (heq : a.representative m.dst = a.representative m.src) :
      Enabled a (.join index m (a.representative m.dst))
  | constrain {index : Nat} {m : Move} (hindex : index ∈ a.waiting)
      (hm : a.graph.moves[index]? = some m) :
      Enabled a (.constrain index m (a.representative m.dst) (a.representative m.src))
  | merge {index : Nat} {m : Move} (hindex : index ∈ a.waiting)
      (hm : a.graph.moves[index]? = some m)
      (hne : a.representative m.dst ≠ a.representative m.src)
      (hapart : a.graph.interferes (a.representative m.dst) (a.representative m.src) = false)
      (htest : a.canMerge (a.representative m.dst) (a.representative m.src) = true) :
      Enabled a (.merge index m (a.representative m.dst) (a.representative m.src))
  | postpone {index : Nat} {m : Move} (hindex : index ∈ a.waiting)
      (hm : a.graph.moves[index]? = some m) : Enabled a (.postpone index m)
  | freeze {t : Temp} (ht : a.status t = .freeze) : Enabled a (.freeze t)
  /-- All that is left has a high degree, and a shielded temporary is chosen only
  if there are no others. -/
  | spill {t : Temp} {forced : Bool} (ht : a.status t = .spill)
      (hsimplify : ∀ x, a.status x ≠ .simplify) (hfreeze : ∀ x, a.status x ≠ .freeze)
      (hshield : t ∈ a.shielded → ∀ x, a.status x = .spill → x ∈ a.shielded) :
      Enabled a (.spill t forced)

variable {a b : Allocator} {t u v x : Temp} {action : Action}

/-! ### The decision -/

/-- What is done about a waiting move is enabled. -/
theorem enabled_moveAction {index : Nat} {m : Move} (hindex : index ∈ a.waiting)
    (hm : a.graph.moves[index]? = some m) : a.Enabled (a.moveAction index m) := by
  unfold moveAction
  dsimp only
  split
  · next heq => exact .join hindex hm heq
  · next hne =>
    split
    · exact .constrain hindex hm
    · next hapart =>
      split
      · next htest => exact .merge hindex hm hne (by simpa using hapart) htest
      · exact .postpone hindex hm

/-- The heavier one of two temporaries is one of them. -/
theorem heavier_eq (a : Allocator) (t u : Temp) : a.heavier t u = t ∨ a.heavier t u = u := by
  unfold heavier
  split
  · exact Or.inr rfl
  · exact Or.inl rfl

/-- The heaviest member is a member. -/
theorem mem_of_heaviest? {l : List Temp} (h : a.heaviest? l = some t) : t ∈ l := by
  cases l with
  | nil => cases h
  | cons first l =>
      rw [heaviest?, Option.some.injEq] at h
      subst h
      induction l generalizing first with
      | nil => simp
      | cons next l ih =>
          rw [List.foldl_cons]
          rcases heavier_eq a first next with heq | heq
          · rw [heq]
            rcases List.mem_cons.mp (ih first) with hmem | hmem
            · rw [hmem]
              simp
            · simp [hmem]
          · rw [heq]
            exact List.mem_cons_of_mem _ (ih next)

/-- Only an empty list has no heaviest member. -/
theorem heaviest?_eq_none {l : List Temp} : a.heaviest? l = none ↔ l = [] := by
  cases l <;> simp [heaviest?]

/-- With nothing to simplify or to freeze, the choice of what to spill is enabled. -/
theorem enabled_spillAction? (h : a.Tidy) (hsimplify : ∀ x, a.status x ≠ .simplify)
    (hfreeze : ∀ x, a.status x ≠ .freeze) (hspill : a.spillAction? = some action) :
    a.Enabled action := by
  unfold spillAction? at hspill
  dsimp only at hspill
  split at hspill
  · next t ht =>
    cases hspill
    have hmem := mem_of_heaviest? ht
    rw [List.mem_filter, Std.ExtTreeSet.mem_toList, h.sorted.mem_spill] at hmem
    -- It was chosen from those that are not shielded.
    refine .spill hmem.1 hsimplify hfreeze fun hshield => ?_
    simp only [Bool.not_eq_true', Std.ExtTreeSet.mem_iff_contains] at hmem hshield
    rw [hshield] at hmem
    exact absurd hmem.2 (by decide)
  · next hnone =>
    obtain ⟨t, ht, rfl⟩ := Option.map_eq_some_iff.mp hspill
    have hmem := mem_of_heaviest? ht
    rw [Std.ExtTreeSet.mem_toList, h.sorted.mem_spill] at hmem
    refine .spill hmem hsimplify hfreeze fun _ x hx => ?_
    -- There was nothing else to choose from.
    rw [heaviest?_eq_none, List.filter_eq_nil_iff] at hnone
    have hshield := hnone x (Std.ExtTreeSet.mem_toList.mpr (h.sorted.mem_spill.mpr hx))
    rw [Std.ExtTreeSet.mem_iff_contains]
    simpa using hshield

/-- The least move is a member. -/
theorem mem_of_moveSet_least? {s : MoveSet} {index : Nat} (h : s.least? = some index) :
    index ∈ s := by
  have hmem := List.mem_of_head? h
  simpa using hmem

/-- The next action is one that is enabled. -/
theorem enabled_of_next? (h : a.Tidy) (hnext : a.next? = some action) : a.Enabled action := by
  unfold next? at hnext
  split at hnext
  · next t ht =>
    cases hnext
    exact .simplify (h.sorted.mem_simplify.mp (TempSet.mem_of_least? ht))
  · next hsimplify =>
    rw [TempSet.least?_eq_none] at hsimplify
    split at hnext
    · next index m hmove =>
      cases hnext
      obtain ⟨index, hindex, hmap⟩ := Option.bind_eq_some_iff.mp hmove
      obtain ⟨m, hm, heq⟩ := Option.map_eq_some_iff.mp hmap
      cases heq
      exact enabled_moveAction (mem_of_moveSet_least? hindex) hm
    · split at hnext
      · next t ht =>
        cases hnext
        exact .freeze (h.sorted.mem_freeze.mp (TempSet.mem_of_least? ht))
      · next hfreeze =>
        rw [TempSet.least?_eq_none] at hfreeze
        -- A spill is the last resort: the other worklists are empty.
        refine enabled_spillAction? h (fun x hx => ?_) (fun x hx => ?_) hnext
        · rw [← h.sorted.mem_simplify, hsimplify] at hx
          simp at hx
        · rw [← h.sorted.mem_freeze, hfreeze] at hx
          simp at hx

/-- If there is nothing left to do, then nothing is left that could be
simplified, frozen or spilled. -/
theorem status_of_next?_eq_none (h : a.Tidy) (hnext : a.next? = none) (t : Temp) :
    a.status t ≠ .simplify ∧ a.status t ≠ .freeze ∧ a.status t ≠ .spill := by
  unfold next? at hnext
  split at hnext
  · cases hnext
  · next hsimplify =>
    split at hnext
    · cases hnext
    · split at hnext
      · cases hnext
      · next hfreeze =>
        -- No choice was left, so the three worklists are empty.
        rw [TempSet.least?_eq_none] at hsimplify hfreeze
        have hspill : a.sets.spill.toList = [] := by
          unfold spillAction? at hnext
          dsimp only at hnext
          split at hnext
          · cases hnext
          · rw [Option.map_eq_none_iff, heaviest?_eq_none] at hnext
            exact hnext
        refine ⟨fun ht => ?_, fun ht => ?_, fun ht => ?_⟩
        · rw [← h.sorted.mem_simplify, hsimplify] at ht
          simp at ht
        · rw [← h.sorted.mem_freeze, hfreeze] at ht
          simp at ht
        · rw [← h.sorted.mem_spill, ← Std.ExtTreeSet.mem_toList, hspill] at ht
          simp at ht

/-! ### What every action keeps -/

/-- `b` is a later state of the same allocation. -/
structure Steps (a b : Allocator) : Prop where
  tidy : b.Tidy
  registers : b.registers = a.registers
  shielded : b.shielded = a.shielded
  nodes : b.graph.nodes = a.graph.nodes
  moves : b.graph.moves = a.graph.moves
  colors : b.colors = a.colors

/-- A tidy state is a later state of its own allocation. -/
theorem Steps.refl (h : a.Tidy) : Steps a a :=
  ⟨h, rfl, rfl, rfl, rfl, rfl⟩

/-- What is later than a later state is later. -/
theorem Steps.trans {c : Allocator} (h : Steps a b) (h' : Steps b c) : Steps a c :=
  ⟨h'.tidy, h'.registers.trans h.registers, h'.shielded.trans h.shielded,
    h'.nodes.trans h.nodes, h'.moves.trans h.moves, h'.colors.trans h.colors⟩

/-- Housekeeping leads to a later state. -/
theorem Eases.steps (h : Eases a b) : Steps a b :=
  ⟨h.tidy, h.registers, h.shielded, h.nodes, h.moves, h.colors⟩

namespace Tidy

/-- A change of status, unless it merges or separates, leads to a later state. -/
theorem steps_place (h : a.Tidy) (ht : t ∈ a.graph.nodes) (next : NodeStatus)
    (hprev : a.status t ≠ .coalesced) (hnext : next ≠ .coalesced) : Steps a (a.place t next) :=
  ⟨h.place ht hprev hnext, rfl, rfl, rfl, rfl, rfl⟩

/-- What is sorted is a node. -/
theorem mem_nodes_of_status (h : a.Tidy) {s : NodeStatus} (ht : a.status t = s)
    (hs : s ≠ .initial) : t ∈ a.graph.nodes :=
  h.sorted.mem_nodes t (ht ▸ hs)

/-- What is adjacent is a node. -/
theorem mem_nodes_of_mem_adjacent (h : a.Tidy) (hx : x ∈ a.adjacent t) : x ∈ a.graph.nodes := by
  rw [adjacent, List.mem_filter, Std.ExtTreeSet.mem_toList] at hx
  exact h.closed.neighbors_subset t x hx.1

/-- A waiting move has a status. -/
theorem isSome_of_mem_waiting (h : a.Tidy) {index : Nat} (hindex : index ∈ a.waiting) :
    a.moveStatuses[index]?.isSome := by
  rw [h.queued.mem_waiting] at hindex
  rw [hindex]
  rfl

/-- The ends of a move are represented by nodes that are not merged. -/
theorem representative_ends (h : a.Tidy) {index : Nat} {m : Move}
    (hm : a.graph.moves[index]? = some m) :
    (a.representative m.dst ∈ a.graph.nodes ∧ a.status (a.representative m.dst) ≠ .coalesced) ∧
      a.representative m.src ∈ a.graph.nodes ∧ a.status (a.representative m.src) ≠ .coalesced := by
  obtain ⟨hdst, hsrc⟩ := h.closed.ends_mem index m hm
  exact ⟨⟨h.representative_mem _ hdst, h.aliased.status_representative _⟩,
    h.representative_mem _ hsrc, h.aliased.status_representative _⟩

/-- Settling a waiting move, as the first part of four actions. -/
theorem eases_settleMove (h : a.Tidy) {index : Nat} (hindex : index ∈ a.waiting) (m : Move)
    (next : MoveStatus) : Eases a ((a.compressEnds m).placeMove index next) := by
  have hends := h.eases_compressEnds m
  have hsome : (a.compressEnds m).moveStatuses[index]?.isSome := h.isSome_of_mem_waiting hindex
  refine hends.trans (hends.tidy.eases_placeMove next hsome fun _ => ?_)
  have hwaiting : (a.compressEnds m).moveStatuses[index]? = some .worklist :=
    (h.queued.mem_waiting index).mp hindex
  exact isPending_iff.mpr (Or.inl hwaiting)

section Merge

/-- Joining two temporaries changes the status of the one that goes. -/
theorem status_join (a : Allocator) (u v t : Temp) :
    (a.join u v).status t = if v = t then .coalesced else a.status t :=
  status_place a v t .coalesced

/-- Joining two temporaries leads to a later state, in which what was represented by `v` is
represented by `u`. -/
theorem steps_join (h : a.Tidy) (hu : u ∈ a.graph.nodes) (hv : v ∈ a.graph.nodes)
    (hu' : a.status u ≠ .coalesced) (hv' : a.status v ≠ .coalesced) (hne : u ≠ v) :
    Steps a (a.join u v) ∧
      ∀ t, (a.join u v).representative t =
        if a.representative t = v then u else a.representative t := by
  have haliases : (a.join u v).aliases = a.aliases.insert v u := rfl
  have hstatus : ∀ t, (a.join u v).status t = .coalesced ↔ t = v ∨ a.status t = .coalesced := by
    intro t
    rw [status_join]
    split
    · next heq => simp [heq]
    · next heq => simp [Ne.symm heq]
  have hrep := h.aliased.representative_join hu' hv' hne haliases hstatus
  refine ⟨⟨⟨h.sound.of_eq rfl rfl, ⟨h.closed.neighbors_subset, h.closed.ends_mem⟩,
    (h.sorted.place hv .coalesced).congr rfl rfl rfl rfl,
    h.aliased.join hu' hv' hne haliases hstatus, h.queued.congr rfl rfl rfl rfl, ?_⟩,
    rfl, rfl, rfl, rfl, rfl⟩, hrep⟩
  intro t ht
  rw [hrep]
  split
  · exact hu
  · exact h.representative_mem t ht

/-- Sorting a temporary that became one of high degree leads to a later state. -/
theorem steps_burden (h : a.Tidy) (t : Temp) : Steps a (a.burden t) := by
  unfold burden
  split
  · next hguard =>
    rw [Bool.and_eq_true, decide_eq_true_eq] at hguard
    have hmem := h.mem_nodes_of_status hguard.2 (by decide)
    exact h.steps_place hmem .spill (by rw [hguard.2]; decide) (by decide)
  · exact Steps.refl h

/-- Absorbing `v` is a join, followed by housekeeping. -/
theorem eases_absorb (h : (a.join u v).Tidy) (hu : u ∈ (a.join u v).graph.nodes) :
    Eases (a.join u v) (a.absorb u v) := by
  have hwoken := h.eases_wakeMoves v
  refine hwoken.trans (hwoken.tidy.eases_foldl_takeOver (hwoken.nodes ▸ hu) fun n hn => ?_)
  exact hwoken.tidy.mem_nodes_of_mem_adjacent hn

/-- A merge leads to a later state. -/
theorem steps_merge (h : a.Tidy) (hu : u ∈ a.graph.nodes) (hv : v ∈ a.graph.nodes)
    (hu' : a.status u ≠ .coalesced) (hv' : a.status v ≠ .coalesced) (hne : u ≠ v) :
    Steps a (a.merge u v) := by
  have hjoin := (h.steps_join hu hv hu' hv' hne).1
  have habsorb := Tidy.eases_absorb hjoin.tidy (hjoin.nodes ▸ hu)
  exact (hjoin.trans habsorb.steps).trans (habsorb.tidy.steps_burden u)

end Merge

/-- Every action that is taken keeps the state tidy. -/
theorem steps_perform (h : a.Tidy) (haction : a.Enabled action) : Steps a (a.perform action) := by
  cases haction with
  | simplify ht =>
      have hpush := h.steps_place (h.mem_nodes_of_status ht (by decide)) .onStack
        (by rw [ht]; decide) (by decide)
      exact hpush.trans (Eases.foldl (fun _ x h => h.eases_loseNeighbor x) hpush.tidy _).steps
  | @join index m hindex hm heq =>
      have hmove := h.eases_settleMove hindex m .coalesced
      exact (hmove.trans (hmove.tidy.eases_release _)).steps
  | @constrain index m hindex hm =>
      have hmove := h.eases_settleMove hindex m .constrained
      have hdst := hmove.trans (hmove.tidy.eases_release (a.representative m.dst))
      exact (hdst.trans (hdst.tidy.eases_release _)).steps
  | @merge index m hindex hm hne hapart htest =>
      have hmove := h.eases_settleMove hindex m .coalesced
      obtain ⟨⟨hu, -⟩, hv, -⟩ := h.representative_ends hm
      -- Settling the move shortens chains, but their ends stay the same.
      have hu' := hmove.tidy.aliased.status_representative m.dst
      have hv' := hmove.tidy.aliased.status_representative m.src
      rw [hmove.representative] at hu' hv'
      have hmerge := hmove.tidy.steps_merge (hmove.nodes ▸ hu) (hmove.nodes ▸ hv) hu' hv' hne
      exact (hmove.steps.trans hmerge).trans (hmerge.tidy.eases_release _).steps
  | postpone hindex hm => exact (h.eases_settleMove hindex _ .active).steps
  | freeze ht =>
      have hplace := h.steps_place (h.mem_nodes_of_status ht (by decide)) .simplify
        (by rw [ht]; decide) (by decide)
      exact hplace.trans (hplace.tidy.eases_freezeMoves _).steps
  | spill ht hsimplify hfreeze hshield =>
      have hplace := h.steps_place (h.mem_nodes_of_status ht (by decide)) .simplify
        (by rw [ht]; decide) (by decide)
      exact hplace.trans (hplace.tidy.eases_freezeMoves _).steps

end Tidy

end Allocator

end MmixCodegen
