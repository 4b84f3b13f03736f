import MmixCodegen.Proofs.Allocator.Step

/-!
# `MmixCodegen.Proofs.Allocator.Linked`: pending moves and their ends

A move may be coalesced as long as it is pending. `Linked` says that what
represents the ends of a pending move knows about it, so it is neither taken out
of the graph nor about to be. Hence whenever two temporaries are merged, both of
them are still in the graph (`Linked.not_idle`).

`Linked.perform` says that every action keeps this. Two actions call a temporary
ready to be simplified before they give up its moves; `isMoveRelated_freezeMoves`
says that none of these is left when they are done.
-/

set_option autoImplicit false

namespace MmixCodegen

namespace Allocator

variable {a b : Allocator} {t u v x : Temp} {action : Action}

/-- A pending move is known to what represents its ends, and a temporary that can
be simplified or was taken out of the graph is in no pending move. -/
structure Linked (a : Allocator) : Prop where
  ends : ∀ (index : Nat) (m : Move), a.isPending index = true → a.graph.moves[index]? = some m →
    index ∈ a.graph.movesOf (a.representative m.dst) ∧
      index ∈ a.graph.movesOf (a.representative m.src)
  idle : ∀ t, a.status t = .simplify ∨ a.status t = .onStack → a.isMoveRelated t = false

namespace Linked

/-- What represents an end of a pending move is neither on its way out of the
graph nor out of it. -/
theorem not_idle (h : a.Linked) {index : Nat} {m : Move} (hpending : a.isPending index = true)
    (hm : a.graph.moves[index]? = some m)
    (ht : t = a.representative m.dst ∨ t = a.representative m.src) :
    ¬(a.status t = .simplify ∨ a.status t = .onStack) := by
  intro hs
  obtain ⟨hdst, hsrc⟩ := h.ends index m hpending hm
  have hmem : index ∈ a.graph.movesOf t := by
    rcases ht with rfl | rfl
    · exact hdst
    · exact hsrc
  have hidle := not_isMoveRelated_iff.mp (h.idle t hs) index hmem
  rw [hpending] at hidle
  cases hidle

/-- After housekeeping, a pending move is still known to what represents its ends. -/
theorem eases_ends (h : a.Linked) (hab : Eases a b) (index : Nat) (m : Move)
    (hpending : b.isPending index = true) (hm : b.graph.moves[index]? = some m) :
    index ∈ b.graph.movesOf (b.representative m.dst) ∧
      index ∈ b.graph.movesOf (b.representative m.src) := by
  rw [hab.representative, hab.representative, hab.movesOf, hab.movesOf]
  exact h.ends index m (hab.isPending index hpending) (hab.moves ▸ hm)

/-- Housekeeping keeps the invariant. -/
theorem eases (h : a.Linked) (hab : Eases a b) : b.Linked := by
  refine ⟨h.eases_ends hab, ?_⟩
  rintro t (ht | ht)
  · rcases hab.idle t ht with ha | hb
    · exact hab.isMoveRelated (h.idle t (Or.inl ha))
    · exact hb
  · refine hab.isMoveRelated (h.idle t (Or.inr ?_))
    rcases hab.status t with hs | ⟨-, hs⟩ | ⟨-, hs⟩
    · exact hs ▸ ht
    · rw [ht] at hs
      cases hs
    · rw [ht] at hs
      cases hs

/-- A change of status keeps the invariant, if what leaves the graph is in no pending move. -/
theorem place (h : a.Linked) {next : NodeStatus} (hprev : a.status t ≠ .coalesced)
    (hnext : next ≠ .coalesced)
    (hidle : next = .simplify ∨ next = .onStack → a.isMoveRelated t = false) :
    (a.place t next).Linked := by
  refine ⟨fun index m hpending hm => ?_, fun x hx => ?_⟩
  · rw [representative_place hprev hnext, representative_place hprev hnext]
    exact h.ends index m hpending hm
  · rw [status_place] at hx
    split at hx
    · next heq => exact heq ▸ hidle hx
    · exact h.idle x hx

/-- A temporary that becomes one of high degree does not leave the graph. -/
theorem burden (h : a.Linked) (t : Temp) : (a.burden t).Linked := by
  unfold Allocator.burden
  split
  · next hguard =>
    rw [Bool.and_eq_true, decide_eq_true_eq] at hguard
    refine h.place (by rw [hguard.2]; decide) (by decide) ?_
    rintro (h | h) <;> cases h
  · exact h

/-- The temporary that is merged into takes part in the moves of both. -/
theorem mem_movesOf_join {index : Nat} :
    index ∈ (a.join u v).graph.movesOf t ↔
      index ∈ a.graph.movesOf t ∨ (t = u ∧ index ∈ a.graph.movesOf v) := by
  show index ∈ (a.graph.moveIndex.insert u (a.graph.movesOf u ∪ a.graph.movesOf v)).getD t ∅ ↔ _
  rw [Std.ExtTreeMap.getD_insert]
  simp only [Std.LawfulEqCmp.compare_eq_iff_eq]
  by_cases htu : u = t
  · subst htu
    simp
  · rw [if_neg htu]
    simp [Ne.symm htu, Interference.movesOf]

/-- The moves of `v` become those of `u`. -/
theorem join (h : a.Linked) (hu : ¬(a.status u = .simplify ∨ a.status u = .onStack))
    (hrep : ∀ t, (a.join u v).representative t =
      if a.representative t = v then u else a.representative t) : (a.join u v).Linked := by
  have hmem : ∀ index t, index ∈ a.graph.movesOf (a.representative t) →
      index ∈ (a.join u v).graph.movesOf ((a.join u v).representative t) := by
    intro index t hindex
    rw [hrep, mem_movesOf_join]
    split
    · next heq => exact Or.inr ⟨rfl, heq ▸ hindex⟩
    · exact Or.inl hindex
  refine ⟨fun index m hpending hm => ?_, fun t ht => ?_⟩
  · obtain ⟨hdst, hsrc⟩ := h.ends index m hpending hm
    exact ⟨hmem index _ hdst, hmem index _ hsrc⟩
  · rw [Tidy.status_join] at ht
    split at ht
    · rcases ht with h | h <;> cases h
    -- Only `u` got moves, and it is not one of those that must not have any.
    · have htu : t ≠ u := fun heq => hu (heq ▸ ht)
      rw [not_isMoveRelated_iff]
      intro index hindex
      rw [mem_movesOf_join] at hindex
      rcases hindex with hindex | ⟨heq, -⟩
      · exact not_isMoveRelated_iff.mp (h.idle t ht) index hindex
      · exact absurd heq htu

end Linked

namespace Tidy

/-- A move that was given up is not pending. -/
theorem isPending_freezeMove (h : a.Tidy) (root : Temp) (index : Nat) :
    (a.freezeMove root index).isPending index = false := by
  by_contra hpending
  rw [Bool.not_eq_false] at hpending
  unfold freezeMove at hpending
  split at hpending
  · next hnone =>
    -- Beyond the last move nothing is pending.
    rw [Array.getElem?_eq_none_iff, ← h.queued.size_eq] at hnone
    simp [isPending, hnone] at hpending
  · next m hm =>
    have hplaced := h.eases_giveUp hm
    have hfrozen := ((hplaced _).tidy.eases_release _).isPending index hpending
    rw [isPending, moveStatuses_placeMove, if_pos rfl, Option.any_map] at hfrozen
    simp [MoveStatus.isPending] at hfrozen

/-- Of moves that were given up, or were not pending, none is pending. -/
theorem isPending_foldl_freezeMove (h : a.Tidy) (root : Temp) {l : List Nat} {index : Nat}
    (hindex : index ∈ l ∨ a.isPending index = false) :
    (l.foldl (freezeMove root) a).isPending index = false := by
  induction l generalizing a with
  | nil =>
      rcases hindex with hmem | hpending
      · cases hmem
      · exact hpending
  | cons first l ih =>
      have hfirst := h.eases_freezeMove root first
      refine ih hfirst.tidy ?_
      rcases hindex with hmem | hpending
      · rcases List.mem_cons.mp hmem with rfl | hmem
        · exact Or.inr (h.isPending_freezeMove root index)
        · exact Or.inl hmem
      · right
        -- What is given up never becomes pending again.
        by_contra hcon
        rw [Bool.not_eq_false] at hcon
        rw [hfirst.isPending index hcon] at hpending
        cases hpending

/-- After its moves were given up, a temporary is in no pending move. -/
theorem isMoveRelated_freezeMoves (h : a.Tidy) (t : Temp) :
    (a.freezeMoves t).isMoveRelated t = false := by
  rw [not_isMoveRelated_iff]
  intro index hindex
  rw [graph_freezeMoves] at hindex
  refine isPending_foldl_freezeMove (h.eases_compress t).tidy _ ?_
  by_cases hpending : a.isPending index = true
  · left
    rw [pendingMoves, List.mem_filter, Std.ExtTreeSet.mem_toList]
    exact ⟨hindex, hpending⟩
  · right
    rw [Bool.not_eq_true] at hpending
    exact hpending

/-- Giving up the moves of a temporary makes up for calling it ready to be
simplified too early. -/
theorem linked_freezeMoves (h : a.Tidy) (hlinked : a.Linked) (ht : t ∈ a.graph.nodes)
    (hstatus : a.status t ≠ .coalesced) : ((a.place t .simplify).freezeMoves t).Linked := by
  have hplace := h.steps_place ht .simplify hstatus (by decide)
  have hfreeze := hplace.tidy.eases_freezeMoves t
  refine ⟨fun index m hpending hm => ?_, fun x hx => ?_⟩
  · have hends := hlinked.ends index m (hfreeze.isPending index hpending) (hfreeze.moves ▸ hm)
    rw [hfreeze.representative, hfreeze.representative, hfreeze.movesOf, hfreeze.movesOf,
      representative_place hstatus (by decide), representative_place hstatus (by decide)]
    exact hends
  -- For `t` itself the moves are gone. Others were idle before, or were found idle
  -- when they lost a move.
  · by_cases hxt : x = t
    · exact hxt ▸ hplace.tidy.isMoveRelated_freezeMoves t
    · have hsame : (a.place t .simplify).status x = a.status x := by
        rw [status_place, if_neg (Ne.symm hxt)]
      have hrelated : a.status x = .simplify ∨ a.status x = .onStack →
          ((a.place t .simplify).freezeMoves t).isMoveRelated x = false :=
        fun hs => hfreeze.isMoveRelated (hlinked.idle x hs)
      rcases hx with hx | hx
      · rcases hfreeze.idle x hx with hs | hidle
        · exact hrelated (Or.inl (hsame ▸ hs))
        · exact hidle
      · rcases hfreeze.status x with hs | ⟨-, hs⟩ | ⟨-, hs⟩
        · exact hrelated (Or.inr (hsame ▸ hs ▸ hx))
        · rw [hx] at hs
          cases hs
        · rw [hx] at hs
          cases hs

end Tidy

namespace Linked

/-- A merge keeps the invariant, since the moves of both ends are put together. -/
theorem merge (h : a.Linked) (ha : a.Tidy) (hu : u ∈ a.graph.nodes) (hv : v ∈ a.graph.nodes)
    (hu' : a.status u ≠ .coalesced) (hv' : a.status v ≠ .coalesced) (hne : u ≠ v)
    (hidle : ¬(a.status u = .simplify ∨ a.status u = .onStack)) : (a.merge u v).Linked := by
  obtain ⟨hjoin, hrep⟩ := ha.steps_join hu hv hu' hv' hne
  have habsorb := Tidy.eases_absorb hjoin.tidy (hjoin.nodes ▸ hu)
  exact ((h.join hidle hrep).eases habsorb).burden u

/-- Every action that is taken keeps pending moves known to their ends. -/
theorem perform (h : a.Linked) (ha : a.Tidy) (haction : a.Enabled action) :
    (a.perform action).Linked := by
  cases haction with
  | @simplify t ht =>
      have hstatus : a.status t ≠ .coalesced := by rw [ht]; decide
      have hpush :=
        ha.steps_place (ha.mem_nodes_of_status ht (by decide)) .onStack hstatus (by decide)
      have hlinked : (a.place t .onStack).Linked :=
        h.place hstatus (by decide) fun _ => h.idle t (Or.inl ht)
      exact hlinked.eases (Eases.foldl (fun _ x h => h.eases_loseNeighbor x) hpush.tidy _)
  | @join index m hindex hm heq =>
      have hmove := ha.eases_settleMove hindex m .coalesced
      exact h.eases (hmove.trans (hmove.tidy.eases_release _))
  | @constrain index m hindex hm =>
      have hmove := ha.eases_settleMove hindex m .constrained
      have hdst := hmove.trans (hmove.tidy.eases_release (a.representative m.dst))
      exact h.eases (hdst.trans (hdst.tidy.eases_release _))
  | @merge index m hindex hm hne hapart htest =>
      have hmove := ha.eases_settleMove hindex m .coalesced
      obtain ⟨⟨hu, hu'⟩, hv, hv'⟩ := ha.representative_ends hm
      have hpending : a.isPending index = true :=
        isPending_iff.mpr (Or.inl ((ha.queued.mem_waiting index).mp hindex))
      -- Settling the move changed no status.
      have hmerge := (h.eases hmove).merge hmove.tidy (hmove.nodes ▸ hu) (hmove.nodes ▸ hv) hu' hv'
        hne (h.not_idle hpending hm (Or.inl rfl))
      have htidy := (hmove.tidy.steps_merge (hmove.nodes ▸ hu) (hmove.nodes ▸ hv) hu' hv' hne).tidy
      exact hmerge.eases (htidy.eases_release _)
  | postpone hindex hm => exact h.eases (ha.eases_settleMove hindex _ .active)
  | freeze ht =>
      exact ha.linked_freezeMoves h (ha.mem_nodes_of_status ht (by decide)) (by rw [ht]; decide)
  | spill ht hsimplify hfreeze hshield =>
      exact ha.linked_freezeMoves h (ha.mem_nodes_of_status ht (by decide)) (by rw [ht]; decide)

end Linked

end Allocator

end MmixCodegen
