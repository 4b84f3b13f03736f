import MmixCodegen.Proofs.Allocator.Drain
import MmixCodegen.Proofs.Allocator.View
import MmixCodegen.Proofs.Core

/-!
# `MmixCodegen.Proofs.Allocator.Underway`: what holds while a graph is taken apart

`Underway g a` collects what is true of every state `a` of an allocation that
started from the graph `g` alone: the elimination is valid, degrees count the
neighbours that are present and statuses fit them, dense sets were dense in `g`,
and what was pushed sees few others or was forced.

Every action keeps this (`Underway.perform`), so a run keeps it
(`Underway.runs`). When there is nothing left to do, all temporaries were pushed
or merged (`Underway.finished`).
-/

set_option autoImplicit false

namespace MmixCodegen

/-- The statuses that temporaries have before registers are given out. -/
def NodeStatus.InPlay (s : NodeStatus) : Prop :=
  s = .simplify ∨ s = .freeze ∨ s = .spill ∨ s = .onStack ∨ s = .coalesced

/-- Coming closer to being simplified does not put a temporary out of play. -/
theorem NodeStatus.Eases.inPlay {s s' : NodeStatus} (h : s.Eases s') (hs : s.InPlay) :
    s'.InPlay := by
  rcases h with rfl | ⟨-, rfl⟩ | ⟨-, rfl⟩
  · exact hs
  · exact Or.inr (Or.inl rfl)
  · exact Or.inl rfl

namespace Allocator

variable {a b : Allocator} {g : Interference} {t u v x : Temp} {index : Nat} {m : Move}
  {action : Action}

/-- The temporary was chosen from a dense set of `g`. -/
def ForcedIn (g : Interference) (a : Allocator) (t : Temp) : Prop :=
  a.view.Forced g.nbrs a.registers g.nodes.toFinset a.shielded.toFinset t

/-- What is true of every state of an allocation that started from `g`. -/
structure Underway (g : Interference) (a : Allocator) : Prop where
  tidy : a.Tidy
  linked : a.Linked
  nodes : a.graph.nodes = g.nodes
  inPlay : ∀ t ∈ a.graph.nodes, (a.status t).InPlay
  edges : ∀ t x, x ∈ g.neighbors t → x ∈ a.graph.neighbors t
  valid : a.view.Valid
  /-- The degree of a temporary that is present counts its present neighbours. -/
  counted : ∀ t, a.view.Present t → a.graph.degree t = (a.view.live t).card
  graded : ∀ t, a.Graded (ForcedIn g a) t
  untouched : a.view.Untouched g.nbrs a.registers
  bounded : a.view.Bounded g.nbrs a.registers g.nodes.toFinset a.shielded.toFinset

/-- The temporaries that were neither pushed nor merged. -/
def remaining (a : Allocator) : Finset Temp :=
  a.graph.nodes.toFinset.filter a.view.Present

/-- What remains are the nodes that are present in the view. -/
theorem mem_remaining : x ∈ a.remaining ↔ x ∈ a.graph.nodes ∧ a.view.Present x := by
  rw [remaining, Finset.mem_filter, TempSet.mem_toFinset]

namespace Underway

/-! ### Pending moves -/

/-- What represents an end of a pending move is still in play. -/
theorem status_of_isPending (h : Underway g a) (hpending : a.isPending index = true)
    (hm : a.graph.moves[index]? = some m)
    (ht : t = a.representative m.dst ∨ t = a.representative m.src) :
    a.status t = .freeze ∨ a.status t = .spill := by
  have hidle := h.linked.not_idle hpending hm ht
  obtain ⟨⟨hdst, hdst'⟩, hsrc, hsrc'⟩ := h.tidy.representative_ends hm
  have hmem : t ∈ a.graph.nodes ∧ a.status t ≠ .coalesced := by
    rcases ht with rfl | rfl
    · exact ⟨hdst, hdst'⟩
    · exact ⟨hsrc, hsrc'⟩
  rcases h.inPlay t hmem.1 with hs | hs | hs | hs | hs
  · exact absurd (Or.inl hs) hidle
  · exact Or.inl hs
  · exact Or.inr hs
  · exact absurd (Or.inr hs) hidle
  · exact absurd hs hmem.2

/-- There is a move behind each number that is pending. -/
theorem exists_move_of_isPending (h : Underway g a) (hpending : a.isPending index = true) :
    ∃ m, a.graph.moves[index]? = some m := by
  have hlt : index < a.graph.moves.size := by
    rw [← h.tidy.queued.size_eq]
    rcases isPending_iff.mp hpending with hs | hs <;>
      exact (Array.getElem?_eq_some_iff.mp hs).1
  exact ⟨_, Array.getElem?_eq_getElem hlt⟩

/-! ### Housekeeping -/

/-- An action that leaves the graph and what was taken out of it alone. -/
theorem of_view (h : Underway g a) (hab : Steps a b) (hlinked : b.Linked)
    (hgraph : b.graph = a.graph) (hview : b.view = a.view)
    (hinPlay : ∀ t ∈ a.graph.nodes, (b.status t).InPlay)
    (hgraded : ∀ t, b.Graded (ForcedIn g a) t) : Underway g b := by
  have hforced : ForcedIn g b = ForcedIn g a := by
    unfold ForcedIn
    rw [hview, hab.registers, hab.shielded]
  refine ⟨hab.tidy, hlinked, hab.nodes.trans h.nodes, hab.nodes ▸ hinPlay, hgraph ▸ h.edges,
    hview ▸ h.valid, ?_, hforced ▸ hgraded, ?_, ?_⟩
  · rw [hview, hgraph]
    exact h.counted
  · rw [hview, hab.registers]
    exact h.untouched
  · rw [hview, hab.registers, hab.shielded]
    exact h.bounded

/-- Housekeeping that keeps the graph and leaves the statuses fitting keeps everything. -/
theorem of_eases (h : Underway g a) (hab : Eases a b) (hgraph : b.graph = a.graph)
    (hgraded : ∀ t, b.Graded (ForcedIn g a) t) : Underway g b :=
  h.of_view hab.steps (h.linked.eases hab) hgraph (hab.view fun t => by rw [hgraph])
    (fun t ht => (hab.status t).inPlay (h.inPlay t ht)) hgraded

/-- Releasing a temporary keeps the invariant. -/
theorem release (h : Underway g a) (t : Temp) : Underway g (a.release t) :=
  h.of_eases (h.tidy.eases_release t) (graph_release a t) fun x => (h.graded x).release t

/-- Settling a waiting move keeps the invariant. -/
theorem settleMove (h : Underway g a) {index : Nat} (hindex : index ∈ a.waiting) (m : Move)
    (next : MoveStatus) : Underway g ((a.compressEnds m).placeMove index next) :=
  h.of_eases (h.tidy.eases_settleMove hindex m next) rfl fun x => (h.graded x).congr rfl rfl rfl

/-- Giving up the moves of a temporary that has a low degree or was forced. -/
theorem freezeMoves (h : Underway g a) (ht : a.status t = .freeze ∨ a.status t = .spill)
    (hlow : a.graph.degree t < a.registers ∨ ForcedIn g a t) :
    Underway g ((a.place t .simplify).freezeMoves t) := by
  have hmem : t ∈ a.graph.nodes := by
    rcases ht with ht | ht <;> exact h.tidy.mem_nodes_of_status ht (by decide)
  have hstatus : a.status t ≠ .coalesced := by
    rcases ht with ht | ht <;> rw [ht] <;> decide
  have hplace := h.tidy.steps_place hmem .simplify hstatus (by decide)
  have hfreeze := hplace.tidy.eases_freezeMoves t
  refine h.of_view (hplace.trans hfreeze.steps) (h.tidy.linked_freezeMoves h.linked hmem hstatus)
    (graph_freezeMoves _ t) (h.tidy.view_freezeMoves ht) (fun x hx => ?_) (fun x => ?_)
  · refine (hfreeze.status x).inPlay ?_
    rw [status_place]
    split
    · exact Or.inl rfl
    · exact h.inPlay x hx
  -- Only `t` has a new status, and `hlow` is why it may have it.
  · refine Graded.freezeMoves ?_ t
    by_cases hxt : x = t
    · subst hxt
      have hnew : (a.place x .simplify).status x = .simplify := by rw [status_place, if_pos rfl]
      refine ⟨fun hs => ?_, fun hs => ?_, fun _ => hlow⟩
      · rw [hnew] at hs
        cases hs
      · rw [hnew] at hs
        cases hs
    · refine (h.graded x).congr rfl ?_ rfl
      rw [status_place, if_neg (Ne.symm hxt)]

/-! ### Pushing -/

/-- Taking a temporary out lowers the degrees of the neighbours that are left by one. -/
theorem degree_simplify (h : a.Tidy) (t x : Temp) :
    (a.simplify t).graph.degree x =
      if x ∈ a.view.live t then a.graph.degree x - 1 else a.graph.degree x := by
  -- `t` is no neighbour of itself, so its neighbours are all still there.
  have hsame : (a.place t .onStack).adjacent t = a.adjacent t := by
    refine List.filter_congr fun y hy => ?_
    have hne : t ≠ y := by
      rintro rfl
      exact h.sound.irrefl t (Std.ExtTreeSet.mem_toList.mp hy)
    rw [Bool.eq_iff_iff, isPresent_iff, isPresent_iff, status_place, if_neg hne]
  unfold simplify
  dsimp only
  rw [degree_foldl_loseNeighbor _ (Tidy.nodup_adjacent _ _), hsame]
  simp only [h.mem_live_view]
  rfl

/-- Taking a temporary out of the graph keeps the invariant. -/
theorem simplify (h : Underway g a) (ht : a.status t = .simplify) : Underway g (a.simplify t) := by
  have hsteps := h.tidy.steps_perform (.simplify ht)
  have heases := h.tidy.eases_simplify ht
  have hview := h.tidy.view_simplify ht
  have hpresent : a.view.Present t := by
    rw [h.tidy.present_view, isPresent_iff, ht]
    decide
  have hlow : (a.view.live t).card < a.registers ∨ ForcedIn g a t := by
    rw [← h.counted t hpresent]
    exact (h.graded t).simplify ht
  have hregisters : (a.simplify t).registers = a.registers := hsteps.registers
  have hshielded : (a.simplify t).shielded = a.shielded := hsteps.shielded
  have hforced : ForcedIn g (a.simplify t) = ForcedIn g a := by
    unfold ForcedIn
    rw [hview, hregisters, hshielded]
    rfl
  refine ⟨hsteps.tidy, h.linked.perform h.tidy (.simplify ht), hsteps.nodes.trans h.nodes, ?_, ?_,
    hview ▸ h.valid.push hpresent, ?_, ?_, ?_, ?_⟩
  · intro x hx
    refine (heases.status x).inPlay ?_
    rw [status_place]
    split
    · exact Or.inr (Or.inr (Or.inr (Or.inl rfl)))
    · exact h.inPlay x (hsteps.nodes ▸ hx)
  · intro y x hx
    have hnbrs : (a.simplify t).graph.nbrs = a.graph.nbrs := congrArg Elimination.nbrs hview
    rw [← Interference.mem_nbrs, hnbrs, Interference.mem_nbrs]
    exact h.edges y x hx
  · intro x hx
    rw [hview, Elimination.present_push] at hx
    rw [hview, Elimination.live_push, degree_simplify h.tidy, h.counted x hx.1]
    -- `x` loses `t` exactly if they are neighbours.
    have hmem : x ∈ a.view.live t ↔ t ∈ a.view.live x := by
      rw [Elimination.mem_live, Elimination.mem_live]
      exact ⟨fun hx => ⟨h.valid.symm _ _ hx.1, hpresent⟩, fun ht => ⟨h.valid.symm _ _ ht.1, hx.1⟩⟩
    split
    · next hlive => rw [Finset.card_erase_of_mem (hmem.mp hlive)]
    · next hlive => rw [Finset.erase_eq_of_notMem (fun hcon => hlive (hmem.mpr hcon))]
  · intro x
    rw [hforced]
    have hpush := h.tidy.steps_place (h.tidy.mem_nodes_of_status ht (by decide)) .onStack
      (by rw [ht]; decide) (by decide)
    refine Graded.foldl_loseNeighbor hpush.tidy ?_ _
    by_cases hxt : x = t
    · -- A temporary on the stack has no degree to speak of.
      subst hxt
      have hnew : (a.place x .onStack).status x = .onStack := by rw [status_place, if_pos rfl]
      refine ⟨fun hs => ?_, fun hs => ?_, fun hs => ?_⟩ <;> rw [hnew] at hs <;> cases hs
    · refine (h.graded x).congr rfl ?_ rfl
      rw [status_place, if_neg (Ne.symm hxt)]
  · rw [hview, hregisters]
    exact h.untouched.push
  · rw [hview, hregisters, hshielded]
    exact h.bounded.push h.valid hpresent hlow

/-! ### Merging -/

/-- The test that the allocator makes is the one that keeps dense sets untouched. -/
theorem briggs (h : Underway g a) (htest : a.canMerge u v = true) :
    a.view.Briggs a.registers u v := by
  -- The allocator looks at degrees, which count the neighbours that are left.
  have heq : ((a.view.live u ∪ a.view.live v).filter fun n => a.registers ≤ (a.view.live n).card)
      = ((TempSet.ofList (a.adjacent u ++ a.adjacent v)).toList.filter
        a.isSignificant).toFinset := by
    ext n
    rw [Finset.mem_filter, Finset.mem_union, List.mem_toFinset, List.mem_filter,
      Std.ExtTreeSet.mem_toList, TempSet.mem_ofList, List.mem_append, h.tidy.mem_live_view,
      h.tidy.mem_live_view]
    refine and_congr_right fun hn => ?_
    have hpresent : a.view.Present n := by
      rcases hn with hn | hn <;> exact (Elimination.mem_live.mp (h.tidy.mem_live_view.mpr hn)).2
    rw [isSignificant, decide_eq_true_eq, h.counted n hpresent]
  unfold canMerge at htest
  rw [decide_eq_true_eq] at htest
  unfold Elimination.Briggs
  rw [heq]
  exact lt_of_le_of_lt (List.toFinset_card_le _) htest

/-- A merge raises the degree of `u` by its new neighbours, and lowers that of the neighbours
that both had. -/
theorem degree_merge (h : a.Tidy) (hm : a.view.Mergeable u v) (x : Temp) :
    (a.merge u v).graph.degree x =
      if x = u then a.graph.degree u + (a.view.live v \ a.view.live u).card
      else if x ∈ a.view.live v ∧ x ∈ a.graph.neighbors u then a.graph.degree x - 1
      else a.graph.degree x := by
  -- New edges of `u` lead to the neighbours of `v` that it does not have yet.
  have hnew : ((((a.join u v).wakeMoves v).adjacent v).filter
        fun n => n ∉ ((a.join u v).wakeMoves v).graph.neighbors u).length
      = (a.view.live v \ a.view.live u).card := by
    rw [← List.toFinset_card_of_nodup ((Tidy.nodup_adjacent _ _).filter _)]
    congr 1
    ext n
    rw [List.mem_toFinset, List.mem_filter, h.mem_adjacent_join, Finset.mem_sdiff, graph_wakeMoves]
    refine and_congr_right fun hn => ?_
    rw [Elimination.mem_live (t := u), decide_eq_true_eq, not_and]
    have hpresent := (Elimination.mem_live.mp hn).2
    exact ⟨fun hout hmem => absurd (Interference.mem_nbrs.mp hmem) hout,
      fun himp hmem => himp (Interference.mem_nbrs.mpr hmem) hpresent⟩
  rw [Allocator.merge, graph_burden, absorb, degree_foldl_takeOver h.sound_join
    (Tidy.nodup_adjacent _ _) (h.notMem_adjacent_join hm), hnew]
  simp only [h.mem_adjacent_join, graph_wakeMoves]
  rfl

/-- The temporary that is merged into keeps its status while it takes over neighbours. -/
theorem status_absorb (h : a.Tidy) (hm : a.view.Mergeable u v) :
    (a.absorb u v).status u = a.status u := by
  rw [absorb, status_foldl_takeOver _ (h.notMem_adjacent_join hm), status_wakeMoves,
    Tidy.status_join, if_neg (Ne.symm hm.ne)]

/-- After a merge, degrees count the neighbours that are left. -/
theorem counted_merge (h : Underway g a) (hm : a.view.Mergeable u v)
    (hx : (a.view.merge u v).Present x) :
    (a.merge u v).graph.degree x = ((a.view.merge u v).live x).card := by
  have hpresent := ((Elimination.present_merge hm).mp hx).1
  rw [degree_merge h.tidy hm]
  by_cases hxu : x = u
  -- `u` has the neighbours of both, those that they share counted once.
  · subst hxu
    rw [if_pos rfl, h.valid.live_merge_self hm, h.counted x hpresent, Finset.card_union]
    have hle := Finset.card_inter_add_card_sdiff (a.view.live v) (a.view.live x)
    rw [Finset.inter_comm] at hle
    omega
  · rw [if_neg hxu]
    by_cases hlive : x ∈ a.view.live v
    · -- `x` loses `v`. Whether it gains `u` depends on whether it had it already.
      have hv : v ∈ a.view.live x :=
        Elimination.mem_live.mpr ⟨h.valid.symm _ _ (Elimination.mem_live.mp hlive).1, hm.right⟩
      have hedge : x ∈ a.graph.neighbors u ↔ u ∈ (a.view.live x).erase v := by
        rw [Finset.mem_erase, Elimination.mem_live, ← Interference.mem_nbrs]
        exact ⟨fun hmem => ⟨hm.ne, h.valid.symm _ _ hmem, hm.left⟩,
          fun hmem => h.valid.symm _ _ hmem.2.1⟩
      have herase := Finset.card_erase_of_mem hv
      have hpos := Finset.card_pos.mpr ⟨v, hv⟩
      rw [Elimination.live_merge_of_mem hm hlive, h.counted x hpresent]
      by_cases hmem : x ∈ a.graph.neighbors u
      · rw [if_pos ⟨hlive, hmem⟩, Finset.insert_eq_of_mem (hedge.mp hmem), herase]
      · rw [if_neg fun hcon => hmem hcon.2,
          Finset.card_insert_of_notMem fun hcon => hmem (hedge.mpr hcon), herase]
        omega
    · rw [if_neg fun hcon => hlive hcon.1, h.valid.live_merge_of_not_mem hm hxu hlive hpresent,
        h.counted x hpresent]

/-- After a merge, statuses fit the degrees. -/
theorem graded_merge (h : Underway g a) (hu : u ∈ a.graph.nodes) (hv : v ∈ a.graph.nodes)
    (hm : a.view.Mergeable u v) (hstatus : a.status u = .freeze ∨ a.status u = .spill) (x : Temp) :
    (a.merge u v).Graded (a.view.merge u v |>.Forced g.nbrs a.registers g.nodes.toFinset
      a.shielded.toFinset) x := by
  have hu' := isPresent_iff.mp (h.tidy.present_view.mp hm.left)
  have hv' := isPresent_iff.mp (h.tidy.present_view.mp hm.right)
  obtain ⟨hjoin, -⟩ := h.tidy.steps_join hu hv hu'.2 hv'.2 hm.ne
  have hwoken := hjoin.tidy.eases_wakeMoves v
  have habsorb := Tidy.eases_absorb hjoin.tidy (hjoin.nodes ▸ hu)
  by_cases hxu : x = u
  · subst hxu
    have hsame := status_absorb h.tidy hm
    refine Graded.burden (hsame.symm ▸ hstatus) fun hspill => ?_
    -- Its degree has not become lower.
    have hdegree := degree_merge h.tidy hm x
    rw [if_pos rfl] at hdegree
    have hle := (h.graded x).spill (hsame ▸ hspill)
    rw [Allocator.merge, graph_burden] at hdegree
    rw [habsorb.registers, hjoin.registers, hdegree]
    omega
  -- The stages of a merge one after the other: `v` is joined to `u`, its moves wake
  -- up, its neighbours are taken over, and `u` is sorted again.
  · have hjoined : (a.join u v).Graded (ForcedIn g a) x := by
      by_cases hxv : x = v
      · subst hxv
        have hnew : (a.join u x).status x = .coalesced := by rw [Tidy.status_join, if_pos rfl]
        refine ⟨fun hs => ?_, fun hs => ?_, fun hs => ?_⟩ <;> rw [hnew] at hs <;> cases hs
      · refine (h.graded x).congr rfl ?_ rfl
        rw [Tidy.status_join, if_neg (Ne.symm hxv)]
    have hgraded : ((a.join u v).wakeMoves v).Graded (ForcedIn g a) x :=
      hjoined.congr hwoken.registers (status_wakeMoves _ _ _) (by rw [graph_wakeMoves])
    have habsorbed : (a.absorb u v).Graded (ForcedIn g a) x := by
      refine Graded.foldl_takeOver hwoken.tidy hgraded (by rw [hwoken.nodes, hjoin.nodes]; exact hu)
        (fun n hn => ⟨hwoken.tidy.mem_nodes_of_mem_adjacent hn, ?_⟩) hxu
      rintro rfl
      exact h.tidy.notMem_adjacent_join hm hn
    have hmerged : (a.merge u v).Graded (ForcedIn g a) x :=
      habsorbed.congr (habsorb.tidy.steps_burden u).registers (status_burden_of_ne _ hxu)
        (by rw [Allocator.merge, graph_burden])
    exact hmerged.mono fun hforced => hforced.merge hxu

/-- A merge that passes the test keeps the invariant. -/
theorem merge (h : Underway g a) (hu : u ∈ a.graph.nodes) (hv : v ∈ a.graph.nodes)
    (hm : a.view.Mergeable u v) (htest : a.view.Briggs a.registers u v)
    (hstatus : a.status u = .freeze ∨ a.status u = .spill) : Underway g (a.merge u v) := by
  have hu' := isPresent_iff.mp (h.tidy.present_view.mp hm.left)
  have hv' := isPresent_iff.mp (h.tidy.present_view.mp hm.right)
  have hsteps := h.tidy.steps_merge hu hv hu'.2 hv'.2 hm.ne
  obtain ⟨hjoin, -⟩ := h.tidy.steps_join hu hv hu'.2 hv'.2 hm.ne
  have habsorb := Tidy.eases_absorb hjoin.tidy (hjoin.nodes ▸ hu)
  have hview := h.tidy.view_merge hu hv hm
  have hidle : ¬(a.status u = .simplify ∨ a.status u = .onStack) := by
    rcases hstatus with hs | hs <;> rw [hs] <;> decide
  refine ⟨hsteps.tidy, h.linked.merge h.tidy hu hv hu'.2 hv'.2 hm.ne hidle,
    hsteps.nodes.trans h.nodes, ?_, ?_, hview ▸ h.valid.merge hm, ?_, ?_, ?_, ?_⟩
  · intro x hx
    by_cases hxu : x = u
    · -- `u` may have been sorted again.
      rw [hxu]
      rcases status_burden_self (a.absorb u v) u with hs | hs
      · rw [Allocator.merge, hs, status_absorb h.tidy hm]
        exact h.inPlay u hu
      · rw [Allocator.merge, hs]
        exact Or.inr (Or.inr (Or.inl rfl))
    · rw [Allocator.merge, status_burden_of_ne _ hxu]
      refine (habsorb.status x).inPlay ?_
      rw [Tidy.status_join]
      split
      · exact Or.inr (Or.inr (Or.inr (Or.inr rfl)))
      · exact h.inPlay x (hsteps.nodes ▸ hx)
  · intro t x hx
    exact (h.tidy.mem_neighbors_merge hm t x).mpr (Or.inl (h.edges t x hx))
  · intro x hx
    rw [hview] at hx ⊢
    exact h.counted_merge hm hx
  · intro x
    unfold ForcedIn
    rw [hview, hsteps.registers, hsteps.shielded]
    exact h.graded_merge hu hv hm hstatus x
  · rw [hview, hsteps.registers]
    exact h.untouched.merge h.valid hm htest
  · rw [hview, hsteps.registers, hsteps.shielded]
    exact h.bounded.merge hm

/-! ### Choosing what to spill -/

/-- If only temporaries of high degree remain, they are a dense set. -/
theorem dense_remaining (h : Underway g a) (hspill : ∀ x ∈ a.remaining, a.status x = .spill) :
    Dense a.view.nbrs a.registers a.remaining := by
  intro x hx
  obtain ⟨-, hpresent⟩ := mem_remaining.mp hx
  calc a.registers ≤ a.graph.degree x := (h.graded x).spill (hspill x hx)
    _ = (a.view.live x).card := h.counted x hpresent
    _ ≤ (a.view.nbrs x ∩ a.remaining).card := by
        refine Finset.card_le_card fun y hy => ?_
        obtain ⟨hy, hpresent⟩ := Elimination.mem_live.mp hy
        have hnode := h.tidy.closed.neighbors_subset x y (Interference.mem_nbrs.mp hy)
        exact Finset.mem_inter.mpr ⟨hy, mem_remaining.mpr ⟨hnode, hpresent⟩⟩

/-- When only temporaries of high degree are left, whichever of them is chosen is forced. -/
theorem forced_of_spill (h : Underway g a) (ht : a.status t = .spill)
    (hsimplify : ∀ x, a.status x ≠ .simplify) (hfreeze : ∀ x, a.status x ≠ .freeze)
    (hshield : t ∈ a.shielded → ∀ x, a.status x = .spill → x ∈ a.shielded) : ForcedIn g a t := by
  -- Nothing can be simplified or frozen, so all that remains is of high degree.
  have hspill : ∀ x ∈ a.remaining, a.status x = .spill := by
    intro x hx
    obtain ⟨hx, hpresent⟩ := mem_remaining.mp hx
    rw [h.tidy.present_view, isPresent_iff] at hpresent
    rcases h.inPlay x hx with hs | hs | hs | hs | hs
    · exact absurd hs (hsimplify x)
    · exact absurd hs (hfreeze x)
    · exact hs
    · exact absurd hs hpresent.1
    · exact absurd hs hpresent.2
  have hmem : t ∈ a.remaining := by
    rw [mem_remaining, h.tidy.present_view, isPresent_iff, ht]
    exact ⟨h.tidy.mem_nodes_of_status ht (by decide), by decide⟩
  obtain ⟨hdense, halone⟩ := h.untouched a.remaining (fun x hx => (mem_remaining.mp hx).2)
    (h.dense_remaining hspill)
  refine ⟨halone t hmem, a.remaining, ?_, hmem, hdense, ?_⟩
  · rw [← h.nodes]
    exact Finset.filter_subset _ _
  · intro hshielded x hx
    rw [TempSet.mem_toFinset] at hshielded ⊢
    exact hshield hshielded x (hspill x hx)

/-! ### Actions and runs -/

/-- Every action that is enabled keeps the invariant. -/
theorem perform (h : Underway g a) (haction : a.Enabled action) :
    Underway g (a.perform action) := by
  cases haction with
  | simplify ht => exact h.simplify ht
  | @join index m hindex hm heq => exact (h.settleMove hindex m .coalesced).release _
  | @constrain index m hindex hm =>
      exact ((h.settleMove hindex m .constrained).release _).release _
  | @merge index m hindex hm hne hapart htest =>
      have hsettled := h.settleMove hindex m .coalesced
      have hview := h.tidy.view_settleMove hindex m .coalesced
      have hmergeable := h.tidy.mergeable h.linked hindex hm hne hapart
      obtain ⟨⟨hu, -⟩, hv, -⟩ := h.tidy.representative_ends hm
      -- Settling the move changed no status, and `u` is in it, so it is of one of two.
      have hstatus : a.status (a.representative m.dst) = .freeze ∨
          a.status (a.representative m.dst) = .spill := by
        have hpending : a.isPending index = true :=
          isPending_iff.mpr (Or.inl ((h.tidy.queued.mem_waiting index).mp hindex))
        exact h.status_of_isPending hpending hm (Or.inl rfl)
      refine (hsettled.merge hu hv (hview ▸ hmergeable) ?_ hstatus).release _
      rw [hview]
      exact h.briggs htest
  | @postpone index m hindex hm => exact h.settleMove hindex m .active
  | @freeze t ht => exact h.freezeMoves (Or.inl ht) (Or.inl ((h.graded t).freeze ht))
  | @spill t forced ht hsimplify hfreeze hshield =>
      exact h.freezeMoves (Or.inr ht) (Or.inr (h.forced_of_spill ht hsimplify hfreeze hshield))

/-- A run keeps the invariant. -/
theorem runs (h : Underway g a) {actions : List Action} (hrun : Runs a actions b) :
    Underway g b :=
  hrun.induct (fun _ _ h hnext => h.perform (enabled_of_next? h.tidy hnext)) h

/-- What stands for the same temporary once, does so ever after. -/
theorem representative_eq_of_runs (h : Underway g a) {actions : List Action}
    (hrun : Runs a actions b) (heq : a.representative x = a.representative t) :
    b.representative x = b.representative t := by
  induction hrun with
  | done => exact heq
  | @step a b action rest hnext _ ih =>
      have haction := enabled_of_next? h.tidy hnext
      refine ih (h.perform haction) ?_
      rw [← rep_view, ← rep_view, h.tidy.view_perform h.linked haction]
      exact action.effect_rep heq

/-- Temporaries that were merged stand for the same one. -/
theorem representative_eq_of_merge (h : Underway g a) {actions : List Action}
    (hrun : Runs a actions b) {index : Nat} {m : Move} (hmem : .merge index m u v ∈ actions) :
    u ≠ v ∧ b.representative v = b.representative u := by
  induction hrun with
  | done => cases hmem
  | @step a b action rest hnext hrest ih =>
      have haction := enabled_of_next? h.tidy hnext
      rcases List.mem_cons.mp hmem with rfl | hmem
      · have hm := h.tidy.mergeable_of_enabled h.linked haction
        have hview : (a.perform (.merge index m u v)).view = a.view.merge u v :=
          h.tidy.view_perform h.linked haction
        refine ⟨hm.ne, (h.perform haction).representative_eq_of_runs hrest ?_⟩
        rw [← rep_view, ← rep_view, hview, hm.rep_merge_right, hm.rep_merge_left]
      · exact ih (h.perform haction) hmem

/-- When there is nothing left to do, everything was pushed or merged. -/
theorem finished (h : Underway g a) (hnext : a.next? = none) (ht : t ∈ a.graph.nodes) :
    a.status t = .onStack ∨ a.status t = .coalesced := by
  obtain ⟨hsimplify, hfreeze, hspill⟩ := status_of_next?_eq_none h.tidy hnext t
  rcases h.inPlay t ht with hs | hs | hs | hs | hs
  · exact absurd hs hsimplify
  · exact absurd hs hfreeze
  · exact absurd hs hspill
  · exact Or.inl hs
  · exact Or.inr hs

/-- When there is nothing left to do no move is pending: its ends would still be in play. -/
theorem isPending_of_next?_eq_none (h : Underway g a) (hnext : a.next? = none) (index : Nat) :
    a.isPending index = false := by
  by_contra hpending
  rw [Bool.not_eq_false] at hpending
  obtain ⟨m, hm⟩ := h.exists_move_of_isPending hpending
  obtain ⟨-, hfreeze, hspill⟩ := status_of_next?_eq_none h.tidy hnext (a.representative m.dst)
  exact (h.status_of_isPending hpending hm (Or.inl rfl)).elim hfreeze hspill

end Underway

end Allocator

end MmixCodegen
