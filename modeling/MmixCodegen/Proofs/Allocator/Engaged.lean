import MmixCodegen.Proofs.Allocator.Termination

/-!
# `MmixCodegen.Proofs.Allocator.Engaged`: what is kept back has a move to wait for

A temporary of low degree is kept back, with status `freeze`, only for the sake of its moves.
When its last pending move is settled, somebody has to notice. `Engaged` says that somebody
does: a temporary of this status is in a pending move. An action that settles a move breaks
this for what represents its ends (`Engaged.settle`), and looking at these two again makes up
for it (`Engaged.release`). Housekeeping that settles nothing is `Spares`.

`Coherent` collects what is true whenever an action is chosen, as far as statuses, degrees and
moves are concerned. `coherent_loop` says that this is so all along a run from a new allocator,
and that in the end all temporaries were pushed or merged and no move is left pending.
-/

set_option autoImplicit false

namespace MmixCodegen

/-- Nothing is closer to being simplified than what can be simplified. -/
theorem NodeStatus.Eases.eq_simplify {s : NodeStatus} (h : NodeStatus.Eases .simplify s) :
    s = .simplify := by
  rcases h with h | ⟨h, -⟩ | ⟨-, h⟩
  · exact h
  · cases h
  · exact h

namespace Allocator

variable {a b c : Allocator} {g : Interference} {t u v x : Temp} {index : Nat} {m : Move}
  {action : Action}

/-! ### Housekeeping that settles no move -/

/-- A new status for one move leaves alone whether another is pending. -/
theorem isPending_placeMove_of_ne (a : Allocator) (next : MoveStatus) {other : Nat}
    (hne : other ≠ index) : (a.placeMove index next).isPending other = a.isPending other := by
  rw [isPending, moveStatuses_placeMove, if_neg (Ne.symm hne), isPending]

/-- Housekeeping after which the same moves are pending. It may keep temporaries back, but only
if they are in one of these. -/
structure Spares (a b : Allocator) : Prop extends Eases a b where
  pending : ∀ index, b.isPending index = a.isPending index
  held : ∀ t, b.status t = .freeze → a.status t = .freeze ∨ b.isMoveRelated t = true

namespace Spares

/-- If no move is settled, a temporary is in a pending move as before. -/
theorem isMoveRelated_eq (h : Spares a b) (t : Temp) : b.isMoveRelated t = a.isMoveRelated t := by
  rw [Bool.eq_iff_iff, isMoveRelated_iff, isMoveRelated_iff, h.movesOf]
  simp only [h.pending]

/-- Housekeeping that changes neither statuses nor what is pending settles nothing. -/
theorem of_status_eq (h : Eases a b) (hpending : ∀ index, b.isPending index = a.isPending index)
    (hstatus : ∀ t, b.status t = a.status t) : Spares a b :=
  ⟨h, hpending, fun t ht => Or.inl (hstatus t ▸ ht)⟩

/-- Doing nothing settles nothing. -/
theorem refl (h : a.Tidy) : Spares a a :=
  of_status_eq (.refl h) (fun _ => rfl) fun _ => rfl

/-- Two steps that settle nothing do not settle anything together. -/
theorem trans (h : Spares a b) (h' : Spares b c) : Spares a c := by
  refine ⟨h.toEases.trans h'.toEases, fun index => (h'.pending index).trans (h.pending index), ?_⟩
  intro t ht
  rcases h'.held t ht with hb | hrelated
  · rcases h.held t hb with ha | hrelated
    · exact Or.inl ha
    · exact Or.inr (h'.isMoveRelated_eq t ▸ hrelated)
  · exact Or.inr hrelated

/-- A loop settles nothing if none of its rounds does. -/
theorem foldl {α : Type} {f : Allocator → α → Allocator}
    (hf : ∀ a x, a.Tidy → Spares a (f a x)) (h : a.Tidy) (l : List α) : Spares a (l.foldl f a) := by
  induction l generalizing a with
  | nil => exact refl h
  | cons x l ih =>
      have hfirst := hf a x h
      exact hfirst.trans (ih hfirst.tidy)

end Spares

namespace Tidy

/-- A pending move stays pending. -/
theorem spares_placeMove (h : a.Tidy) {next : MoveStatus} (hpending : a.isPending index = true)
    (hnext : next.isPending = true) : Spares a (a.placeMove index next) := by
  obtain ⟨prev, hprev⟩ : ∃ prev, a.moveStatuses[index]? = some prev := by
    rcases isPending_iff.mp hpending with hs | hs <;> exact ⟨_, hs⟩
  refine .of_status_eq (h.eases_placeMove next (by simp [hprev]) fun _ => hpending) ?_ fun _ => rfl
  intro other
  by_cases hother : other = index
  · rw [hother, hpending, isPending, moveStatuses_placeMove, hprev]
    simp [hnext]
  · exact isPending_placeMove_of_ne a next hother

/-- A move that is woken was pending and remains so. -/
theorem spares_wakeMoves (h : a.Tidy) (t : Temp) : Spares a (a.wakeMoves t) := by
  refine Spares.foldl (fun a index h => ?_) h _
  split
  · next hactive => exact h.spares_placeMove (isPending_iff.mpr (Or.inr hactive)) rfl
  · exact Spares.refl h

/-- Waking the moves around a temporary settles nothing. -/
theorem spares_wakeAround (h : a.Tidy) (t : Temp) : Spares a (a.wakeAround t) :=
  Spares.foldl (fun _ x h => h.spares_wakeMoves x) h _

/-- What is no longer of high degree is kept back only if it is in a pending move. -/
theorem spares_lighten (h : a.Tidy) (t : Temp) : Spares a (a.lighten t) := by
  refine ⟨h.eases_lighten t, fun index => ?_, fun x hx => ?_⟩
  · unfold lighten
    split <;> rfl
  · by_cases hspill : a.status t = .spill
    · have hlighten : a.lighten t = a.place t (if a.isMoveRelated t then .freeze else .simplify) :=
        if_pos hspill
      rw [hlighten, status_place] at hx
      rw [hlighten]
      by_cases hxt : t = x
      · subst hxt
        rw [if_pos rfl] at hx
        split at hx
        · next hrelated => exact Or.inr hrelated
        · cases hx
      · rw [if_neg hxt] at hx
        exact Or.inl hx
    · rw [lighten, if_neg hspill] at hx
      exact Or.inl hx

/-- The loss of a neighbour settles nothing. -/
theorem spares_loseNeighbor (h : a.Tidy) (t : Temp) : Spares a (a.loseNeighbor t) := by
  have hlower : Spares a (a.lowerDegree t) :=
    .of_status_eq (h.eases_lowerDegree t) (fun _ => rfl) fun _ => rfl
  have hwoken := hlower.trans (hlower.tidy.spares_wakeAround t)
  unfold loseNeighbor
  split
  · exact Spares.refl h
  · split
    · exact hwoken.trans (hwoken.tidy.spares_lighten t)
    · exact hlower

/-- Taking over a neighbour settles nothing. -/
theorem spares_takeOver (h : a.Tidy) (hu : u ∈ a.graph.nodes) (hx : x ∈ a.graph.nodes) :
    Spares a (a.takeOver u x) := by
  have hedge : Spares a { a with graph := a.graph.addEdge x u } :=
    .of_status_eq (h.eases_addEdge hx hu) (fun _ => rfl) fun _ => rfl
  exact hedge.trans (hedge.tidy.spares_loseNeighbor x)

/-- Taking over a list of neighbours settles nothing. -/
theorem spares_foldl_takeOver {l : List Temp} (h : a.Tidy) (hu : u ∈ a.graph.nodes)
    (hl : ∀ x ∈ l, x ∈ a.graph.nodes) : Spares a (l.foldl (takeOver u) a) := by
  induction l generalizing a with
  | nil => exact Spares.refl h
  | cons x l ih =>
      have hfirst := h.spares_takeOver hu (hl x List.mem_cons_self)
      refine hfirst.trans (ih hfirst.tidy (hfirst.nodes ▸ hu) fun y hy => ?_)
      rw [hfirst.nodes]
      exact hl y (List.mem_cons_of_mem _ hy)

/-- Once two temporaries are joined, the rest of a merge settles nothing. -/
theorem spares_absorb (h : (a.join u v).Tidy) (hu : u ∈ (a.join u v).graph.nodes) :
    Spares (a.join u v) (a.absorb u v) := by
  have hwoken := h.spares_wakeMoves v
  refine hwoken.trans (hwoken.tidy.spares_foldl_takeOver (hwoken.nodes ▸ hu) fun x hx => ?_)
  exact hwoken.tidy.mem_nodes_of_mem_adjacent hx

end Tidy

/-- What is still kept back after a second look is in a pending move, or of high degree. -/
theorem status_of_release (h : (a.release t).status x = .freeze) :
    a.status x = .freeze ∧
      (x = t → a.isMoveRelated t = true ∨ a.registers ≤ a.graph.degree t) := by
  unfold release at h
  split at h
  · rw [status_place] at h
    split at h
    · cases h
    · next hne => exact ⟨h, fun heq => absurd heq.symm hne⟩
  · next hguard =>
      refine ⟨h, fun heq => ?_⟩
      subst heq
      simpa [h, isSignificant, or_iff_not_imp_left] using hguard

/-- A temporary that is still kept back after it was sorted again has a low degree. -/
theorem degree_of_burden (h : (a.burden t).status t = .freeze) :
    (a.burden t).graph.degree t < (a.burden t).registers := by
  unfold burden at h ⊢
  split at h
  · rw [status_place, if_pos rfl] at h
    cases h
  · next hguard =>
      rw [if_neg hguard]
      simpa [h, isSignificant] using hguard

/-- Releasing a temporary settles nothing. -/
theorem Tidy.spares_release (h : a.Tidy) (t : Temp) : Spares a (a.release t) := by
  refine ⟨h.eases_release t, fun index => ?_, fun x hx => Or.inl (status_of_release hx).1⟩
  unfold release
  split <;> rfl

/-! ### Temporaries that are kept back -/

/-- A move is listed only for what was merged with one of its ends, and a temporary that is kept
back is in a pending move, unless it is one of those to be looked at again. -/
structure Engaged (a : Allocator) (suspects : List Temp) : Prop where
  listed : ∀ (t : Temp) (index : Nat), index ∈ a.graph.movesOf t →
    ∃ m, a.graph.moves[index]? = some m ∧
      (a.representative t = a.representative m.dst ∨ a.representative t = a.representative m.src)
  related : ∀ t, t ∉ suspects → a.status t = .freeze → a.isMoveRelated t = true

namespace Engaged

variable {suspects others : List Temp}

/-- Housekeeping keeps moves listed only for what was merged with one of their ends. -/
theorem listed_eases (h : a.Engaged suspects) (hab : Eases a b) (t : Temp) (index : Nat)
    (hindex : index ∈ b.graph.movesOf t) :
    ∃ m, b.graph.moves[index]? = some m ∧
      (b.representative t = b.representative m.dst ∨
        b.representative t = b.representative m.src) := by
  rw [hab.movesOf] at hindex
  simp only [hab.moves, hab.representative]
  exact h.listed t index hindex

/-- Housekeeping that settles nothing leaves no temporary without a move to wait for. -/
theorem spares (h : a.Engaged suspects) (hab : Spares a b) : b.Engaged suspects := by
  refine ⟨h.listed_eases hab.toEases, fun t ht hfreeze => ?_⟩
  rcases hab.held t hfreeze with hold | hrelated
  · rw [hab.isMoveRelated_eq]
    exact h.related t ht hold
  · exact hrelated

/-- Settling a move puts what represents its ends under suspicion, and nothing else: no other
temporary that is still there has the move on its list. -/
theorem settle (h : a.Engaged []) (hab : Eases a b) (hstatus : ∀ t, b.status t = a.status t)
    (hpending : ∀ other, other ≠ index → b.isPending other = a.isPending other)
    (hm : a.graph.moves[index]? = some m) :
    b.Engaged [a.representative m.dst, a.representative m.src] := by
  refine ⟨h.listed_eases hab, fun t ht hfreeze => ?_⟩
  rw [hstatus] at hfreeze
  obtain ⟨other, hother, hold⟩ := isMoveRelated_iff.mp (h.related t List.not_mem_nil hfreeze)
  -- The move that was settled is listed for what represents its ends only.
  have hne : other ≠ index := by
    intro heq
    subst heq
    obtain ⟨m', hm', hend⟩ := h.listed t other hother
    have hself : a.representative t = t :=
      representative_of_not_coalesced (by rw [hfreeze]; decide)
    rw [hm, Option.some.injEq] at hm'
    rw [hself, ← hm'] at hend
    exact ht (by simpa using hend)
  refine isMoveRelated_iff.mpr ⟨other, ?_, ?_⟩
  · rw [hab.movesOf]
    exact hother
  · rw [hpending other hne]
    exact hold

/-- A second look at a suspect clears it. -/
theorem release (h : a.Engaged suspects) (ha : a.Tidy)
    (hlow : a.status t = .freeze → a.graph.degree t < a.registers)
    (hothers : ∀ x ∈ suspects, a.status x = .freeze → x = t ∨ x ∈ others) :
    (a.release t).Engaged others := by
  have hspares := ha.spares_release t
  refine ⟨h.listed_eases hspares.toEases, fun x hx hfreeze => ?_⟩
  obtain ⟨hold, hreason⟩ := status_of_release hfreeze
  rw [hspares.isMoveRelated_eq]
  by_cases hsuspect : x ∈ suspects
  · rcases hothers x hsuspect hold with rfl | hother
    · rcases hreason rfl with hrelated | hhigh
      · exact hrelated
      · have hlt := hlow hold
        omega
    · exact absurd hother hx
  · exact h.related x hsuspect hold

/-- A new status other than `freeze` raises no suspicion. -/
theorem place (h : a.Engaged suspects) {next : NodeStatus} (hprev : a.status t ≠ .coalesced)
    (hnext : next ≠ .coalesced) (hfreeze : next ≠ .freeze) : (a.place t next).Engaged suspects := by
  refine ⟨fun x index hindex => ?_, fun x hx hs => ?_⟩
  · simp only [representative_place hprev hnext]
    exact h.listed x index hindex
  · rw [status_place] at hs
    split at hs
    · exact absurd hs hfreeze
    · exact h.related x hx hs

/-- A temporary that becomes one of high degree is not kept back any more. -/
theorem burden (h : a.Engaged suspects) (t : Temp) : (a.burden t).Engaged suspects := by
  unfold Allocator.burden
  split
  · next hguard =>
      rw [Bool.and_eq_true, decide_eq_true_eq] at hguard
      exact h.place (by rw [hguard.2]; decide) (by decide) (by decide)
  · exact h

/-- `u` takes the moves of `v`, and what stood for `v` stands for `u`. -/
theorem join (h : a.Engaged [u, v]) (hu : a.representative u = u) (hv : a.representative v = v)
    (hrep : ∀ t, (a.join u v).representative t =
      if a.representative t = v then u else a.representative t) : (a.join u v).Engaged [u] := by
  -- What stood for the same temporary still does.
  have hsame : ∀ {t x : Temp}, a.representative t = a.representative x →
      (a.join u v).representative t = (a.join u v).representative x := by
    intro t x heq
    rw [hrep, hrep, heq]
  have huv : (a.join u v).representative u = (a.join u v).representative v := by
    rw [hrep, hrep, hu, hv, if_pos rfl]
    split <;> rfl
  refine ⟨fun t index hindex => ?_, fun t ht hfreeze => ?_⟩
  · rcases Linked.mem_movesOf_join.mp hindex with hown | ⟨rfl, hgiven⟩
    · obtain ⟨m, hm, hend⟩ := h.listed t index hown
      exact ⟨m, hm, hend.imp hsame hsame⟩
    · obtain ⟨m, hm, hend⟩ := h.listed v index hgiven
      rw [huv]
      exact ⟨m, hm, hend.imp hsame hsame⟩
  · rw [Tidy.status_join] at hfreeze
    split at hfreeze
    · cases hfreeze
    · next hne =>
        have hclear : t ∉ [u, v] := by
          simp only [List.mem_cons, List.not_mem_nil, or_false, not_or] at ht ⊢
          exact ⟨ht, Ne.symm hne⟩
        obtain ⟨index, hindex, hpending⟩ := isMoveRelated_iff.mp (h.related t hclear hfreeze)
        exact isMoveRelated_iff.mpr ⟨index, Linked.mem_movesOf_join.mpr (Or.inl hindex), hpending⟩

/-- A merge leaves one temporary to be looked at again: the one that was merged into. -/
theorem merge (h : a.Engaged [u, v]) (ha : a.Tidy) (hu : u ∈ a.graph.nodes) (hv : v ∈ a.graph.nodes)
    (hu' : a.status u ≠ .coalesced) (hv' : a.status v ≠ .coalesced) (hne : u ≠ v) :
    (a.merge u v).Engaged [u] := by
  obtain ⟨hjoin, hrep⟩ := ha.steps_join hu hv hu' hv' hne
  have hjoined := h.join (representative_of_not_coalesced hu') (representative_of_not_coalesced hv')
    hrep
  exact (hjoined.spares (Tidy.spares_absorb hjoin.tidy (hjoin.nodes ▸ hu))).burden u

/-- Giving up a move of a temporary that is not kept back. The only suspect is the other end,
and it is looked at again. -/
theorem freezeMove (h : a.Engaged []) (ha : a.Tidy)
    (hlow : ∀ x, a.status x = .freeze → a.graph.degree x < a.registers)
    (ht : a.status t = .simplify) (hindex : index ∈ a.graph.movesOf t) :
    (a.freezeMove t index).Engaged [] := by
  obtain ⟨m, hm, hend⟩ := h.listed t index hindex
  rw [representative_of_not_coalesced (by rw [ht]; decide)] at hend
  have hfrozen := ha.eases_giveUp hm (if a.representative m.src = t then m.dst else m.src)
  have hsettled := h.settle hfrozen (fun _ => rfl)
    (fun other hne => isPending_placeMove_of_ne _ .frozen hne) hm
  rw [Allocator.freezeMove, hm]
  refine hsettled.release hfrozen.tidy (hlow _) fun x hx hfreeze => Or.inl ?_
  have hxt : x ≠ t := by
    rintro rfl
    have hs : a.status x = .freeze := hfreeze
    rw [ht] at hs
    cases hs
  -- One of the ends is `t`, so the suspect is the other one.
  simp only [List.mem_cons, List.not_mem_nil, or_false] at hx
  split
  · next hsrc =>
      rcases hx with hx | hx
      · exact hx
      · exact absurd (hx.trans hsrc) hxt
  · next hsrc =>
      rcases hx with hx | hx
      · rcases hend with heq | heq
        · exact absurd (hx.trans heq.symm) hxt
        · exact absurd heq.symm hsrc
      · exact hx

/-- Giving up moves one after the other leaves no temporary without a move to wait for, since
the other end of each is looked at again. -/
theorem foldl_freezeMove {forced : Temp → Prop} {l : List Nat} (h : a.Engaged []) (ha : a.Tidy)
    (hgraded : ∀ x, a.Graded forced x) (ht : a.status t = .simplify)
    (hl : ∀ index ∈ l, index ∈ a.graph.movesOf t) :
    (l.foldl (Allocator.freezeMove t) a).Engaged [] := by
  induction l generalizing a with
  | nil => exact h
  | cons index l ih =>
      have hfirst := ha.eases_freezeMove t index
      refine ih (h.freezeMove ha (fun x => (hgraded x).freeze) ht (hl index List.mem_cons_self))
        hfirst.tidy (fun x => (hgraded x).freezeMove t index) ?_ fun other hother => ?_
      · have hs := hfirst.status t
        rw [ht] at hs
        exact hs.eq_simplify
      · rw [hfirst.movesOf]
        exact hl other (List.mem_cons_of_mem _ hother)

/-- Giving up all moves of a temporary that is frozen or spilled leaves nobody behind. -/
theorem freezeMoves (h : a.Engaged []) (ha : Underway g a)
    (ht : a.status t = .freeze ∨ a.status t = .spill) :
    ((a.place t .simplify).freezeMoves t).Engaged [] := by
  have hmem : t ∈ a.graph.nodes := by
    rcases ht with ht | ht <;> exact ha.tidy.mem_nodes_of_status ht (by decide)
  have hstatus : a.status t ≠ .coalesced := by
    rcases ht with ht | ht <;> rw [ht] <;> decide
  have hplace := ha.tidy.steps_place hmem .simplify hstatus (by decide)
  have hnew : (a.place t .simplify).status t = .simplify := by rw [status_place, if_pos rfl]
  have hshort := hplace.tidy.eases_compress t
  have hplaced : (a.place t .simplify).Engaged [] := h.place hstatus (by decide) (by decide)
  have hengaged := hplaced.spares (.of_status_eq hshort (fun _ => rfl) fun _ => rfl)
  -- A temporary that is to be spilled is simplified although its degree is high.
  have hgraded : ∀ x, ((a.place t .simplify).compress t).Graded (fun _ => True) x := by
    intro x
    by_cases hxt : x = t
    · subst hxt
      refine ⟨fun hs => ?_, fun hs => ?_, fun _ => Or.inr trivial⟩
      · exact absurd (hs.symm.trans hnew) (by decide)
      · exact absurd (hs.symm.trans hnew) (by decide)
    · refine ((ha.graded x).mono fun _ => trivial).congr rfl ?_ rfl
      show (a.place t .simplify).status x = a.status x
      rw [status_place, if_neg (Ne.symm hxt)]
  have hroot : (a.place t .simplify).representative t = t :=
    representative_of_not_coalesced (by rw [hnew]; decide)
  rw [Allocator.freezeMoves, hroot]
  refine hengaged.foldl_freezeMove hshort.tidy hgraded hnew fun index hindex => ?_
  exact Std.ExtTreeSet.mem_toList.mp (List.mem_filter.mp hindex).1

/-- Every action leaves nothing kept back without a reason. -/
theorem perform (h : a.Engaged []) (ha : Underway g a) (haction : a.Enabled action) :
    (a.perform action).Engaged [] := by
  -- What three of the actions have in common.
  have hsettle : ∀ {index : Nat} {m : Move} (next : MoveStatus), index ∈ a.waiting →
      a.graph.moves[index]? = some m →
      ((a.compressEnds m).placeMove index next).Engaged
        [a.representative m.dst, a.representative m.src] := by
    intro index m next hindex hm
    exact h.settle (ha.tidy.eases_settleMove hindex m next) (fun _ => rfl)
      (fun other hne => isPending_placeMove_of_ne _ next hne) hm
  cases haction with
  | @simplify t ht =>
      have hstatus : a.status t ≠ .coalesced := by rw [ht]; decide
      have hpush :=
        ha.tidy.steps_place (ha.tidy.mem_nodes_of_status ht (by decide)) .onStack hstatus
        (by decide)
      have hpushed : (a.place t .onStack).Engaged [] := h.place hstatus (by decide) (by decide)
      exact hpushed.spares (Spares.foldl (fun _ x h => h.spares_loseNeighbor x) hpush.tidy _)
  | @join index m hindex hm heq =>
      have hmoved := ha.settleMove hindex m .coalesced
      refine (hsettle .coalesced hindex hm).release hmoved.tidy (hmoved.graded _).freeze ?_
      intro x hx _
      simp only [List.mem_cons, List.not_mem_nil, or_false] at hx
      rw [← heq, or_self] at hx
      exact Or.inl hx
  | @constrain index m hindex hm =>
      have hmoved := ha.settleMove hindex m .constrained
      have hfirst : (((a.compressEnds m).placeMove index .constrained).release
          (a.representative m.dst)).Engaged [a.representative m.src] :=
        (hsettle .constrained hindex hm).release hmoved.tidy (hmoved.graded _).freeze
          fun x hx _ => by simpa using hx
      have hreleased := hmoved.release (a.representative m.dst)
      exact hfirst.release hreleased.tidy (hreleased.graded _).freeze
        fun x hx _ => by simpa using hx
  | @merge index m hindex hm hne hapart htest =>
      have hmove := ha.tidy.eases_settleMove hindex m .coalesced
      obtain ⟨⟨hu, hu'⟩, hv, hv'⟩ := ha.tidy.representative_ends hm
      have hsteps := hmove.tidy.steps_merge (hmove.nodes ▸ hu) (hmove.nodes ▸ hv) hu' hv' hne
      -- Only `u` is left under suspicion, and it was sorted again if its degree became high.
      have hmerged := (hsettle .coalesced hindex hm).merge hmove.tidy (hmove.nodes ▸ hu)
        (hmove.nodes ▸ hv) hu' hv' hne
      exact hmerged.release hsteps.tidy degree_of_burden fun x hx _ => by simpa using hx
  | @postpone index m hindex hm =>
      have hpending : a.isPending index = true :=
        isPending_iff.mpr (Or.inl ((ha.tidy.queued.mem_waiting index).mp hindex))
      have hends : Spares a (a.compressEnds m) :=
        .of_status_eq (ha.tidy.eases_compressEnds m) (fun _ => rfl) fun _ => rfl
      exact h.spares (hends.trans (hends.tidy.spares_placeMove hpending rfl))
  | freeze ht => exact h.freezeMoves ha (Or.inl ht)
  | spill ht hsimplify hfreeze hshield => exact h.freezeMoves ha (Or.inr ht)

end Engaged

/-- A temporary is sorted to be kept back only if it is in a move. -/
theorem engaged_sort (registers : Nat) (shielded : TempSet) (rs : List Routine) :
    ((Allocator.new registers shielded).build rs).sort.Engaged [] := by
  have hgraph := (sort_eq ((Allocator.new registers shielded).build rs)).1
  have hrep : ∀ t, ((Allocator.new registers shielded).build rs).sort.representative t = t :=
    fun t => congrFun (congrArg Elimination.rep (view_sort registers shielded rs)) t
  refine ⟨fun t index hindex => ?_, fun t _ hfreeze => ?_⟩
  · rw [hgraph] at hindex ⊢
    simp only [hrep]
    obtain ⟨m, hm, hend⟩ := (Interference.indexed_ofRoutines rs t index).mp hindex
    exact ⟨m, hm, hend.imp Eq.symm Eq.symm⟩
  · rw [status_sort, status_build] at hfreeze
    split at hfreeze
    · -- A temporary of low degree got this status because of its moves.
      unfold grade at hfreeze
      split at hfreeze
      · cases hfreeze
      · split at hfreeze
        · next hrelated => rw [isMoveRelated_sort]; exact hrelated
        · cases hfreeze
    · cases hfreeze

/-! ### The loop -/

/-- What is true whenever an action is chosen. -/
structure Coherent (a : Allocator) : Prop where
  /-- The degree of a temporary counts the neighbours that were neither pushed nor merged. -/
  degree : ∀ t, a.status t = .simplify ∨ a.status t = .freeze ∨ a.status t = .spill →
    a.graph.degree t = ((a.graph.neighbors t).toList.filter fun x =>
      a.status x ≠ .onStack ∧ a.status x ≠ .coalesced).length
  spill : ∀ t, a.status t = .spill → a.registers ≤ a.graph.degree t
  freeze : ∀ t, a.status t = .freeze →
    a.graph.degree t < a.registers ∧ ∃ index ∈ a.graph.movesOf t, a.isPending index = true
  simplify : ∀ t, a.status t = .simplify → ∀ index ∈ a.graph.movesOf t, a.isPending index = false
  /-- What represents the ends of a pending move has it on its list and is not out of play. -/
  ends : ∀ index, a.isPending index = true → ∃ m, a.graph.moves[index]? = some m ∧
    ∀ t, t = a.representative m.dst ∨ t = a.representative m.src →
      index ∈ a.graph.movesOf t ∧ (a.status t = .freeze ∨ a.status t = .spill)

/-- All temporaries were pushed or merged, and all moves were merged or given up. -/
structure Done (a : Allocator) : Prop where
  nodes : ∀ t ∈ a.graph.nodes, a.status t = .onStack ∨ a.status t = .coalesced
  moves : ∀ index, index < a.graph.moves.size →
    a.moveStatuses[index]? = some .coalesced ∨ a.moveStatuses[index]? = some .constrained ∨
      a.moveStatuses[index]? = some .frozen

namespace Underway

/-- The degree of a temporary that is present is the number of its present neighbours. -/
theorem degree_eq (h : Underway g a) (hpresent : a.isPresent t = true) :
    a.graph.degree t = (a.adjacent t).length := by
  rw [h.counted t (h.tidy.present_view.mpr hpresent),
    ← List.toFinset_card_of_nodup (Tidy.nodup_adjacent a t)]
  congr 1
  ext x
  rw [h.tidy.mem_live_view, List.mem_toFinset]

/-- Where nobody is to be looked at again, statuses, degrees and moves fit together. -/
theorem coherent (h : Underway g a) (hengaged : a.Engaged []) : a.Coherent where
  degree t ht := by
    have hpresent : a.isPresent t = true := by
      rw [isPresent_iff]
      rcases ht with hs | hs | hs <;> rw [hs] <;> decide
    rw [h.degree_eq hpresent, adjacent]
    congr 1
    refine List.filter_congr fun x _ => ?_
    rw [Bool.eq_iff_iff, isPresent_iff, decide_eq_true_eq]
  spill t := (h.graded t).spill
  freeze t ht :=
    ⟨(h.graded t).freeze ht, isMoveRelated_iff.mp (hengaged.related t List.not_mem_nil ht)⟩
  simplify t ht := not_isMoveRelated_iff.mp (h.linked.idle t (Or.inl ht))
  ends index hpending := by
    obtain ⟨m, hm⟩ := h.exists_move_of_isPending hpending
    obtain ⟨hdst, hsrc⟩ := h.linked.ends index m hpending hm
    refine ⟨m, hm, fun t ht => ⟨?_, h.status_of_isPending hpending hm ht⟩⟩
    rcases ht with rfl | rfl
    · exact hdst
    · exact hsrc

/-- Where nothing is left to do, everything was pushed or merged and no move is pending. -/
theorem done (h : Underway g a) (hrest : a.AtRest) : a.Done := by
  have hnext := (next?_eq_none_iff h.tidy.waiting_lt).mpr hrest
  refine ⟨fun t ht => h.finished hnext ht, fun index hlt => ?_⟩
  have hsettled := h.isPending_of_next?_eq_none hnext index
  rw [← h.tidy.queued.size_eq] at hlt
  rw [isPending, Array.getElem?_eq_getElem hlt] at hsettled
  rw [Array.getElem?_eq_getElem hlt]
  cases hs : a.moveStatuses[index] <;> simp_all [MoveStatus.isPending]

end Underway

/-- All along a run from a new allocator statuses, degrees and moves fit together, and when
nothing is left to do, nothing is left pending. Every run gets there. -/
theorem coherent_loop (registers : Nat) (shielded : TempSet) (rs : List Routine) :
    let start := ((Allocator.new registers shielded).build rs).sort
    (∀ actions b, Runs start actions b → b.Coherent ∧ (b.AtRest → b.Done)) ∧
      ∃ actions b, Runs start actions b ∧ b.AtRest := by
  intro start
  have hstart := underway_sort registers shielded rs
  refine ⟨fun actions b hrun => ?_, _, _, runs_drain start, hstart.tidy.atRest_drain⟩
  obtain ⟨hunderway, hengaged⟩ : Underway (Interference.ofRoutines rs) b ∧ b.Engaged [] := by
    refine hrun.induct (p := fun b => Underway (Interference.ofRoutines rs) b ∧ b.Engaged [])
      ?_ ⟨hstart, engaged_sort registers shielded rs⟩
    rintro a action ⟨hunderway, hengaged⟩ hnext
    have haction := enabled_of_next? hunderway.tidy hnext
    exact ⟨hunderway.perform haction, hengaged.perform hunderway haction⟩
  exact ⟨hunderway.coherent hengaged, hunderway.done⟩

/-- With two registers the copy of `relink` is pending at the start, and settled in the end. -/
theorem relink_coherent :
    let start := ((Allocator.new 2 ∅).build [rivals.analyze.1, relink.analyze.1]).sort
    start.isPending 0 = true ∧ start.Coherent ∧ start.drain.2.Coherent ∧ start.drain.2.Done := by
  intro start
  obtain ⟨hall, -⟩ := coherent_loop 2 ∅ [rivals.analyze.1, relink.analyze.1]
  have hstart := underway_sort 2 ∅ [rivals.analyze.1, relink.analyze.1]
  obtain ⟨hfirst, -⟩ := hall [] start .done
  obtain ⟨hlast, hdone⟩ := hall _ _ (runs_drain start)
  exact ⟨by decide +kernel, hfirst, hlast, hdone hstart.tidy.atRest_drain⟩

end Allocator

end MmixCodegen
