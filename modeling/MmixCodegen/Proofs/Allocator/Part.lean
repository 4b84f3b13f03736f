import MmixCodegen.Proofs.Allocator.Linked

/-!
# `MmixCodegen.Proofs.Allocator.Part`: an allocation within a larger one

Code that has no temporary in common with the rest of a program is a `Region` of it: some
of its temporaries, and a range of its moves. `Part g a c` says that the state `c` of an
allocation of everything looks within the region `g` like the state `a` of an allocation of
the region alone. The moves of the region have their own numbers in `a`.

Each operation has two lemmas. If it is about temporaries or moves of the region, then the
same operation takes `a` along (`Part.loseNeighbor`, `Part.merge`). If it is about others,
then nothing is seen of it within the region (`Part.loseNeighbor_out`, `Part.merge_out`).
For whole actions these are `Part.perform` and `Part.perform_out`.
-/

set_option autoImplicit false

namespace MmixCodegen

/-- Some temporaries of a program and a range of its moves. -/
structure Region where
  /-- The temporaries of the program. -/
  all : TempSet
  /-- Those of the region. -/
  temps : TempSet
  subset : ∀ t ∈ temps, t ∈ all
  /-- The number of the first move of the region. -/
  first : Nat
  /-- How many moves there are in the region. -/
  count : Nat

/-- A move of the region. -/
def Region.Owns (g : Region) (index : Nat) : Prop :=
  ∃ i < g.count, index = g.first + i

namespace Action

/-- The same action where the moves have higher numbers. -/
def shift (first : Nat) : Action → Action
  | simplify t => simplify t
  | join index m u => join (first + index) m u
  | constrain index m u v => constrain (first + index) m u v
  | merge index m u v => merge (first + index) m u v
  | postpone index m => postpone (first + index) m
  | freeze t => freeze t
  | spill t forced => spill t forced

/-- The action is about a temporary or a move that is not in the region. -/
def Outside (g : Region) : Action → Prop
  | simplify t => t ∉ g.temps
  | join index _ _ => ¬g.Owns index
  | constrain index _ _ _ => ¬g.Owns index
  | merge index _ _ _ => ¬g.Owns index
  | postpone index _ => ¬g.Owns index
  | freeze t => t ∉ g.temps
  | spill t _ => t ∉ g.temps

end Action

namespace Allocator

/-- Within a region, `c` looks like `a`. -/
structure Part (g : Region) (a c : Allocator) : Prop where
  part : a.Tidy
  whole : c.Tidy
  registers : c.registers = a.registers
  shielded : c.shielded = a.shielded
  -- The graph. Moves have other numbers, and those outside have no end in the region.
  nodes : a.graph.nodes = g.temps
  all : c.graph.nodes = g.all
  size : a.graph.moves.size = g.count
  moves : ∀ i < g.count, c.graph.moves[g.first + i]? = a.graph.moves[i]?
  moves_out : ∀ (index : Nat) (m : Move), c.graph.moves[index]? = some m → ¬g.Owns index →
    m.dst ∉ g.temps ∧ m.src ∉ g.temps
  movesOf : ∀ t ∈ g.temps, ∀ index,
    index ∈ c.graph.movesOf t ↔ ∃ i < g.count, index = g.first + i ∧ i ∈ a.graph.movesOf t
  movesOf_out : ∀ t, t ∉ g.temps → ∀ index ∈ c.graph.movesOf t, ¬g.Owns index
  neighbors : ∀ t ∈ g.temps, c.graph.neighbors t = a.graph.neighbors t
  degree : ∀ t ∈ g.temps, c.graph.degree t = a.graph.degree t
  weight : ∀ t ∈ g.temps, c.graph.weight t = a.graph.weight t
  -- What has become of them so far.
  status : ∀ t ∈ g.temps, c.status t = a.status t
  moveStatuses : ∀ i < g.count, c.moveStatuses[g.first + i]? = a.moveStatuses[i]?
  representative : ∀ t ∈ g.temps, c.representative t = a.representative t
  representative_out : ∀ t, t ∉ g.temps → c.representative t ∉ g.temps
  stack : c.stack.filter (· ∈ g.temps) = a.stack
  colors : ∀ t ∈ g.temps, c.colors[t]? = a.colors[t]?

/-- Numbers in ascending order are known by which they are. -/
theorem eq_of_pairwise_lt {l l' : List Nat} (hl : l.Pairwise (· < ·)) (hl' : l'.Pairwise (· < ·))
    (hmem : ∀ i, i ∈ l ↔ i ∈ l') : l = l' := by
  have hperm := (List.perm_ext_iff_of_nodup (hl.imp Nat.ne_of_lt) (hl'.imp Nat.ne_of_lt)).mpr hmem
  exact hperm.eq_of_pairwise (fun i j _ _ hij hji => absurd hji (Nat.lt_asymm hij)) hl hl'

/-- Moves are listed in ascending order. -/
theorem pairwise_toList (s : MoveSet) : s.toList.Pairwise (· < ·) :=
  Std.ExtTreeSet.ordered_toList.imp Nat.compare_eq_lt.mp

namespace Part

variable {g : Region} {a b c d : Allocator} {t u v x : Temp} {i index : Nat} {m : Move}

/-! ### What can be read off -/

/-- A temporary of the region is a node of both graphs. -/
theorem mem_nodes (h : Part g a c) (ht : t ∈ g.temps) : t ∈ a.graph.nodes ∧ t ∈ c.graph.nodes := by
  rw [h.nodes, h.all]
  exact ⟨ht, g.subset t ht⟩

/-- Neighbours of the region belong to it. -/
theorem mem_of_mem_neighbors (h : Part g a c) (hx : x ∈ a.graph.neighbors t) : x ∈ g.temps := by
  rw [← h.nodes]
  exact h.part.closed.neighbors_subset t x hx

/-- Neighbours of others do not. -/
theorem notMem_of_mem_neighbors (h : Part g a c) (ht : t ∉ g.temps)
    (hx : x ∈ c.graph.neighbors t) : x ∉ g.temps := by
  intro hmem
  have hsymm := h.whole.sound.symm hx
  rw [h.neighbors x hmem] at hsymm
  exact ht (h.mem_of_mem_neighbors hsymm)

/-- Whatever is adjacent in the graph of the region belongs to the region. -/
theorem mem_of_mem_adjacent (h : Part g a c) (hx : x ∈ a.adjacent t) : x ∈ g.temps := by
  rw [← h.nodes]
  exact h.part.mem_nodes_of_mem_adjacent hx

/-- Outside of the region, whatever is adjacent is outside too. -/
theorem notMem_of_mem_adjacent (h : Part g a c) (ht : t ∉ g.temps) (hx : x ∈ c.adjacent t) :
    x ∉ g.temps := by
  rw [Allocator.adjacent, List.mem_filter, Std.ExtTreeSet.mem_toList] at hx
  exact h.notMem_of_mem_neighbors ht hx.1

/-- Within the region, the same neighbours are present in both. -/
theorem adjacent (h : Part g a c) (ht : t ∈ g.temps) : c.adjacent t = a.adjacent t := by
  unfold Allocator.adjacent
  rw [h.neighbors t ht]
  refine List.filter_congr fun x hx => ?_
  unfold isPresent
  rw [h.status x (h.mem_of_mem_neighbors (Std.ExtTreeSet.mem_toList.mp hx))]

/-- A temporary of the region has a high degree in both or in neither. -/
theorem isSignificant (h : Part g a c) (ht : t ∈ g.temps) :
    c.isSignificant t = a.isSignificant t := by
  rw [Allocator.isSignificant, Allocator.isSignificant, h.registers, h.degree t ht]

/-- What stands for a temporary of the region belongs to the region. -/
theorem representative_mem (h : Part g a c) (ht : t ∈ g.temps) : a.representative t ∈ g.temps := by
  rw [← h.nodes] at ht ⊢
  exact h.part.representative_mem t ht

/-- The ends of a move of the region belong to it. -/
theorem ends_mem (h : Part g a c) (hm : a.graph.moves[i]? = some m) :
    m.dst ∈ g.temps ∧ m.src ∈ g.temps := by
  rw [← h.nodes]
  exact h.part.closed.ends_mem i m hm

/-- A move of the region is pending in both or in neither. -/
theorem isPending (h : Part g a c) (hi : i < g.count) :
    c.isPending (g.first + i) = a.isPending i := by
  rw [Allocator.isPending, Allocator.isPending, h.moveStatuses i hi]

/-- Each move of the region has a status in both. -/
theorem isSome_moveStatuses (h : Part g a c) (hi : i < g.count) :
    a.moveStatuses[i]?.isSome ∧ c.moveStatuses[g.first + i]?.isSome := by
  rw [h.moveStatuses i hi]
  have hlt : i < a.moveStatuses.size := by
    rw [h.part.queued.size_eq, h.size]
    exact hi
  simp [hlt]

/-- The allocation of the region knows no moves but those of the region. -/
theorem lt_of_isPending (h : Part g a c) (hi : a.isPending i = true) : i < g.count := by
  rw [isPending_iff] at hi
  rw [← h.size, ← h.part.queued.size_eq]
  rcases hi with hi | hi
  · exact (Array.getElem?_eq_some_iff.mp hi).1
  · exact (Array.getElem?_eq_some_iff.mp hi).1

/-- A temporary of the region has the same pending moves, under their shifted numbers. -/
theorem pendingMoves (h : Part g a c) (ht : t ∈ g.temps) :
    c.pendingMoves t = (a.pendingMoves t).map (g.first + ·) := by
  refine eq_of_pairwise_lt ((pairwise_toList _).filter _)
    (List.pairwise_map.mpr (((pairwise_toList _).filter _).imp fun hij => by omega))
    fun index => ?_
  simp only [Allocator.pendingMoves, List.mem_map, List.mem_filter, Std.ExtTreeSet.mem_toList,
    h.movesOf t ht]
  constructor
  · rintro ⟨⟨i, hi, rfl, hmem⟩, hpending⟩
    exact ⟨i, ⟨hmem, h.isPending hi ▸ hpending⟩, rfl⟩
  · rintro ⟨i, ⟨hmem, hpending⟩, rfl⟩
    have hi := h.lt_of_isPending hpending
    exact ⟨⟨i, hi, rfl, hmem⟩, (h.isPending hi).trans hpending⟩

/-- The pending moves of a temporary in the region's own state are moves of the region. -/
theorem lt_of_mem_pendingMoves (h : Part g a c) (hi : i ∈ a.pendingMoves t) : i < g.count :=
  h.lt_of_isPending (List.mem_filter.mp hi).2

/-- The pending moves of a temporary outside of the region are not moves of the region. -/
theorem not_owns_of_mem_pendingMoves (h : Part g a c) (ht : t ∉ g.temps)
    (hindex : index ∈ c.pendingMoves t) : ¬g.Owns index :=
  h.movesOf_out t ht index (Std.ExtTreeSet.mem_toList.mp (List.mem_filter.mp hindex).1)

/-- A temporary of the region is in some pending move in both or in neither. -/
theorem isMoveRelated (h : Part g a c) (ht : t ∈ g.temps) :
    c.isMoveRelated t = a.isMoveRelated t := by
  rw [Allocator.isMoveRelated, Allocator.isMoveRelated, h.pendingMoves ht, List.isEmpty_map]

/-! ### Running through lists -/

/-- Two loops over one list keep the relation if their rounds do. -/
theorem foldl {α : Type} {f f' : Allocator → α → Allocator} {l : List α} (h : Part g a c)
    (hf : ∀ a c x, x ∈ l → Part g a c → Part g (f a x) (f' c x)) :
    Part g (l.foldl f a) (l.foldl f' c) := by
  induction l generalizing a c with
  | nil => exact h
  | cons x l ih =>
      exact ih (hf a c x List.mem_cons_self h) fun a c y hy => hf a c y (List.mem_cons_of_mem x hy)

/-- A loop elsewhere keeps the relation if its rounds do. -/
theorem foldl_out {α : Type} {f : Allocator → α → Allocator} {l : List α} (h : Part g a c)
    (hf : ∀ c x, x ∈ l → Part g a c → Part g a (f c x)) : Part g a (l.foldl f c) := by
  induction l generalizing c with
  | nil => exact h
  | cons x l ih =>
      exact ih (hf c x List.mem_cons_self h) fun c y hy => hf c y (List.mem_cons_of_mem x hy)

/-! ### Housekeeping -/

/-- Housekeeping on both sides. What is left to compare is what it may change. -/
theorem eases (h : Part g a c) (hab : Eases a b) (hcd : Eases c d)
    (hneighbors : ∀ t ∈ g.temps, d.graph.neighbors t = b.graph.neighbors t)
    (hdegree : ∀ t ∈ g.temps, d.graph.degree t = b.graph.degree t)
    (hweight : ∀ t ∈ g.temps, d.graph.weight t = b.graph.weight t)
    (hstatus : ∀ t ∈ g.temps, d.status t = b.status t)
    (hmoves : ∀ i < g.count, d.moveStatuses[g.first + i]? = b.moveStatuses[i]?) : Part g b d where
  part := hab.tidy
  whole := hcd.tidy
  registers := by rw [hab.registers, hcd.registers, h.registers]
  shielded := by rw [hab.shielded, hcd.shielded, h.shielded]
  nodes := by rw [hab.nodes, h.nodes]
  all := by rw [hcd.nodes, h.all]
  size := by rw [hab.moves, h.size]
  moves := by
    rw [hab.moves, hcd.moves]
    exact h.moves
  moves_out := by
    rw [hcd.moves]
    exact h.moves_out
  movesOf t ht index := by
    rw [hab.movesOf, hcd.movesOf]
    exact h.movesOf t ht index
  movesOf_out t ht := by
    rw [hcd.movesOf]
    exact h.movesOf_out t ht
  neighbors := hneighbors
  degree := hdegree
  weight := hweight
  status := hstatus
  moveStatuses := hmoves
  representative t ht := by rw [hab.representative, hcd.representative, h.representative t ht]
  representative_out t ht := by
    rw [hcd.representative]
    exact h.representative_out t ht
  stack := by rw [hab.stack, hcd.stack, h.stack]
  colors t ht := by rw [hab.colors, hcd.colors, h.colors t ht]

/-- Shortening chains, be it those of two different temporaries, does not show. -/
theorem compress (h : Part g a c) (t u : Temp) : Part g (a.compress t) (c.compress u) :=
  h.eases (h.part.eases_compress t) (h.whole.eases_compress u) h.neighbors h.degree h.weight
    h.status
    h.moveStatuses

/-- Shortening a chain of the whole does not show in the region. -/
theorem compress_out (h : Part g a c) (t : Temp) : Part g a (c.compress t) :=
  h.eases (.refl h.part) (h.whole.eases_compress t) h.neighbors h.degree h.weight h.status
    h.moveStatuses

/-- A move of the region gets a new status in both, under its own number in each of them. -/
theorem placeMove (h : Part g a c) (hi : i < g.count) (next : MoveStatus)
    (hnext : next.isPending = true → a.isPending i = true) :
    Part g (a.placeMove i next) (c.placeMove (g.first + i) next) := by
  obtain ⟨hsome, hsome'⟩ := h.isSome_moveStatuses hi
  refine h.eases (h.part.eases_placeMove next hsome hnext)
    (h.whole.eases_placeMove next hsome' fun hpending => (h.isPending hi).trans (hnext hpending))
    h.neighbors h.degree h.weight h.status fun j hj => ?_
  rw [moveStatuses_placeMove, moveStatuses_placeMove, h.moveStatuses j hj]
  simp only [Nat.add_left_cancel_iff]

/-- A new status for a move elsewhere does not show in the region. -/
theorem placeMove_out (h : Part g a c) (hindex : ¬g.Owns index) (next : MoveStatus)
    (hsome : c.moveStatuses[index]?.isSome)
    (hnext : next.isPending = true → c.isPending index = true) :
    Part g a (c.placeMove index next) := by
  refine h.eases (.refl h.part) (h.whole.eases_placeMove next hsome hnext) h.neighbors h.degree
    h.weight h.status fun j hj => ?_
  rw [moveStatuses_placeMove, if_neg fun heq => hindex ⟨j, hj, heq⟩, h.moveStatuses j hj]

/-- The same moves of the region are woken in both. -/
theorem wakeMoves (h : Part g a c) (ht : t ∈ g.temps) : Part g (a.wakeMoves t) (c.wakeMoves t) := by
  have hlt : ∀ i ∈ a.pendingMoves t, i < g.count := fun i => h.lt_of_mem_pendingMoves
  unfold Allocator.wakeMoves
  rw [h.pendingMoves ht, List.foldl_map]
  refine h.foldl fun a c i hi h => ?_
  rw [h.moveStatuses i (hlt i hi)]
  split
  · next hactive =>
    exact h.placeMove (hlt i hi) .worklist fun _ => isPending_iff.mpr (.inr hactive)
  · exact h

/-- Waking the moves of a temporary elsewhere does not show in the region. -/
theorem wakeMoves_out (h : Part g a c) (ht : t ∉ g.temps) : Part g a (c.wakeMoves t) := by
  have hnot : ∀ index ∈ c.pendingMoves t, ¬g.Owns index := fun index =>
    h.not_owns_of_mem_pendingMoves ht
  refine h.foldl_out fun c index hindex h => ?_
  split
  · next hactive =>
    exact h.placeMove_out (hnot index hindex) .worklist (by rw [hactive]; rfl)
      fun _ => isPending_iff.mpr (.inr hactive)
  · exact h

/-- A temporary of the region loses one from its degree in both. -/
theorem lowerDegree (h : Part g a c) (ht : t ∈ g.temps) :
    Part g (a.lowerDegree t) (c.lowerDegree t) := by
  refine h.eases (h.part.eases_lowerDegree t) (h.whole.eases_lowerDegree t) h.neighbors
    (fun x hx => ?_) h.weight h.status h.moveStatuses
  simp only [Allocator.lowerDegree, degree_setDegree, h.degree t ht, h.degree x hx]

/-- A lower degree elsewhere does not show in the region. -/
theorem lowerDegree_out (h : Part g a c) (ht : t ∉ g.temps) : Part g a (c.lowerDegree t) := by
  refine h.eases (.refl h.part) (h.whole.eases_lowerDegree t) h.neighbors
    (fun x hx => ?_) h.weight h.status h.moveStatuses
  have hne : x ≠ t := fun heq => ht (heq ▸ hx)
  simp only [Allocator.lowerDegree, degree_setDegree, if_neg hne, h.degree x hx]

/-- The same moves around a temporary of the region are woken in both. -/
theorem wakeAround (h : Part g a c) (ht : t ∈ g.temps) :
    Part g (a.wakeAround t) (c.wakeAround t) := by
  unfold Allocator.wakeAround
  rw [h.adjacent ht]
  refine h.foldl fun a' c' x hx h' => h'.wakeMoves ?_
  rcases List.mem_cons.mp hx with rfl | hx
  · exact ht
  · exact h.mem_of_mem_adjacent hx

/-- Waking moves around a temporary elsewhere does not show in the region. -/
theorem wakeAround_out (h : Part g a c) (ht : t ∉ g.temps) : Part g a (c.wakeAround t) := by
  refine h.foldl_out fun c' x hx h' => h'.wakeMoves_out ?_
  rcases List.mem_cons.mp hx with rfl | hx
  · exact ht
  · exact h.notMem_of_mem_adjacent ht hx

/-! ### Changing a status -/

/-- A temporary of the region gets the same new status in both, as long as nothing is merged. -/
theorem place (h : Part g a c) (ht : t ∈ g.temps) (next : NodeStatus)
    (hprev : a.status t ≠ .coalesced) (hnext : next ≠ .coalesced) :
    Part g (a.place t next) (c.place t next) := by
  have hprev' : c.status t ≠ .coalesced := by
    rw [h.status t ht]
    exact hprev
  exact { h with
    part := h.part.place (h.mem_nodes ht).1 hprev hnext
    whole := h.whole.place (h.mem_nodes ht).2 hprev' hnext
    status := fun x hx => by rw [status_place, status_place, h.status x hx]
    representative := fun x hx => by
      rw [representative_place hprev hnext, representative_place hprev' hnext,
        h.representative x hx]
    representative_out := fun x hx => by
      rw [representative_place hprev' hnext]
      exact h.representative_out x hx
    -- `t` leaves both stacks, and is pushed on both or on neither.
    stack := by
      rw [h.part.sorted.stack_place, h.whole.sorted.stack_place, ← h.stack, List.filter_filter]
      split
      · simp [ht, List.filter_filter, Bool.and_comm]
      · simp [List.filter_filter, Bool.and_comm] }

/-- A new status for a temporary elsewhere does not show in the region. -/
theorem place_out (h : Part g a c) (ht : t ∉ g.temps) (hall : t ∈ g.all) (next : NodeStatus)
    (hprev : c.status t ≠ .coalesced) (hnext : next ≠ .coalesced) : Part g a (c.place t next) := by
  have hne : ∀ x ∈ g.temps, x ≠ t := fun x hx heq => ht (heq ▸ hx)
  -- Taking `t` off the stack takes nothing of the region off it.
  have hfilter : (c.stack.filter (· ≠ t)).filter (· ∈ g.temps) = a.stack := by
    rw [← h.stack, List.filter_filter]
    refine List.filter_congr fun x _ => ?_
    by_cases hx : x ∈ g.temps
    · simp [hx, hne x hx]
    · simp [hx]
  exact { h with
    whole := h.whole.place (h.all ▸ hall) hprev hnext
    status := fun x hx => by rw [status_place, if_neg (hne x hx).symm, h.status x hx]
    representative := fun x hx => by
      rw [representative_place hprev hnext, h.representative x hx]
    representative_out := fun x hx => by
      rw [representative_place hprev hnext]
      exact h.representative_out x hx
    stack := by
      rw [h.whole.sorted.stack_place]
      split
      · rw [List.filter_cons_of_neg (by simpa using ht), hfilter]
      · exact hfilter }

/-- Only temporaries of the whole have a status. -/
theorem mem_all_of_status (h : Part g a c) {s : NodeStatus} (ht : c.status t = s)
    (hs : s ≠ .initial) : t ∈ g.all := by
  rw [← h.all]
  exact h.whole.mem_nodes_of_status ht hs

/-- A temporary of the region that was one of high degree is sorted alike in both. -/
theorem lighten (h : Part g a c) (ht : t ∈ g.temps) : Part g (a.lighten t) (c.lighten t) := by
  unfold Allocator.lighten
  rw [h.status t ht, h.isMoveRelated ht]
  split
  · next hspill =>
    refine h.place ht _ (by rw [hspill]; decide) ?_
    split <;> decide
  · exact h

/-- Sorting a temporary elsewhere that was one of high degree does not show in the region. -/
theorem lighten_out (h : Part g a c) (ht : t ∉ g.temps) : Part g a (c.lighten t) := by
  unfold Allocator.lighten
  split
  · next hspill =>
    refine h.place_out ht (h.mem_all_of_status hspill (by decide)) _ (by rw [hspill]; decide) ?_
    split <;> decide
  · exact h

/-- The loss of a neighbour within the region has the same consequences in both. -/
theorem loseNeighbor (h : Part g a c) (ht : t ∈ g.temps) :
    Part g (a.loseNeighbor t) (c.loseNeighbor t) := by
  unfold Allocator.loseNeighbor
  rw [h.degree t ht, h.registers]
  split
  · exact h
  · split
    · exact ((h.lowerDegree ht).wakeAround ht).lighten ht
    · exact h.lowerDegree ht

/-- The loss of a neighbour elsewhere has no consequences in the region. -/
theorem loseNeighbor_out (h : Part g a c) (ht : t ∉ g.temps) : Part g a (c.loseNeighbor t) := by
  unfold Allocator.loseNeighbor
  split
  · exact h
  · split
    · exact ((h.lowerDegree_out ht).wakeAround_out ht).lighten_out ht
    · exact h.lowerDegree_out ht

/-- A temporary of the region is released in both or in neither. -/
theorem release (h : Part g a c) (ht : t ∈ g.temps) : Part g (a.release t) (c.release t) := by
  unfold Allocator.release
  rw [h.status t ht, h.isMoveRelated ht, h.isSignificant ht]
  split
  · next hguard =>
    simp only [Bool.and_eq_true, decide_eq_true_eq] at hguard
    exact h.place ht _ (by rw [hguard.1.1]; decide) (by decide)
  · exact h

/-- Releasing a temporary elsewhere does not show in the region. -/
theorem release_out (h : Part g a c) (ht : t ∉ g.temps) : Part g a (c.release t) := by
  unfold Allocator.release
  split
  · next hguard =>
    simp only [Bool.and_eq_true, decide_eq_true_eq] at hguard
    exact h.place_out ht (h.mem_all_of_status hguard.1.1 (by decide)) _ (by rw [hguard.1.1]; decide)
      (by decide)
  · exact h

/-- A temporary of the region that became one of high degree is sorted alike in both. -/
theorem burden (h : Part g a c) (ht : t ∈ g.temps) : Part g (a.burden t) (c.burden t) := by
  unfold Allocator.burden
  rw [h.status t ht, h.isSignificant ht]
  split
  · next hguard =>
    rw [Bool.and_eq_true, decide_eq_true_eq] at hguard
    exact h.place ht _ (by rw [hguard.2]; decide) (by decide)
  · exact h

/-- Sorting a temporary elsewhere that became one of high degree does not show in the region. -/
theorem burden_out (h : Part g a c) (ht : t ∉ g.temps) : Part g a (c.burden t) := by
  unfold Allocator.burden
  split
  · next hguard =>
    rw [Bool.and_eq_true, decide_eq_true_eq] at hguard
    exact h.place_out ht (h.mem_all_of_status hguard.2 (by decide)) _ (by rw [hguard.2]; decide)
      (by decide)
  · exact h

/-! ### Taking a temporary out of the graph -/

/-- Taking a temporary of the region out of both graphs keeps them alike. -/
theorem simplify (h : Part g a c) (ht : t ∈ g.temps) (hstatus : a.status t = .simplify) :
    Part g (a.simplify t) (c.simplify t) := by
  have hpush := h.place ht .onStack (by rw [hstatus]; decide) (by decide)
  unfold Allocator.simplify
  dsimp only
  rw [hpush.adjacent ht]
  exact hpush.foldl fun a c x hx h' => h'.loseNeighbor (hpush.mem_of_mem_adjacent hx)

/-- Taking a temporary elsewhere out of the graph does not show in the region. -/
theorem simplify_out (h : Part g a c) (ht : t ∉ g.temps) (hstatus : c.status t = .simplify) :
    Part g a (c.simplify t) := by
  have hpush := h.place_out ht (h.mem_all_of_status hstatus (by decide)) .onStack
    (by rw [hstatus]; decide) (by decide)
  exact hpush.foldl_out fun c x hx h' => h'.loseNeighbor_out (hpush.notMem_of_mem_adjacent ht hx)

/-! ### Merging two temporaries -/

/-- A temporary of the region interferes with the same ones in both. -/
theorem interferes (h : Part g a c) (hu : u ∈ g.temps) (v : Temp) :
    c.graph.interferes u v = a.graph.interferes u v := by
  rw [Bool.eq_iff_iff, h.whole.sound.interferes_iff, h.part.sound.interferes_iff,
    h.neighbors u hu]

/-- An edge within the region goes into both graphs. -/
theorem addEdge (h : Part g a c) (hu : u ∈ g.temps) (hv : v ∈ g.temps) :
    Part g { a with graph := a.graph.addEdge u v } { c with graph := c.graph.addEdge u v } := by
  have hnew : c.graph.IsNewEdge u v ↔ a.graph.IsNewEdge u v := by
    rw [Interference.IsNewEdge, Interference.IsNewEdge, h.interferes hu]
  refine h.eases (h.part.eases_addEdge (h.mem_nodes hu).1 (h.mem_nodes hv).1)
    (h.whole.eases_addEdge (h.mem_nodes hu).2 (h.mem_nodes hv).2) (fun x hx => ?_) (fun x hx => ?_)
    (fun x hx => ?_) h.status h.moveStatuses
  · refine Std.ExtTreeSet.ext_mem fun y => ?_
    rw [h.whole.sound.mem_neighbors_addEdge, h.part.sound.mem_neighbors_addEdge, h.neighbors x hx]
  · by_cases hedge : a.graph.IsNewEdge u v
    · simp only [Interference.degree_addEdge_of_isNewEdge hedge,
        Interference.degree_addEdge_of_isNewEdge (hnew.mpr hedge), h.degree x hx]
    · simp only [Interference.addEdge_of_not_isNewEdge hedge,
        Interference.addEdge_of_not_isNewEdge fun hcon => hedge (hnew.mp hcon), h.degree x hx]
  · simp only [Interference.weight, Interference.weights_addEdge]
    exact h.weight x hx

/-- An edge elsewhere does not show in the region. -/
theorem addEdge_out (h : Part g a c) (hu : u ∉ g.temps) (hv : v ∉ g.temps) (hu' : u ∈ g.all)
    (hv' : v ∈ g.all) : Part g a { c with graph := c.graph.addEdge u v } := by
  have hne : ∀ x ∈ g.temps, x ≠ u ∧ x ≠ v := fun x hx =>
    ⟨fun heq => hu (heq ▸ hx), fun heq => hv (heq ▸ hx)⟩
  refine h.eases (.refl h.part) (h.whole.eases_addEdge (h.all ▸ hu') (h.all ▸ hv'))
    (fun x hx => ?_) (fun x hx => ?_) (fun x hx => ?_) h.status h.moveStatuses
  · refine Std.ExtTreeSet.ext_mem fun y => ?_
    rw [h.whole.sound.mem_neighbors_addEdge, h.neighbors x hx]
    simp [hne x hx]
  · by_cases hedge : c.graph.IsNewEdge u v
    · simp [Interference.degree_addEdge_of_isNewEdge hedge, hne x hx, h.degree x hx]
    · simp only [Interference.addEdge_of_not_isNewEdge hedge, h.degree x hx]
  · simp only [Interference.weight, Interference.weights_addEdge]
    exact h.weight x hx

/-- A neighbour within the region is taken over alike in both. -/
theorem takeOver (h : Part g a c) (hu : u ∈ g.temps) (hx : x ∈ g.temps) :
    Part g (a.takeOver u x) (c.takeOver u x) :=
  (h.addEdge hx hu).loseNeighbor hx

/-- A neighbour elsewhere that is taken over does not show in the region. -/
theorem takeOver_out (h : Part g a c) (hu : u ∉ g.temps) (hx : x ∉ g.temps) (hu' : u ∈ g.all)
    (hx' : x ∈ g.all) : Part g a (c.takeOver u x) :=
  (h.addEdge_out hx hu hx' hu').loseNeighbor_out hx

/-- Letting one temporary of the region stand for another keeps the two states alike. -/
theorem join (h : Part g a c) (hu : u ∈ g.temps) (hv : v ∈ g.temps)
    (hu' : a.status u ≠ .coalesced) (hv' : a.status v ≠ .coalesced) (hne : u ≠ v) :
    Part g (a.join u v) (c.join u v) := by
  obtain ⟨hsteps, hrep⟩ := h.part.steps_join (h.mem_nodes hu).1 (h.mem_nodes hv).1 hu' hv' hne
  rw [← h.status u hu] at hu'
  rw [← h.status v hv] at hv'
  obtain ⟨hsteps', hrep'⟩ := h.whole.steps_join (h.mem_nodes hu).2 (h.mem_nodes hv).2 hu' hv' hne
  exact { h with
    part := hsteps.tidy
    whole := hsteps'.tidy
    movesOf := fun t ht index => by
      simp only [Linked.mem_movesOf_join, h.movesOf t ht, h.movesOf v hv]
      grind
    movesOf_out := fun t ht index hindex => by
      rw [Linked.mem_movesOf_join] at hindex
      rcases hindex with hindex | ⟨rfl, -⟩
      · exact h.movesOf_out t ht index hindex
      · exact absurd hu ht
    status := fun x hx => by rw [Tidy.status_join, Tidy.status_join, h.status x hx]
    representative := fun x hx => by rw [hrep, hrep', h.representative x hx]
    representative_out := fun x hx => by
      -- What stands for another temporary is not `v`.
      have hout := h.representative_out x hx
      have hdiff : c.representative x ≠ v := fun heq => hout (heq ▸ hv)
      rw [hrep', if_neg hdiff]
      exact hout
    stack := by
      show (c.place v .coalesced).stack.filter _ = (a.place v .coalesced).stack
      rw [h.part.sorted.stack_place, h.whole.sorted.stack_place, ← h.stack, if_neg (by decide),
        if_neg (by decide), List.filter_filter, List.filter_filter]
      simp only [Bool.and_comm] }

/-- Letting one temporary elsewhere stand for another does not show in the region. -/
theorem join_out (h : Part g a c) (hu : u ∉ g.temps) (hv : v ∉ g.temps) (hu' : u ∈ g.all)
    (hv' : v ∈ g.all) (hstatus : c.status u ≠ .coalesced) (hstatus' : c.status v ≠ .coalesced)
    (hne : u ≠ v) : Part g a (c.join u v) := by
  obtain ⟨hsteps, hrep⟩ :=
    h.whole.steps_join (h.all ▸ hu') (h.all ▸ hv') hstatus hstatus' hne
  have hdiff : ∀ x ∈ g.temps, x ≠ u ∧ x ≠ v := fun x hx =>
    ⟨fun heq => hu (heq ▸ hx), fun heq => hv (heq ▸ hx)⟩
  exact { h with
    whole := hsteps.tidy
    movesOf := fun t ht index => by
      rw [Linked.mem_movesOf_join, ← h.movesOf t ht]
      simp [(hdiff t ht).1]
    movesOf_out := fun t ht index hindex => by
      rw [Linked.mem_movesOf_join] at hindex
      rcases hindex with hindex | ⟨-, hindex⟩
      · exact h.movesOf_out t ht index hindex
      · exact h.movesOf_out v hv index hindex
    status := fun x hx => by
      rw [Tidy.status_join, if_neg (hdiff x hx).2.symm, h.status x hx]
    -- A representative of the region is in the region, so it is not `v`.
    representative := fun x hx => by
      have hmem := h.representative_mem hx
      rw [hrep, h.representative x hx, if_neg (hdiff _ hmem).2]
    representative_out := fun x hx => by
      rw [hrep]
      split
      · exact hu
      · exact h.representative_out x hx
    stack := by
      show (c.place v .coalesced).stack.filter _ = a.stack
      rw [h.whole.sorted.stack_place, if_neg (by decide), ← h.stack, List.filter_filter]
      refine List.filter_congr fun x _ => ?_
      by_cases hx : x ∈ g.temps
      · simp [hx, (hdiff x hx).2]
      · simp [hx] }

/-- Moves and neighbours are handed over alike within the region. -/
theorem absorb (h : Part g a c) (hu : u ∈ g.temps) (hv : v ∈ g.temps)
    (hu' : a.status u ≠ .coalesced) (hv' : a.status v ≠ .coalesced) (hne : u ≠ v) :
    Part g (a.absorb u v) (c.absorb u v) := by
  have hwoken := (h.join hu hv hu' hv' hne).wakeMoves hv
  unfold Allocator.absorb
  dsimp only
  rw [hwoken.adjacent hv]
  exact hwoken.foldl fun a c x hx h' => h'.takeOver hu (hwoken.mem_of_mem_adjacent hx)

/-- Moves and neighbours that are handed over elsewhere do not show in the region. -/
theorem absorb_out (h : Part g a c) (hu : u ∉ g.temps) (hv : v ∉ g.temps) (hu' : u ∈ g.all)
    (hv' : v ∈ g.all) (hstatus : c.status u ≠ .coalesced) (hstatus' : c.status v ≠ .coalesced)
    (hne : u ≠ v) : Part g a (c.absorb u v) := by
  have hwoken := (h.join_out hu hv hu' hv' hstatus hstatus' hne).wakeMoves_out hv
  refine hwoken.foldl_out fun c x hx h' =>
    h'.takeOver_out hu (hwoken.notMem_of_mem_adjacent hv hx) hu' ?_
  rw [← hwoken.all]
  exact hwoken.whole.mem_nodes_of_mem_adjacent hx

/-- A merge within the region keeps the two states alike. -/
theorem merge (h : Part g a c) (hu : u ∈ g.temps) (hv : v ∈ g.temps)
    (hu' : a.status u ≠ .coalesced) (hv' : a.status v ≠ .coalesced) (hne : u ≠ v) :
    Part g (a.merge u v) (c.merge u v) :=
  (h.absorb hu hv hu' hv' hne).burden hu

/-- A merge elsewhere does not show in the region. -/
theorem merge_out (h : Part g a c) (hu : u ∉ g.temps) (hv : v ∉ g.temps) (hu' : u ∈ g.all)
    (hv' : v ∈ g.all) (hstatus : c.status u ≠ .coalesced) (hstatus' : c.status v ≠ .coalesced)
    (hne : u ≠ v) : Part g a (c.merge u v) :=
  (h.absorb_out hu hv hu' hv' hstatus hstatus' hne).burden_out hu

/-! ### Giving up moves -/

/-- A move of the region is given up in both, under its own number in each of them. -/
theorem freezeMove (h : Part g a c) (root : Temp) (hi : i < g.count) :
    Part g (a.freezeMove root i) (c.freezeMove root (g.first + i)) := by
  unfold Allocator.freezeMove
  rw [h.moves i hi]
  cases hm : a.graph.moves[i]? with
  | none => exact h
  | some m =>
      obtain ⟨hdst, hsrc⟩ := h.ends_mem hm
      dsimp only
      rw [h.representative m.src hsrc]
      have hother : (if a.representative m.src = root then m.dst else m.src) ∈ g.temps := by
        split
        · exact hdst
        · exact hsrc
      rw [h.representative _ hother]
      have hshort := (h.compress m.src m.src).compress
      exact ((hshort _ _).placeMove hi .frozen nofun).release (h.representative_mem hother)

/-- Giving up a move elsewhere does not show in the region. -/
theorem freezeMove_out (h : Part g a c) (root : Temp) (hindex : ¬g.Owns index) :
    Part g a (c.freezeMove root index) := by
  unfold Allocator.freezeMove
  cases hm : c.graph.moves[index]? with
  | none => exact h
  | some m =>
      obtain ⟨hdst, hsrc⟩ := h.moves_out index m hm hindex
      have hsome : c.moveStatuses[index]?.isSome := by
        have hlt := (Array.getElem?_eq_some_iff.mp hm).1
        rw [← h.whole.queued.size_eq] at hlt
        simp [hlt]
      have hshort := (h.compress_out m.src).compress_out
      refine ((hshort _).placeMove_out hindex .frozen hsome nofun).release_out ?_
      split
      · exact h.representative_out m.dst hdst
      · exact h.representative_out m.src hsrc

/-- The same moves of a temporary of the region are given up in both. -/
theorem freezeMoves (h : Part g a c) (ht : t ∈ g.temps) :
    Part g (a.freezeMoves t) (c.freezeMoves t) := by
  have hlt : ∀ i ∈ a.pendingMoves t, i < g.count := fun i => h.lt_of_mem_pendingMoves
  unfold Allocator.freezeMoves
  rw [h.pendingMoves ht, h.representative t ht, List.foldl_map]
  exact (h.compress t t).foldl fun a c i hi h' => h'.freezeMove _ (hlt i hi)

/-- Giving up the moves of a temporary elsewhere does not show in the region. -/
theorem freezeMoves_out (h : Part g a c) (ht : t ∉ g.temps) : Part g a (c.freezeMoves t) :=
  (h.compress_out t).foldl_out fun _ _ hindex h' =>
    h'.freezeMove_out _ (h.not_owns_of_mem_pendingMoves ht hindex)

/-! ### Actions -/

/-- Looking at a move of the region, as the first part of four actions. -/
theorem settleMove (h : Part g a c) (hi : i ∈ a.waiting) (m : Move) (next : MoveStatus) :
    Part g ((a.compressEnds m).placeMove i next)
      ((c.compressEnds m).placeMove (g.first + i) next) := by
  have hpending : a.isPending i = true :=
    isPending_iff.mpr (.inl ((h.part.queued.mem_waiting i).mp hi))
  have hshort := (h.compress m.dst m.dst).compress m.src m.src
  exact hshort.placeMove (h.lt_of_isPending hpending) next fun _ => hpending

/-- Settling a waiting move elsewhere does not show in the region. -/
theorem settleMove_out (h : Part g a c) (hindex : index ∈ c.waiting) (hout : ¬g.Owns index)
    (m : Move) (next : MoveStatus) : Part g a ((c.compressEnds m).placeMove index next) := by
  have hpending : c.isPending index = true :=
    isPending_iff.mpr (.inl ((h.whole.queued.mem_waiting index).mp hindex))
  have hshort := (h.compress_out m.dst).compress_out m.src
  exact hshort.placeMove_out hout next (h.whole.isSome_of_mem_waiting hindex) fun _ => hpending

/-- An action of the region is taken on both sides. -/
theorem perform (h : Part g a c) {action : Action} (haction : a.Enabled action) :
    Part g (a.perform action) (c.perform (action.shift g.first)) := by
  have hmem : ∀ {t s}, a.status t = s → s ≠ .initial → t ∈ g.temps := by
    intro t s ht hs
    rw [← h.nodes]
    exact h.part.mem_nodes_of_status ht hs
  -- Two actions are a change of status, followed by giving up moves.
  have hfreeze : ∀ {t}, a.status t = .freeze ∨ a.status t = .spill →
      Part g ((a.place t .simplify).freezeMoves t) ((c.place t .simplify).freezeMoves t) := by
    intro t ht
    have htemp : t ∈ g.temps := by
      rcases ht with ht | ht
      · exact hmem ht (by decide)
      · exact hmem ht (by decide)
    refine (h.place htemp .simplify ?_ (by decide)).freezeMoves htemp
    rcases ht with ht | ht <;> rw [ht] <;> decide
  cases haction with
  | simplify ht => exact h.simplify (hmem ht (by decide)) ht
  | @join i m hi hm heq =>
      exact (h.settleMove hi m .coalesced).release (h.representative_mem (h.ends_mem hm).1)
  | @constrain i m hi hm =>
      have hdst := (h.settleMove hi m .constrained).release (h.representative_mem (h.ends_mem hm).1)
      exact hdst.release (h.representative_mem (h.ends_mem hm).2)
  | @merge i m hi hm hne hapart htest =>
      obtain ⟨⟨-, hu'⟩, -, hv'⟩ := h.part.representative_ends hm
      have hu := h.representative_mem (h.ends_mem hm).1
      have hv := h.representative_mem (h.ends_mem hm).2
      exact ((h.settleMove hi m .coalesced).merge hu hv hu' hv' hne).release hu
  | @postpone i m hi hm => exact h.settleMove hi m .active
  | freeze ht => exact hfreeze (.inl ht)
  | spill ht _ _ _ => exact hfreeze (.inr ht)

/-- Nothing is seen of an action that is taken elsewhere. -/
theorem perform_out (h : Part g a c) {action : Action} (haction : c.Enabled action)
    (hout : action.Outside g) : Part g a (c.perform action) := by
  have hfreeze : ∀ {t}, c.status t = .freeze ∨ c.status t = .spill → t ∉ g.temps →
      Part g a ((c.place t .simplify).freezeMoves t) := by
    intro t ht htemp
    have hall : t ∈ g.all := by
      rcases ht with ht | ht
      · exact h.mem_all_of_status ht (by decide)
      · exact h.mem_all_of_status ht (by decide)
    refine (h.place_out htemp hall .simplify ?_ (by decide)).freezeMoves_out htemp
    rcases ht with ht | ht <;> rw [ht] <;> decide
  -- What represents the ends of a move elsewhere is elsewhere.
  have hends : ∀ {index m}, ¬g.Owns index → c.graph.moves[index]? = some m →
      c.representative m.dst ∉ g.temps ∧ c.representative m.src ∉ g.temps := by
    intro index m hindex hm
    obtain ⟨hdst, hsrc⟩ := h.moves_out index m hm hindex
    exact ⟨h.representative_out _ hdst, h.representative_out _ hsrc⟩
  cases haction with
  | simplify ht => exact h.simplify_out hout ht
  | @join index m hindex hm heq =>
      exact (h.settleMove_out hindex hout m .coalesced).release_out (hends hout hm).1
  | @constrain index m hindex hm =>
      have hdst := (h.settleMove_out hindex hout m .constrained).release_out (hends hout hm).1
      exact hdst.release_out (hends hout hm).2
  | @merge index m hindex hm hne hapart htest =>
      obtain ⟨⟨hu, hu'⟩, hv, hv'⟩ := h.whole.representative_ends hm
      obtain ⟨hdst, hsrc⟩ := hends hout hm
      have hmerge := (h.settleMove_out hindex hout m .coalesced).merge_out hdst hsrc (h.all ▸ hu)
        (h.all ▸ hv) hu' hv' hne
      exact hmerge.release_out hdst
  | @postpone index m hindex hm => exact h.settleMove_out hindex hout m .active
  | freeze ht => exact hfreeze (.inl ht) hout
  | spill ht _ _ _ => exact hfreeze (.inr ht) hout

end Part

end Allocator

end MmixCodegen
