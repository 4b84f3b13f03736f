import MmixCodegen.Allocator.Action
import MmixCodegen.Proofs.Allocator.Alias
import MmixCodegen.Proofs.Allocator.Partition

/-!
# `MmixCodegen.Proofs.Allocator.Ease`: what changes besides the graph

Taking temporaries out of the graph and merging them is what an allocation is
about. Everything else that its actions do is housekeeping: moves are woken up,
put aside or given up, chains of merges are shortened, degrees are lowered, and
temporaries come closer to being simplified.

`Eases a b` says all that housekeeping can do to a state, edges and degrees
apart. It composes (`Eases.trans`, `Eases.foldl`), and each operation that does
nothing else has a lemma: `Tidy.eases_loseNeighbor`, `Tidy.eases_takeOver`,
`Tidy.eases_release`, `Tidy.eases_compress`, `Tidy.eases_placeMove` and
`Tidy.eases_freezeMoves`.
-/

set_option autoImplicit false

namespace MmixCodegen

/-- A temporary keeps its status or comes closer to being simplified. -/
def NodeStatus.Eases (s s' : NodeStatus) : Prop :=
  s' = s ∨ (s = .spill ∧ s' = .freeze) ∨ ((s = .spill ∨ s = .freeze) ∧ s' = .simplify)

instance (s s' : NodeStatus) : Decidable (s.Eases s') :=
  inferInstanceAs (Decidable (_ ∨ _))

/-- Coming closer to being simplified in two steps is coming closer. -/
theorem NodeStatus.Eases.trans {s s' s'' : NodeStatus} (h : s.Eases s') (h' : s'.Eases s'') :
    s.Eases s'' := by
  unfold NodeStatus.Eases at h h' ⊢
  rcases h with rfl | ⟨rfl, rfl⟩ | ⟨hs, rfl⟩
  · exact h'
  · rcases h' with rfl | ⟨hs, -⟩ | ⟨-, rfl⟩
    · exact Or.inr (Or.inl ⟨rfl, rfl⟩)
    · cases hs
    · exact Or.inr (Or.inr ⟨Or.inl rfl, rfl⟩)
  · rcases h' with rfl | ⟨hs', -⟩ | ⟨hs', -⟩
    · exact Or.inr (Or.inr ⟨hs, rfl⟩)
    · cases hs'
    · rcases hs' with h | h <;> cases h

namespace Allocator

/-- Everything is in place, and the chains of merges are sound. -/
structure Tidy (a : Allocator) : Prop where
  sound : a.graph.Sound
  closed : a.graph.Closed
  sorted : a.Sorted
  aliased : a.Aliased
  queued : a.Queued
  representative_mem : ∀ t ∈ a.graph.nodes, a.representative t ∈ a.graph.nodes

/-- `b` comes from `a` by housekeeping, and possibly by adding edges and changing degrees. -/
structure Eases (a b : Allocator) : Prop where
  tidy : b.Tidy
  registers : b.registers = a.registers
  shielded : b.shielded = a.shielded
  nodes : b.graph.nodes = a.graph.nodes
  moves : b.graph.moves = a.graph.moves
  moveIndex : b.graph.moveIndex = a.graph.moveIndex
  stack : b.stack = a.stack
  colors : b.colors = a.colors
  representative : ∀ t, b.representative t = a.representative t
  isPending : ∀ index, b.isPending index = true → a.isPending index = true
  status : ∀ t, (a.status t).Eases (b.status t)
  /-- What can be simplified now but could not be before is in no pending move. -/
  idle : ∀ t, b.status t = .simplify → a.status t = .simplify ∨ b.isMoveRelated t = false

/-- A temporary is related by moves just if one on its list is pending. -/
theorem isMoveRelated_iff {a : Allocator} {t : Temp} :
    a.isMoveRelated t = true ↔ ∃ index ∈ a.graph.movesOf t, a.isPending index = true := by
  simp only [isMoveRelated, pendingMoves, Bool.not_eq_true', List.isEmpty_eq_false_iff, ne_eq,
    List.filter_eq_nil_iff, Std.ExtTreeSet.mem_toList]
  push Not
  rfl

/-- A temporary is not related by moves just if none on its list is pending. -/
theorem not_isMoveRelated_iff {a : Allocator} {t : Temp} :
    a.isMoveRelated t = false ↔ ∀ index ∈ a.graph.movesOf t, a.isPending index = false := by
  rw [← Bool.not_eq_true, isMoveRelated_iff]
  push Not
  simp

namespace Eases

variable {a b c : Allocator} {t : Temp}

/-- Housekeeping leaves alone which moves a temporary takes part in. -/
theorem movesOf (h : Eases a b) (t : Temp) : b.graph.movesOf t = a.graph.movesOf t := by
  rw [Interference.movesOf, Interference.movesOf, h.moveIndex]

/-- Housekeeping makes no move pending, so what had none pending still has none. -/
theorem isMoveRelated (h : Eases a b) (ht : a.isMoveRelated t = false) :
    b.isMoveRelated t = false := by
  rw [not_isMoveRelated_iff] at ht ⊢
  intro index hindex
  rw [h.movesOf] at hindex
  by_contra hpending
  rw [Bool.not_eq_false] at hpending
  have hold := ht index hindex
  rw [h.isPending index hpending] at hold
  cases hold

/-- Doing nothing is housekeeping. -/
theorem refl (h : a.Tidy) : Eases a a where
  tidy := h
  registers := rfl
  shielded := rfl
  nodes := rfl
  moves := rfl
  moveIndex := rfl
  stack := rfl
  colors := rfl
  representative _ := rfl
  isPending _ := id
  status _ := Or.inl rfl
  idle _ := Or.inl

/-- Housekeeping in two steps is housekeeping. -/
theorem trans (h : Eases a b) (h' : Eases b c) : Eases a c where
  tidy := h'.tidy
  registers := h'.registers.trans h.registers
  shielded := h'.shielded.trans h.shielded
  nodes := h'.nodes.trans h.nodes
  moves := h'.moves.trans h.moves
  moveIndex := h'.moveIndex.trans h.moveIndex
  stack := h'.stack.trans h.stack
  colors := h'.colors.trans h.colors
  representative t := (h'.representative t).trans (h.representative t)
  isPending index hindex := h.isPending index (h'.isPending index hindex)
  status t := (h.status t).trans (h'.status t)
  idle := by
    intro t ht
    rcases h'.idle t ht with hb | hc
    · rcases h.idle t hb with ha | hb
      · exact Or.inl ha
      · exact Or.inr (h'.isMoveRelated hb)
    · exact Or.inr hc

/-- Housekeeping for each member of a list. -/
theorem foldl {α : Type} {f : Allocator → α → Allocator}
    (hf : ∀ a x, a.Tidy → Eases a (f a x)) (h : a.Tidy) (l : List α) : Eases a (l.foldl f a) := by
  induction l generalizing a with
  | nil => exact refl h
  | cons x l ih =>
      have hfirst := hf a x h
      exact hfirst.trans (ih hfirst.tidy)

end Eases

/-! ### Changing a status -/

/-- A change between statuses other than `coalesced` merges nothing and separates nothing. -/
theorem coalesced_place {a : Allocator} {t : Temp} {next : NodeStatus}
    (hprev : a.status t ≠ .coalesced) (hnext : next ≠ .coalesced) (x : Temp) :
    (a.place t next).status x = .coalesced ↔ a.status x = .coalesced := by
  rw [status_place]
  split
  · next heq =>
    subst heq
    exact ⟨fun h => absurd h hnext, fun h => absurd h hprev⟩
  · rfl

/-- Such a change leaves alone what a temporary stands for. -/
theorem representative_place {a : Allocator} {t : Temp} {next : NodeStatus}
    (hprev : a.status t ≠ .coalesced) (hnext : next ≠ .coalesced) (x : Temp) :
    (a.place t next).representative x = a.representative x := by
  have haliases : (a.place t next).aliases = a.aliases := rfl
  exact representative_congr haliases (coalesced_place hprev hnext) x

/-- Such a change keeps the chains of merges sound. -/
theorem Aliased.place {a : Allocator} {t : Temp} {next : NodeStatus} (h : a.Aliased)
    (hprev : a.status t ≠ .coalesced) (hnext : next ≠ .coalesced) : (a.place t next).Aliased :=
  h.congr rfl (coalesced_place hprev hnext)

namespace Tidy

variable {a : Allocator} {t : Temp}

/-- Such a change keeps a state tidy. -/
theorem place (h : a.Tidy) {next : NodeStatus} (ht : t ∈ a.graph.nodes)
    (hprev : a.status t ≠ .coalesced) (hnext : next ≠ .coalesced) : (a.place t next).Tidy where
  sound := h.sound
  closed := h.closed
  sorted := h.sorted.place ht next
  aliased := h.aliased.place hprev hnext
  queued := h.queued.congr rfl rfl rfl rfl
  representative_mem := by
    intro x hx
    rw [representative_place hprev hnext]
    exact h.representative_mem x hx

/-- A temporary of high degree, or in a pending move, comes closer to being simplified. -/
theorem eases_place (h : a.Tidy) {next : NodeStatus}
    (hprev : a.status t = .spill ∨ a.status t = .freeze)
    (hnext : next = .freeze ∧ a.status t = .spill ∨
      next = .simplify ∧ a.isMoveRelated t = false) : Eases a (a.place t next) := by
  have hmerged : a.status t ≠ .coalesced := by
    rcases hprev with h | h <;> rw [h] <;> decide
  have hmem : t ∈ a.graph.nodes := by
    refine h.sorted.mem_nodes t ?_
    rcases hprev with h | h <;> rw [h] <;> decide
  have hstack : t ∉ a.stack := by
    rw [h.sorted.mem_stack]
    rcases hprev with h | h <;> rw [h] <;> decide
  have hnext' : next ≠ .coalesced ∧ next ≠ .onStack := by
    rcases hnext with ⟨rfl, -⟩ | ⟨rfl, -⟩ <;> decide
  refine ⟨h.place hmem hmerged hnext'.1, rfl, rfl, rfl, rfl, rfl, ?_, rfl,
    representative_place hmerged hnext'.1, fun _ => id, ?_, ?_⟩
  -- `t` was not on the stack and does not get there.
  · rw [h.sorted.stack_place, if_neg hnext'.2, List.filter_eq_self]
    intro x hx
    have hne : x ≠ t := fun heq => hstack (heq ▸ hx)
    simpa using hne
  · intro x
    rw [status_place]
    split
    · next heq =>
      subst heq
      rcases hnext with ⟨rfl, hspill⟩ | ⟨rfl, -⟩
      · exact Or.inr (Or.inl ⟨hspill, rfl⟩)
      · exact Or.inr (Or.inr ⟨hprev, rfl⟩)
    · exact Or.inl rfl
  -- Only `t` can have become ready to be simplified, and it is in no pending move.
  · intro x hx
    rw [status_place] at hx
    split at hx
    · next heq =>
      subst heq
      rcases hnext with ⟨rfl, -⟩ | ⟨-, hidle⟩
      · cases hx
      · exact Or.inr hidle
    · exact Or.inl hx

/-! ### Moves, chains and degrees -/

/-- Housekeeping that leaves the temporaries and the chains alone. -/
theorem eases_of_eq {b : Allocator} (h : a.Tidy) (hsound : b.graph.Sound) (hclosed : b.graph.Closed)
    (hnodes : b.graph.nodes = a.graph.nodes) (hmoves : b.graph.moves = a.graph.moves)
    (hindex : b.graph.moveIndex = a.graph.moveIndex) (hregisters : b.registers = a.registers)
    (hshielded : b.shielded = a.shielded) (hstatuses : b.statuses = a.statuses)
    (hsets : b.sets = a.sets) (hstack : b.stack = a.stack) (haliases : b.aliases = a.aliases)
    (hcolors : b.colors = a.colors) (hqueued : b.Queued)
    (hpending : ∀ index, b.isPending index = true → a.isPending index = true) : Eases a b := by
  have hstatus : ∀ t, b.status t = a.status t := fun t => by rw [status, status, hstatuses]
  have hrep : ∀ t, b.representative t = a.representative t :=
    representative_congr haliases fun t => by rw [hstatus]
  have htidy : b.Tidy := by
    refine ⟨hsound, hclosed, h.sorted.congr hsets hstack hstatuses hnodes,
      h.aliased.congr haliases fun t => by rw [hstatus], hqueued, ?_⟩
    intro t ht
    rw [hrep, hnodes]
    exact h.representative_mem t (hnodes ▸ ht)
  exact ⟨htidy, hregisters, hshielded, hnodes, hmoves, hindex, hstack, hcolors, hrep, hpending,
    fun t => Or.inl (hstatus t), fun t ht => Or.inl (hstatus t ▸ ht)⟩

/-- Changing the status of a move, as long as no settled move is revived. -/
theorem eases_placeMove (h : a.Tidy) {index : Nat} (next : MoveStatus)
    (hindex : a.moveStatuses[index]?.isSome)
    (hnext : next.isPending = true → a.isPending index = true) :
    Eases a (a.placeMove index next) := by
  refine h.eases_of_eq h.sound h.closed rfl rfl rfl rfl rfl rfl rfl rfl rfl rfl
    (h.queued.placeMove hindex next) ?_
  intro other hpending
  unfold Allocator.isPending at hpending hnext ⊢
  rw [moveStatuses_placeMove] at hpending
  split at hpending
  · next heq =>
    subst heq
    obtain ⟨prev, hprev⟩ := Option.isSome_iff_exists.mp hindex
    rw [hprev] at hpending
    exact hnext (by simpa using hpending)
  · exact hpending

/-- Waking moves is housekeeping. -/
theorem eases_wakeMoves (h : a.Tidy) (t : Temp) : Eases a (a.wakeMoves t) := by
  refine Eases.foldl (fun a index h => ?_) h _
  split
  · next hactive =>
    exact h.eases_placeMove .worklist (by rw [hactive]; rfl)
      fun _ => isPending_iff.mpr (Or.inr hactive)
  · exact Eases.refl h

/-- Shortening a chain is housekeeping. -/
theorem eases_compress (h : a.Tidy) (t : Temp) : Eases a (a.compress t) := by
  refine ⟨⟨h.sound, h.closed, h.sorted.congr rfl rfl rfl rfl, h.aliased.compress t,
    h.queued.congr rfl rfl rfl rfl, ?_⟩, rfl, rfl, rfl, rfl, rfl, rfl, rfl,
    h.aliased.representative_compress t, fun _ => id, fun _ => Or.inl rfl, fun _ => Or.inl⟩
  intro x hx
  rw [h.aliased.representative_compress t]
  exact h.representative_mem x hx

/-- Lowering a degree is housekeeping. -/
theorem eases_lowerDegree (h : a.Tidy) (t : Temp) : Eases a (a.lowerDegree t) :=
  h.eases_of_eq (h.sound.of_eq rfl rfl) ⟨h.closed.neighbors_subset, h.closed.ends_mem⟩
    rfl rfl rfl rfl rfl rfl rfl rfl rfl rfl (h.queued.congr rfl rfl rfl rfl) fun _ => id

/-- Adding an edge between nodes. -/
theorem eases_addEdge (h : a.Tidy) {u v : Temp} (hu : u ∈ a.graph.nodes) (hv : v ∈ a.graph.nodes) :
    Eases a { a with graph := a.graph.addEdge u v } := by
  refine h.eases_of_eq (h.sound.addEdge u v) ⟨?_, ?_⟩ (by simp) (by simp)
    (by simp) rfl rfl rfl rfl rfl
    rfl rfl (h.queued.congr rfl rfl rfl (by simp)) fun _ => id
  · intro t x hx
    rw [Interference.nodes_addEdge]
    rcases (h.sound.mem_neighbors_addEdge u v t x).mp hx with hx | ⟨-, ⟨-, rfl⟩ | ⟨-, rfl⟩⟩
    · exact h.closed.neighbors_subset t x hx
    · exact hv
    · exact hu
  · intro index m hm
    rw [Interference.nodes_addEdge]
    exact h.closed.ends_mem index m (by simpa using hm)

/-! ### The operations -/

/-- A temporary is released only if none of its moves is pending, so this is housekeeping. -/
theorem eases_release (h : a.Tidy) (t : Temp) : Eases a (a.release t) := by
  unfold release
  split
  · next hguard =>
    simp only [Bool.and_eq_true, decide_eq_true_eq, Bool.not_eq_true'] at hguard
    exact h.eases_place (Or.inr hguard.1.1) (Or.inr ⟨rfl, hguard.1.2⟩)
  · exact Eases.refl h

/-- Waking the moves around a temporary is housekeeping. -/
theorem eases_wakeAround (h : a.Tidy) (t : Temp) : Eases a (a.wakeAround t) :=
  Eases.foldl (fun _ x h => h.eases_wakeMoves x) h _

/-- Sorting a temporary that was one of high degree is housekeeping. -/
theorem eases_lighten (h : a.Tidy) (t : Temp) : Eases a (a.lighten t) := by
  unfold lighten
  split
  · next hspill =>
    refine h.eases_place (Or.inl hspill) ?_
    split
    · exact Or.inl ⟨rfl, hspill⟩
    · next hidle => exact Or.inr ⟨rfl, by simpa using hidle⟩
  · exact Eases.refl h

/-- All consequences of the loss of a neighbour are housekeeping. -/
theorem eases_loseNeighbor (h : a.Tidy) (t : Temp) : Eases a (a.loseNeighbor t) := by
  have hlowered := h.eases_lowerDegree t
  have hwoken := hlowered.trans (hlowered.tidy.eases_wakeAround t)
  unfold loseNeighbor
  split
  · exact Eases.refl h
  · split
    · exact hwoken.trans (hwoken.tidy.eases_lighten t)
    · exact hlowered

/-- Taking over a neighbour is housekeeping, since edges and degrees are left open. -/
theorem eases_takeOver (h : a.Tidy) {u n : Temp} (hu : u ∈ a.graph.nodes) (hn : n ∈ a.graph.nodes) :
    Eases a (a.takeOver u n) := by
  have hedge := h.eases_addEdge hn hu
  exact hedge.trans (hedge.tidy.eases_loseNeighbor n)

/-- Giving up a move, before its other end is looked at. -/
theorem eases_giveUp (h : a.Tidy) {index : Nat} {m : Move} (hm : a.graph.moves[index]? = some m)
    (other : Temp) : Eases a (((a.compress m.src).compress other).placeMove index .frozen) := by
  have hshort := (h.eases_compress m.src).trans ((h.eases_compress m.src).tidy.eases_compress other)
  have hsome : a.moveStatuses[index]?.isSome := by
    have hlt := (Array.getElem?_eq_some_iff.mp hm).1
    rw [← h.queued.size_eq] at hlt
    simp [hlt]
  exact hshort.trans (hshort.tidy.eases_placeMove .frozen hsome nofun)

/-- Giving up a move is housekeeping. -/
theorem eases_freezeMove (h : a.Tidy) (root : Temp) (index : Nat) :
    Eases a (a.freezeMove root index) := by
  unfold freezeMove
  split
  · exact Eases.refl h
  · next m hm =>
    have hplaced := h.eases_giveUp hm
    exact (hplaced _).trans ((hplaced _).tidy.eases_release _)

/-- Giving up all moves of a temporary is housekeeping. -/
theorem eases_freezeMoves (h : a.Tidy) (t : Temp) : Eases a (a.freezeMoves t) := by
  have hshort := h.eases_compress t
  exact hshort.trans (Eases.foldl (fun a index h => h.eases_freezeMove _ index) hshort.tidy _)

/-- Shortening the chains of both ends of a move is housekeeping. -/
theorem eases_compressEnds (h : a.Tidy) (m : Move) : Eases a (a.compressEnds m) :=
  (h.eases_compress m.dst).trans ((h.eases_compress m.dst).tidy.eases_compress m.src)

end Tidy

end Allocator

end MmixCodegen
