import MmixCodegen.Proofs.Allocator.Reuse

/-!
# `MmixCodegen.Proofs.Allocator.Termination`: every round comes to rest

A round takes actions until all four worklists are empty (`AtRest`). Moves that were put aside
may have to be looked at again, and a merge can turn a temporary of low degree into one of high
degree, so no worklist shrinks from action to action. What does shrink is the potential of the
state, in a tidy state by `Tidy.potential_perform`.

An allocator that was used before need not be tidy: moves that an earlier round put aside are
still in their set, although all moves wait again. No decision looks at that set, and this is
what `Alike` is for: states that differ in nothing else take the same actions
(`Alike.next?_eq`, `Alike.perform`), so one of them comes to rest if the other one does.
`rounds_come_to_rest` then holds after any rounds before.
-/

set_option autoImplicit false

namespace MmixCodegen

namespace Allocator

variable {a b c : Allocator} {actions : List Action}

/-! ### Empty worklists -/

/-- There is no temporary to simplify, to freeze or to spill, and no move to look at. -/
structure AtRest (a : Allocator) : Prop where
  simplify : a.sets.simplify = ∅
  waiting : a.waiting = ∅
  freeze : a.sets.freeze = ∅
  spill : a.sets.spill = ∅

/-- There is nothing to spill just if there are no candidates. -/
theorem spillAction?_eq_none : a.spillAction? = none ↔ a.sets.spill = ∅ := by
  have hlist : a.sets.spill = ∅ ↔ a.sets.spill.toList = [] := by simp
  rw [hlist, spillAction?]
  constructor
  · intro hnone
    split at hnone
    · cases hnone
    · rwa [Option.map_eq_none_iff, heaviest?_eq_none] at hnone
  · intro hempty
    simp [hempty, heaviest?]

/-- A waiting move that exists is looked at. -/
theorem nextMove_eq_none (h : ∀ index ∈ a.waiting, index < a.graph.moves.size) :
    (a.waiting.least?.bind fun index => a.graph.moves[index]?.map (index, ·)) = none ↔
      a.waiting = ∅ := by
  constructor
  · intro hnone
    cases hleast : a.waiting.least? with
    | none => simpa [MoveSet.least?] using hleast
    | some index =>
        have hlt := h index (mem_of_moveSet_least? hleast)
        simp [hleast, hlt] at hnone
  · intro hempty
    simp [hempty, MoveSet.least?]

/-- There is no next action just if all worklists are empty. -/
theorem next?_eq_none_iff (h : ∀ index ∈ a.waiting, index < a.graph.moves.size) :
    a.next? = none ↔ a.AtRest := by
  constructor
  · intro hnext
    unfold next? at hnext
    -- A worklist is reached only if those before it gave nothing.
    split at hnext
    · cases hnext
    · next hsimplify =>
        split at hnext
        · cases hnext
        · next hmove =>
            split at hnext
            · cases hnext
            · next hfreeze =>
                exact ⟨TempSet.least?_eq_none.mp hsimplify, (nextMove_eq_none h).mp hmove,
                  TempSet.least?_eq_none.mp hfreeze, spillAction?_eq_none.mp hnext⟩
  · intro hrest
    rw [next?, TempSet.least?_eq_none.mpr hrest.simplify, (nextMove_eq_none h).mpr hrest.waiting,
      TempSet.least?_eq_none.mpr hrest.freeze, spillAction?_eq_none.mpr hrest.spill]

/-- In a tidy state, each waiting move is a move of the graph. -/
theorem Tidy.waiting_lt (h : a.Tidy) : ∀ index ∈ a.waiting, index < a.graph.moves.size := by
  intro index hindex
  rw [← h.queued.size_eq]
  exact (Array.getElem?_eq_some_iff.mp ((h.queued.mem_waiting index).mp hindex)).1

/-! ### States that differ in what is put aside -/

/-- The states differ in the set of moves that were put aside, if at all. -/
def Alike (a b : Allocator) : Prop :=
  ∃ active, b = { a with active }

namespace Alike

/-- A choice between alike states, made alike, gives alike states. -/
theorem ite {p : Prop} [Decidable p] {a' b' : Allocator} (h : Alike a b) (h' : Alike a' b') :
    Alike (if p then a else a') (if p then b else b') := by
  split
  · exact h
  · exact h'

/-- A loop keeps two states alike if each of its rounds does. -/
theorem foldl {α : Type} {f : Allocator → α → Allocator}
    (hf : ∀ {a b} (x : α), Alike a b → Alike (f a x) (f b x)) (h : Alike a b) (l : List α) :
    Alike (l.foldl f a) (l.foldl f b) := by
  induction l generalizing a b with
  | nil => exact h
  | cons x l ih => exact ih (hf x h)

/-- What a temporary stands for does not depend on what is put aside. -/
theorem representative_eq (h : Alike a b) (t : Temp) : b.representative t = a.representative t := by
  obtain ⟨active, rfl⟩ := h
  exact representative_congr (a := a) (b := { a with active }) rfl (fun _ => Iff.rfl) t

/-! The operations of an action, in the order in which they are defined. -/

/-- A new status for a temporary is entered alike. -/
theorem place (h : Alike a b) (t : Temp) (next : NodeStatus) :
    Alike (a.place t next) (b.place t next) := by
  obtain ⟨active, rfl⟩ := h
  exact ⟨active, rfl⟩

/-- A new status for a move is entered alike. Here the set is written, yet not read. -/
theorem placeMove (h : Alike a b) (index : Nat) (next : MoveStatus) :
    Alike (a.placeMove index next) (b.placeMove index next) := by
  obtain ⟨active, rfl⟩ := h
  exact ⟨_, rfl⟩

/-- Which moves are woken is told by their statuses, not by the set. -/
theorem wakeMoves (h : Alike a b) (t : Temp) : Alike (a.wakeMoves t) (b.wakeMoves t) := by
  obtain ⟨active, rfl⟩ := h
  refine foldl (fun index h => ?_) ⟨active, rfl⟩ (a.pendingMoves t)
  obtain ⟨active, rfl⟩ := h
  exact ite (placeMove ⟨active, rfl⟩ index .worklist) ⟨active, rfl⟩

/-- Chains are shortened alike. -/
theorem compress (h : Alike a b) (t : Temp) : Alike (a.compress t) (b.compress t) := by
  have hrep := h.representative_eq t
  obtain ⟨active, rfl⟩ := h
  refine ⟨active, ?_⟩
  rw [Allocator.compress, hrep]
  rfl

/-- The chains of both ends of a move are shortened alike. -/
theorem compressEnds (h : Alike a b) (m : Move) : Alike (a.compressEnds m) (b.compressEnds m) :=
  (h.compress m.dst).compress m.src

/-- Degrees are lowered alike. -/
theorem lowerDegree (h : Alike a b) (t : Temp) : Alike (a.lowerDegree t) (b.lowerDegree t) := by
  obtain ⟨active, rfl⟩ := h
  exact ⟨active, rfl⟩

/-- Moves around a temporary are woken alike. -/
theorem wakeAround (h : Alike a b) (t : Temp) : Alike (a.wakeAround t) (b.wakeAround t) := by
  obtain ⟨active, rfl⟩ := h
  exact foldl (fun x h => h.wakeMoves x) ⟨active, rfl⟩ (t :: a.adjacent t)

/-- A temporary that is no longer one of high degree is sorted alike. -/
theorem lighten (h : Alike a b) (t : Temp) : Alike (a.lighten t) (b.lighten t) := by
  obtain ⟨active, rfl⟩ := h
  exact ite (place ⟨active, rfl⟩ t _) ⟨active, rfl⟩

/-- The loss of a neighbour has the same consequences. -/
theorem loseNeighbor (h : Alike a b) (t : Temp) :
    Alike (a.loseNeighbor t) (b.loseNeighbor t) := by
  obtain ⟨active, rfl⟩ := h
  have hlower : Alike (a.lowerDegree t) (Allocator.lowerDegree { a with active } t) :=
    lowerDegree ⟨active, rfl⟩ t
  exact ite ⟨active, rfl⟩ (ite ((hlower.wakeAround t).lighten t) hlower)

/-- A temporary is released in both states or in neither. -/
theorem release (h : Alike a b) (t : Temp) : Alike (a.release t) (b.release t) := by
  obtain ⟨active, rfl⟩ := h
  exact ite (place ⟨active, rfl⟩ t .simplify) ⟨active, rfl⟩

/-- Taking a temporary out of the graph keeps two states alike. -/
theorem simplify (h : Alike a b) (t : Temp) : Alike (a.simplify t) (b.simplify t) := by
  obtain ⟨active, rfl⟩ := h
  exact foldl (fun x h => h.loseNeighbor x) (place ⟨active, rfl⟩ t .onStack)
    ((a.place t .onStack).adjacent t)

/-- A neighbour is taken over alike. -/
theorem takeOver (h : Alike a b) (u neighbor : Temp) :
    Alike (a.takeOver u neighbor) (b.takeOver u neighbor) := by
  obtain ⟨active, rfl⟩ := h
  exact loseNeighbor ⟨active, rfl⟩ neighbor

/-- Moves and neighbours are handed over alike. -/
theorem absorb (h : Alike a b) (u v : Temp) : Alike (a.absorb u v) (b.absorb u v) := by
  have hjoin : Alike (a.join u v) (b.join u v) := by
    obtain ⟨active, rfl⟩ := h
    exact ⟨active, rfl⟩
  have hwoken := hjoin.wakeMoves v
  -- The neighbours to go through are those of a state on the way.
  have hsame : ((b.join u v).wakeMoves v).adjacent v = ((a.join u v).wakeMoves v).adjacent v := by
    obtain ⟨active, heq⟩ := hwoken
    rw [heq]
    rfl
  rw [Allocator.absorb, Allocator.absorb, hsame]
  exact foldl (fun x h => h.takeOver u x) hwoken _

/-- A merge keeps two states alike. -/
theorem merge (h : Alike a b) (u v : Temp) : Alike (a.merge u v) (b.merge u v) := by
  obtain ⟨active, heq⟩ := h.absorb u v
  rw [Allocator.merge, Allocator.merge, heq]
  exact ite (place ⟨active, rfl⟩ u .spill) ⟨active, rfl⟩

/-- A move is given up alike. -/
theorem freezeMove (h : Alike a b) (root : Temp) (index : Nat) :
    Alike (a.freezeMove root index) (b.freezeMove root index) := by
  have hmoves : b.graph.moves = a.graph.moves := by
    obtain ⟨active, rfl⟩ := h
    rfl
  unfold Allocator.freezeMove
  rw [hmoves]
  split
  · exact h
  · next m _ =>
      dsimp only
      rw [h.representative_eq, h.representative_eq]
      exact (((h.compress m.src).compress _).placeMove index .frozen).release _

/-- All moves of a temporary are given up alike. -/
theorem freezeMoves (h : Alike a b) (t : Temp) : Alike (a.freezeMoves t) (b.freezeMoves t) := by
  have hpending : b.pendingMoves t = a.pendingMoves t := by
    obtain ⟨active, rfl⟩ := h
    rfl
  rw [Allocator.freezeMoves, Allocator.freezeMoves, h.representative_eq, hpending]
  exact foldl (fun index h => h.freezeMove _ index) (h.compress t) _

/-- Every action keeps two states alike. -/
theorem perform (h : Alike a b) (action : Action) :
    Alike (a.perform action) (b.perform action) := by
  cases action with
  | simplify t => exact h.simplify t
  | join index m u => exact ((h.compressEnds m).placeMove index .coalesced).release u
  | constrain index m u v =>
      exact (((h.compressEnds m).placeMove index .constrained).release u).release v
  | merge index m u v =>
      exact (((h.compressEnds m).placeMove index .coalesced).merge u v).release u
  | postpone index m => exact (h.compressEnds m).placeMove index .active
  | freeze t => exact (h.place t .simplify).freezeMoves t
  | spill t forced => exact (h.place t .simplify).freezeMoves t

/-- What is done about a move does not depend on what is put aside. -/
theorem moveAction_eq (h : Alike a b) (index : Nat) (m : Move) :
    b.moveAction index m = a.moveAction index m := by
  rw [moveAction, h.representative_eq, h.representative_eq]
  obtain ⟨active, rfl⟩ := h
  rfl

/-- No decision depends on the moves that were put aside. -/
theorem next?_eq (h : Alike a b) : b.next? = a.next? := by
  have hmove := h.moveAction_eq
  obtain ⟨active, rfl⟩ := h
  unfold next?
  simp only [hmove]
  rfl

/-- The potential does not count what is put aside. -/
theorem potential_eq (h : Alike a b) : b.potential = a.potential := by
  obtain ⟨active, rfl⟩ := h
  rfl

/-- None of the worklists is the set of moves that were put aside. -/
theorem atRest (h : Alike a b) (hrest : a.AtRest) : b.AtRest := by
  obtain ⟨active, rfl⟩ := h
  exact ⟨hrest.simplify, hrest.waiting, hrest.freeze, hrest.spill⟩

/-- States that are alike stay so along the same actions. -/
theorem runs (h : Alike a b) (hrun : Runs a actions c) : ∃ d, Runs b actions d ∧ Alike c d := by
  induction hrun generalizing b with
  | done => exact ⟨b, .done, h⟩
  | @step a c action rest hnext _ ih =>
      obtain ⟨d, hrest, hd⟩ := ih (h.perform action)
      exact ⟨d, .step (h.next?_eq.trans hnext) hrest, hd⟩

/-- As many actions in both states keep them alike. -/
theorem drainWithin (h : Alike a b) (fuel : Nat) :
    Alike (a.drainWithin fuel).2 (b.drainWithin fuel).2 := by
  induction fuel generalizing a b with
  | zero => exact h
  | succ fuel ih =>
      unfold Allocator.drainWithin
      rw [h.next?_eq]
      cases a.next? with
      | none => exact h
      | some action => exact ih (h.perform action)

/-- Alike states are alike when nothing is left to do. -/
theorem drain (h : Alike a b) : Alike a.drain.2 b.drain.2 := by
  unfold Allocator.drain
  rw [h.potential_eq]
  exact h.drainWithin _

/-- The relation does not tell the two states apart. -/
theorem symm (h : Alike a b) : Alike b a := by
  obtain ⟨active, rfl⟩ := h
  exact ⟨a.active, rfl⟩

end Alike

/-! ### Coming to rest -/

/-- Each action of a run takes something of the potential. -/
theorem Tidy.length_add_potential_le (h : a.Tidy) (hrun : Runs a actions b) :
    actions.length + b.potential ≤ a.potential := by
  induction hrun with
  | done => simp
  | @step a b action rest hnext _ ih =>
      have haction := enabled_of_next? h hnext
      have hlt := h.potential_perform haction
      have hle := ih (h.steps_perform haction).tidy
      rw [List.length_cons]
      omega

/-- From a tidy state, a round comes to rest: the potential is enough fuel. -/
theorem Tidy.atRest_drain (h : a.Tidy) : a.drain.2.AtRest :=
  (next?_eq_none_iff (h.steps_runs (runs_drain a)).tidy.waiting_lt).mp h.next?_drain

/-- The state in which a round starts to take actions is tidy, but for the moves that were put
aside before. -/
theorem Carried.alike_sort (h : a.Carried) (rs : List Routine) :
    ∃ b, b.Tidy ∧ Alike b (a.build rs).sort := by
  have hempty : Carried { a with active := ∅ } := h.setActive nofun
  have hsort := ((hempty.build rs).tidy_restart rfl).steps_sort
  exact ⟨_, hsort.tidy, a.active,
    sort_setActive (Allocator.build { a with active := ∅ } rs) a.active⟩

/-- However often an allocator was used before, a round takes no more actions than the potential
it starts with, and those that it takes leave nothing to do. -/
theorem rounds_come_to_rest (registers : Nat) (shielded : TempSet) (hregisters : registers ≠ 0)
    (calls : List (List Routine)) (rs : List Routine) :
    let start := (((Allocator.new registers shielded).rounds calls).build rs).sort
    (∀ actions b, Runs start actions b → actions.length ≤ start.potential) ∧
      Runs start start.drain.1 start.drain.2 ∧ start.drain.2.AtRest := by
  intro start
  obtain ⟨hcarried, -⟩ := (carried_new registers shielded).rounds hregisters calls
  obtain ⟨tidied, htidy, halike⟩ := hcarried.alike_sort rs
  refine ⟨fun actions b hrun => ?_, runs_drain start, halike.drain.atRest htidy.atRest_drain⟩
  -- The tidy state takes the same actions, and its potential bounds them.
  obtain ⟨c, hrun', -⟩ := halike.symm.runs hrun
  have hle := htidy.length_add_potential_le hrun'
  rw [halike.potential_eq]
  omega

/-- There are actions to take in a third round too, which fails because of a move that the second
one put aside. -/
theorem relink_comes_to_rest :
    let start := (((Allocator.new 1 ∅).rounds [[rivals.analyze.1], [relink.analyze.1]]).build
      [relink.analyze.1]).sort
    start.drain.1 ≠ [] ∧ start.drain.1.length ≤ start.potential ∧ start.drain.2.AtRest := by
  obtain ⟨hbound, hrun, hrest⟩ := rounds_come_to_rest 1 ∅ (by decide)
    [[rivals.analyze.1], [relink.analyze.1]] [relink.analyze.1]
  exact ⟨by decide +kernel, hbound _ _ hrun, hrest⟩

end Allocator

end MmixCodegen
