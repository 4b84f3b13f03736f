import MmixCodegen.Flow
import MmixCodegen.Proofs.Allocator.Round

/-!
# `MmixCodegen.Proofs.Allocator.Reuse`: one allocator for many rounds

A round may start from the state that another one ended in. Then temporaries have a
register or are spilled already, chains of merges are there, and degrees are those that
were left. `Carried` is what is still true of such a state, also after a failed check, and
`Carried.round` says that every round keeps it. In particular all temporaries are in
exactly the set that their status names.

For moves this fails. A round lets all moves wait, but it does not take them out of the
set of those that were put aside. So a round that follows one which left a move there
ends with a failed check (`Carried.round_of_active_ne_empty`). Otherwise no check but that of
the registers can fail (`Carried.round_of_active_eq_empty`).

A new allocator leaves no move behind (`active_round_new`), so two rounds are needed to
get into this state. `reuse_misplaces_only_active` puts it all together.
-/

set_option autoImplicit false

namespace MmixCodegen

/-- What is sorted does not become unsorted by coming closer to being simplified. -/
theorem NodeStatus.Eases.ne_initial {s s' : NodeStatus} (h : s.Eases s') (hs : s ≠ .initial) :
    s' ≠ .initial := by
  rcases h with rfl | ⟨-, rfl⟩ | ⟨-, rfl⟩
  · exact hs
  · decide
  · decide

namespace Allocator

variable {a b : Allocator} {t u v x : Temp} {action : Action}

/-! ### What is sorted stays sorted -/

/-- Another status leaves everything sorted that was. -/
theorem ne_initial_place {next : NodeStatus} (hx : a.status x ≠ .initial)
    (hnext : next ≠ .initial) : (a.place t next).status x ≠ .initial := by
  rw [status_place]
  split
  · exact hnext
  · exact hx

/-- Housekeeping leaves everything sorted that was. -/
theorem Eases.ne_initial (h : Eases a b) (hx : a.status x ≠ .initial) : b.status x ≠ .initial :=
  (h.status x).ne_initial hx

namespace Tidy

/-- A merge leaves everything sorted that was. -/
theorem ne_initial_merge (h : a.Tidy) (hu : u ∈ a.graph.nodes) (hv : v ∈ a.graph.nodes)
    (hu' : a.status u ≠ .coalesced) (hv' : a.status v ≠ .coalesced) (hne : u ≠ v)
    (hx : a.status x ≠ .initial) : (a.merge u v).status x ≠ .initial := by
  have hjoin := (h.steps_join hu hv hu' hv' hne).1
  have hjoined : (a.join u v).status x ≠ .initial := ne_initial_place hx (by decide)
  have habsorbed := (eases_absorb hjoin.tidy (hjoin.nodes ▸ hu)).ne_initial hjoined
  unfold Allocator.merge burden
  split
  · exact ne_initial_place habsorbed (by decide)
  · exact habsorbed

/-- No action makes a temporary one that has yet to be sorted. -/
theorem ne_initial_perform (h : a.Tidy) (haction : a.Enabled action) (hx : a.status x ≠ .initial) :
    (a.perform action).status x ≠ .initial := by
  -- Two actions are a change of status, followed by giving up moves.
  have hfreeze : ∀ {t}, t ∈ a.graph.nodes → a.status t ≠ .coalesced →
      ((a.place t .simplify).freezeMoves t).status x ≠ .initial := by
    intro t ht hmerged
    have hplace : (a.place t .simplify).Tidy := h.place ht hmerged (by decide)
    exact (hplace.eases_freezeMoves t).ne_initial (ne_initial_place hx (by decide))
  cases haction with
  | @simplify t ht =>
      have hpush : (a.place t .onStack).Tidy :=
        h.place (h.mem_nodes_of_status ht (by decide)) (by rw [ht]; decide) (by decide)
      exact (Eases.foldl (fun _ x h => h.eases_loseNeighbor x) hpush _).ne_initial
        (ne_initial_place hx (by decide))
  | @join index m hindex hm heq =>
      have hmove := h.eases_settleMove hindex m .coalesced
      exact (hmove.trans (hmove.tidy.eases_release _)).ne_initial hx
  | @constrain index m hindex hm =>
      have hmove := h.eases_settleMove hindex m .constrained
      have hdst := hmove.trans (hmove.tidy.eases_release (a.representative m.dst))
      exact (hdst.trans (hdst.tidy.eases_release _)).ne_initial hx
  | @merge index m hindex hm hne hapart htest =>
      have hmove := h.eases_settleMove hindex m .coalesced
      obtain ⟨⟨hu, hu'⟩, hv, hv'⟩ := h.representative_ends hm
      have hmerge := hmove.tidy.ne_initial_merge (hmove.nodes ▸ hu) (hmove.nodes ▸ hv) hu' hv' hne
        (hmove.ne_initial hx)
      have htidy := (hmove.tidy.steps_merge (hmove.nodes ▸ hu) (hmove.nodes ▸ hv) hu' hv' hne).tidy
      exact (htidy.eases_release _).ne_initial hmerge
  | postpone hindex hm => exact (h.eases_settleMove hindex _ .active).ne_initial hx
  | freeze ht => exact hfreeze (h.mem_nodes_of_status ht (by decide)) (by rw [ht]; decide)
  | spill ht _ _ _ => exact hfreeze (h.mem_nodes_of_status ht (by decide)) (by rw [ht]; decide)

/-- A run of actions leaves everything sorted that was. -/
theorem ne_initial_runs (h : a.Tidy) {actions : List Action} (hrun : Runs a actions b)
    (hx : a.status x ≠ .initial) : b.status x ≠ .initial := by
  induction hrun with
  | done => exact hx
  | step hnext _ ih =>
      have haction := enabled_of_next? h hnext
      exact ih (h.steps_perform haction).tidy (h.ne_initial_perform haction hx)

end Tidy

/-! ### Giving out registers, wherever the state comes from -/

/-- Statuses, colours and chains have changed, and nothing else. -/
structure Settles (a b : Allocator) : Prop where
  tidy : b.Tidy
  registers : b.registers = a.registers
  graph : b.graph = a.graph
  active : b.active = a.active
  ne_initial : ∀ t, a.status t ≠ .initial → b.status t ≠ .initial

/-- Doing nothing changes nothing else either. -/
theorem Settles.refl (h : a.Tidy) : Settles a a :=
  ⟨h, rfl, rfl, rfl, fun _ => id⟩

/-- Two such changes are one. -/
theorem Settles.trans {c : Allocator} (h : Settles a b) (h' : Settles b c) : Settles a c :=
  ⟨h'.tidy, h'.registers.trans h.registers, h'.graph.trans h.graph, h'.active.trans h.active,
    fun t ht => h'.ne_initial t (h.ne_initial t ht)⟩

/-- Shortening chains leaves alone which moves are put aside. -/
theorem active_compressAll (a : Allocator) (ts : List Temp) :
    (a.compressAll ts).active = a.active := by
  obtain ⟨aliases, heq⟩ := compressAll_eq a ts
  rw [heq]

namespace Tidy

/-- Giving out one register changes statuses, colours and chains only. -/
theorem settles_assign (h : a.Tidy) (ht : a.status t = .onStack) : Settles a (a.assign t) := by
  have hassign := h.assigns ht
  refine ⟨hassign.tidy, hassign.registers, hassign.graph, ?_, fun x hx => ?_⟩
  · unfold assign
    dsimp only
    split
    · exact active_compressAll a _
    · exact active_compressAll a _
  · rw [hassign.status]
    split
    · unfold outcome
      split <;> decide
    · exact hx

/-- So does giving out registers to some temporaries of the stack. -/
theorem settles_foldl_assign (h : a.Tidy) {l : List Temp} (hnodup : l.Nodup)
    (hl : ∀ t ∈ l, a.status t = .onStack) : Settles a (l.foldl assign a) := by
  induction l generalizing a with
  | nil => exact Settles.refl h
  | cons t l ih =>
      obtain ⟨htl, hnodup⟩ := List.nodup_cons.mp hnodup
      have hfirst := h.settles_assign (hl t List.mem_cons_self)
      refine hfirst.trans (ih hfirst.tidy hnodup fun x hx => ?_)
      -- The others are still on the stack.
      have hne : t ≠ x := fun heq => htl (heq ▸ hx)
      rw [(h.assigns (hl t List.mem_cons_self)).status, if_neg hne]
      exact hl x (List.mem_cons_of_mem t hx)

/-- A merged temporary that inherits a register changes the colours only. -/
theorem settles_inherit (h : a.Tidy) (t : Temp) : Settles a (a.inherit t) := by
  obtain ⟨hinherits, -⟩ := h.inherits t
  refine ⟨hinherits.tidy, hinherits.registers, hinherits.graph, ?_, fun x hx => ?_⟩
  · unfold inherit
    dsimp only
    split <;> rfl
  · rw [hinherits.status]
    exact hx

/-- So do several of them. -/
theorem settles_foldl_inherit (h : a.Tidy) (l : List Temp) : Settles a (l.foldl inherit a) := by
  induction l generalizing a with
  | nil => exact Settles.refl h
  | cons t l ih =>
      have hfirst := h.settles_inherit t
      exact hfirst.trans (ih hfirst.tidy)

/-- Giving out all registers changes statuses, colours and chains only. -/
theorem settles_assignAll (h : a.Tidy) : Settles a a.assignAll := by
  have hunwound := h.settles_foldl_assign h.sorted.nodup fun t ht => (h.sorted.mem_stack t).mp ht
  exact hunwound.trans (hunwound.tidy.settles_foldl_inherit _)

end Tidy

/-! ### States that are carried over -/

/-- What is true of a state between rounds. Nothing is said about the moves, except that
those that were put aside exist. -/
structure Carried (a : Allocator) : Prop where
  sound : a.graph.Sound
  closed : a.graph.Closed
  sorted : a.Sorted
  aliased : a.Aliased
  representative_mem : ∀ t ∈ a.graph.nodes, a.representative t ∈ a.graph.nodes
  active_lt : ∀ index ∈ a.active, index < a.graph.moves.size

/-- A tidy state can be carried over. -/
theorem Tidy.carried (h : a.Tidy) : a.Carried := by
  refine ⟨h.sound, h.closed, h.sorted, h.aliased, h.representative_mem, fun index hindex => ?_⟩
  rw [h.queued.mem_active] at hindex
  rw [← h.queued.size_eq]
  exact (Array.getElem?_eq_some_iff.mp hindex).1

/-- A round adds nodes and moves, and takes none away. -/
theorem grows_build (h : a.graph.Sound) (rs : List Routine) :
    (∀ t ∈ a.graph.nodes, t ∈ (a.build rs).graph.nodes) ∧
      a.graph.moves.size ≤ (a.build rs).graph.moves.size := by
  refine Interference.addRoutines_induction (p := fun g => (∀ t ∈ a.graph.nodes, t ∈ g.nodes) ∧
    a.graph.moves.size ≤ g.moves.size) (fun g i hg hgrows => ⟨fun t ht => ?_, ?_⟩) h
    ⟨fun _ => id, Nat.le_refl _⟩ rs
  · exact (Interference.mem_nodes_addInstr hg i t).mpr (.inl (hgrows.1 t ht))
  · rw [(Interference.moves_addInstr hg i).1]
    unfold Interference.addCopy
    split
    · simp only [Interference.addMove, Array.size_push]
      omega
    · exact hgrows.2

namespace Carried

/-- Which moves are put aside does not matter, as long as they exist. -/
theorem setActive (h : a.Carried) {active : MoveSet}
    (hlt : ∀ index ∈ active, index < a.graph.moves.size) : Carried { a with active } where
  sound := h.sound
  closed := h.closed
  sorted := h.sorted.congr rfl rfl rfl rfl
  aliased := h.aliased.congr rfl fun _ => Iff.rfl
  representative_mem t ht := by
    have hrep : representative { a with active } t = a.representative t :=
      representative_congr (a := a) (b := { a with active }) rfl (fun _ => Iff.rfl) t
    rw [hrep]
    exact h.representative_mem t ht
  active_lt := hlt

/-- The graph may grow by more routines. -/
theorem build (h : a.Carried) (rs : List Routine) : (a.build rs).Carried := by
  obtain ⟨hnodes, hmoves⟩ := grows_build h.sound rs
  have hrep : ∀ t, (a.build rs).representative t = a.representative t :=
    representative_congr rfl fun _ => Iff.rfl
  refine ⟨Interference.sound_addRoutines h.sound rs,
    Interference.closed_addRoutines h.sound h.closed rs,
    ⟨h.sorted.mem_get, h.sorted.mem_stack, h.sorted.nodup,
      fun t ht => hnodes t (h.sorted.mem_nodes t ht)⟩,
    h.aliased.congr rfl fun _ => Iff.rfl, fun t ht => ?_,
    fun index hindex => (h.active_lt index hindex).trans_le hmoves⟩
  rw [hrep]
  by_cases hold : t ∈ a.graph.nodes
  · exact hnodes _ (h.representative_mem t hold)
  -- Only nodes are merged, so a new one stands for itself.
  · have hinitial : a.status t = .initial := by
      by_contra hne
      exact hold (h.sorted.mem_nodes t hne)
    rw [representative_of_not_coalesced (by rw [hinitial]; decide)]
    exact ht

/-- With no move put aside, a state that was carried over is tidy once all moves wait. -/
theorem tidy_restart (h : a.Carried) (hactive : a.active = ∅) : a.restart.Tidy where
  sound := h.sound
  closed := h.closed
  sorted := h.sorted.congr rfl rfl rfl rfl
  aliased := h.aliased.congr rfl fun _ => Iff.rfl
  queued := queued_restart hactive
  representative_mem t ht := by
    have hrep : a.restart.representative t = a.representative t :=
      representative_congr (a := a) (b := a.restart) rfl (fun _ => Iff.rfl) t
    rw [hrep]
    exact h.representative_mem t ht

end Carried

/-- A new allocator is fit to start with. -/
theorem carried_new (registers : Nat) (shielded : TempSet) :
    (Allocator.new registers shielded).Carried := by
  have htidy := tidy_restart registers shielded []
  exact ⟨htidy.sound, htidy.closed, htidy.sorted.congr rfl rfl rfl rfl,
    htidy.aliased.congr rfl fun _ => Iff.rfl, nofun, nofun⟩

/-! ### One round -/

/-- Sorting leaves no temporary of the graph unsorted. -/
theorem ne_initial_sort (ht : t ∈ a.graph.nodes) : a.sort.status t ≠ .initial := by
  rw [status_sort]
  split
  · exact (grade_ne _ t).1
  · next hnot => exact fun hinitial => hnot ⟨ht, hinitial⟩

/-- Sorting does not look at the moves that were put aside. -/
theorem sort_setActive (a : Allocator) (active : MoveSet) :
    sort { a with active } = { a.sort with active } := by
  have hfold : ∀ (l : List Temp) (b : Allocator),
      l.foldl sortNode { b with active } = { l.foldl sortNode b with active } := by
    intro l
    induction l with
    | nil => exact fun b => rfl
    | cons t l ih =>
        intro b
        have hfirst : sortNode { b with active } t = { sortNode b t with active } := by
          by_cases hinitial : b.status t = .initial
          · have hinitial' : status { b with active } t = .initial := hinitial
            rw [sortNode, if_pos hinitial', sortNode, if_pos hinitial]
            rfl
          · have hinitial' : ¬status { b with active } t = .initial := hinitial
            rw [sortNode, if_neg hinitial', sortNode, if_neg hinitial]
        rw [List.foldl_cons, hfirst, ih]
        rfl
  exact hfold _ a.restart

/-- A check that succeeds leaves the rest to the next one. -/
theorem check_of_ok {check : Except Failure Unit} (h : check = .ok ())
    (next : Except Failure Unit) :
    (do check; next) = next := by
  rw [h]
  rfl

/-- A round whose first four checks succeed ends with a check of the registers. -/
theorem round_of_partition (a : Allocator) (rs : List Routine) (hregisters : a.registers ≠ 0)
    (hbuilt : (a.build rs).checkSymmetry = .ok ())
    (hsorted : (a.build rs).sort.checkPartition = .ok ())
    (hsymmetry : (a.build rs).sort.drain.2.checkSymmetry = .ok ())
    (hpartition : (a.build rs).sort.drain.2.checkPartition = .ok ())
    (hassigned : (a.build rs).sort.drain.2.assignAll.checkPartition = .ok ()) :
    (a.round rs).1 = (a.build rs).sort.drain.2.assignAll ∧
      (a.round rs).2.outcome = (a.build rs).sort.drain.2.assignAll.checkColors.map
        fun _ => (a.build rs).sort.drain.2.assignAll.coloring := by
  have hdrained : (do
      (a.build rs).sort.drain.2.checkSymmetry
      (a.build rs).sort.drain.2.checkPartition) = Except.ok () :=
    (check_of_ok hsymmetry _).trans hpartition
  have hfinal := check_of_ok hassigned (a.build rs).sort.drain.2.assignAll.checkColors
  unfold round
  rw [if_neg hregisters]
  unfold stages
  dsimp only
  rw [runStages_of_ok hbuilt, runStages_of_ok hsorted, runStages_of_ok hdrained, runStages, hfinal]
  -- What the last state is does not matter.
  generalize (a.build rs).sort.drain.2.assignAll = final
  cases final.checkColors with
  | error e => exact ⟨rfl, rfl⟩
  | ok u => exact ⟨rfl, rfl⟩

/-- A round ends where its temporaries were sorted if the check of that state fails. -/
theorem round_of_misplaced (a : Allocator) (rs : List Routine) (hregisters : a.registers ≠ 0)
    (hbuilt : (a.build rs).checkSymmetry = .ok ()) {e : Failure}
    (hsorted : (a.build rs).sort.checkPartition = .error e) :
    (a.round rs).1 = (a.build rs).sort ∧ (a.round rs).2.outcome = .error e := by
  unfold round
  rw [if_neg hregisters]
  unfold stages
  dsimp only
  rw [runStages_of_ok hbuilt, runStages, hsorted]
  exact ⟨rfl, rfl⟩

/-- Sorting lets all moves wait, and puts none aside. -/
theorem queues_sort (a : Allocator) :
    (∀ index, index ∈ a.sort.waiting ↔ index < a.graph.moves.size) ∧ a.sort.active = a.active := by
  have hwaiting : a.sort.waiting = a.restart.waiting :=
    foldl_eq (p := Allocator.waiting) (fun a t => by unfold sortNode; split <;> rfl) a.restart _
  have hactive : a.sort.active = a.restart.active :=
    foldl_eq (p := Allocator.active) (fun a t => by unfold sortNode; split <;> rfl) a.restart _
  refine ⟨fun index => ?_, hactive⟩
  rw [hwaiting]
  show index ∈ Std.ExtTreeSet.ofList (List.range a.graph.moves.size) compare ↔ _
  simp

/-- After sorting, the misplaced moves are those that were put aside before. -/
theorem mem_misplacedMoves_sort (hlt : ∀ index ∈ a.active, index < a.graph.moves.size)
    {failure : Failure} :
    failure ∈ a.sort.misplacedMoves ↔
      ∃ index ∈ a.active, failure = .misplacedMove index .worklist true true := by
  obtain ⟨hwaiting, hactive⟩ := queues_sort a
  have hstatuses : ∀ index, a.sort.moveStatuses[index]? =
      if index < a.graph.moves.size then some .worklist else none := by
    intro index
    rw [(sort_eq a).2.1]
    exact Array.getElem?_replicate
  have hwaits : ∀ index < a.graph.moves.size, a.sort.waiting.contains index = true :=
    fun index hindex => Std.ExtTreeSet.mem_iff_contains.mp ((hwaiting index).mpr hindex)
  rw [mem_misplacedMoves]
  constructor
  · rintro ⟨index, status, hget, hplaced, rfl⟩
    rw [hstatuses] at hget
    split at hget
    · next hindex =>
      cases hget
      rw [hwaits index hindex] at hplaced ⊢
      -- A move that waits is misplaced only if it is put aside as well.
      have haside : a.sort.active.contains index = true := by simpa [isMovePlaced] using hplaced
      rw [haside]
      rw [hactive] at haside
      exact ⟨index, Std.ExtTreeSet.mem_iff_contains.mpr haside, rfl⟩
    · cases hget
  · rintro ⟨index, hindex, rfl⟩
    have haside : a.sort.active.contains index = true := by
      rw [hactive]
      exact Std.ExtTreeSet.mem_iff_contains.mp hindex
    refine ⟨index, .worklist, ?_, ?_, ?_⟩
    · rw [hstatuses, if_pos (hlt index hindex)]
    · rw [hwaits index (hlt index hindex), haside]
      rfl
    · rw [hwaits index (hlt index hindex), haside]

/-- If a move was put aside before, the first failure of the check names such a move, which now
waits and is put aside at once. -/
theorem firstFailure_misplacedMoves_sort (hlt : ∀ index ∈ a.active, index < a.graph.moves.size)
    (hactive : a.active ≠ ∅) :
    ∃ index ∈ a.active,
      firstFailure a.sort.misplacedMoves = .error (.misplacedMove index .worklist true true) := by
  have hiff : ∀ failure, failure ∈ a.sort.misplacedMoves ↔
      ∃ index ∈ a.active, failure = .misplacedMove index .worklist true true :=
    fun _ => mem_misplacedMoves_sort hlt
  obtain ⟨index, hindex⟩ : ∃ index, index ∈ a.active := by
    by_contra hnone
    exact hactive (Std.ExtTreeSet.eq_empty_iff_forall_not_mem.mpr fun i hi => hnone ⟨i, hi⟩)
  cases hfailures : a.sort.misplacedMoves with
  | nil =>
      have hmem := (hiff _).mpr ⟨index, hindex, rfl⟩
      rw [hfailures] at hmem
      cases hmem
  | cons first rest =>
      obtain ⟨index, hindex, rfl⟩ := (hiff first).mp (hfailures ▸ List.mem_cons_self)
      exact ⟨index, hindex, rfl⟩

namespace Carried

section Round

variable (h : a.Carried) (rs : List Routine)

include h

/-- The graph is symmetric, whatever it grew from. -/
theorem checkSymmetry_build : (a.build rs).checkSymmetry = .ok () :=
  checkSymmetry_eq_ok (h.build rs).sound

/-- If no move is put aside, then no check but that of the registers can fail. -/
theorem round_of_active_eq_empty (hregisters : a.registers ≠ 0) (hactive : a.active = ∅) :
    (a.round rs).1.Tidy ∧ (a.round rs).1.registers = a.registers ∧
      (a.round rs).1.active = (a.build rs).sort.drain.2.active ∧
      (a.build rs).sort.checkPartition = .ok () ∧
      (∀ t ∈ (a.round rs).1.graph.nodes, (a.round rs).1.status t ≠ .initial) ∧
      (a.round rs).2.outcome = (a.round rs).1.checkColors.map fun _ => (a.round rs).1.coloring := by
  -- The three states that are checked are tidy, and all of their nodes are sorted.
  have hsort := ((h.build rs).tidy_restart hactive).steps_sort
  have hdrain := hsort.tidy.steps_runs (runs_drain (a.build rs).sort)
  have hassign := hdrain.tidy.settles_assignAll
  have hsorted : ∀ t ∈ (a.build rs).sort.graph.nodes, (a.build rs).sort.status t ≠ .initial := by
    intro t ht
    exact ne_initial_sort (hsort.nodes ▸ ht)
  have hdrained : ∀ t ∈ (a.build rs).sort.drain.2.graph.nodes,
      (a.build rs).sort.drain.2.status t ≠ .initial := by
    intro t ht
    exact hsort.tidy.ne_initial_runs (runs_drain _) (hsorted t (hdrain.nodes ▸ ht))
  have hassigned : ∀ t ∈ (a.build rs).sort.drain.2.assignAll.graph.nodes,
      (a.build rs).sort.drain.2.assignAll.status t ≠ .initial := by
    intro t ht
    exact hassign.ne_initial t (hdrained t (hassign.graph ▸ ht))
  have hcheck := checkPartition_eq_ok hsort.tidy.sorted hsort.tidy.queued hsorted
  obtain ⟨hfinal, houtcome⟩ := round_of_partition a rs hregisters (h.checkSymmetry_build rs)
    hcheck (checkSymmetry_eq_ok hdrain.tidy.sound)
    (checkPartition_eq_ok hdrain.tidy.sorted hdrain.tidy.queued hdrained)
    (checkPartition_eq_ok hassign.tidy.sorted hassign.tidy.queued hassigned)
  rw [houtcome, hfinal]
  exact ⟨hassign.tidy, (hassign.registers.trans hdrain.registers).trans hsort.registers,
    hassign.active, hcheck, hassigned, rfl⟩

/-- If a move is put aside, then the round ends as soon as all moves wait. -/
theorem round_of_active_ne_empty (hregisters : a.registers ≠ 0) (hactive : a.active ≠ ∅) :
    (a.round rs).1 = (a.build rs).sort ∧ (a.build rs).sort.Carried ∧
      ∃ index ∈ a.active,
        (a.round rs).2.outcome = .error (.misplacedMove index .worklist true true) := by
  -- Without the moves that were put aside the state would be tidy.
  have hempty : Carried { a with active := ∅ } := h.setActive nofun
  have hsort := ((hempty.build rs).tidy_restart rfl).steps_sort
  have heq : (a.build rs).sort =
      { (Allocator.build { a with active := ∅ } rs).sort with active := a.active } :=
    sort_setActive (Allocator.build { a with active := ∅ } rs) a.active
  have hcarried : (a.build rs).sort.Carried := by
    rw [heq]
    refine hsort.tidy.carried.setActive fun index hindex => ?_
    rw [hsort.moves]
    exact (h.build rs).active_lt index hindex
  obtain ⟨index, hindex, hfirst⟩ := firstFailure_misplacedMoves_sort (h.build rs).active_lt hactive
  have hcheck : (a.build rs).sort.checkPartition
      = .error (.misplacedMove index .worklist true true) := by
    rw [checkPartition_eq hcarried.sorted fun t ht => ne_initial_sort ?_, hfirst]
    rw [heq] at ht
    exact hsort.nodes ▸ ht
  obtain ⟨hfinal, houtcome⟩ := round_of_misplaced a rs hregisters (h.checkSymmetry_build rs) hcheck
  exact ⟨hfinal, hcarried, index, hindex, houtcome⟩

/-- Every round keeps what is true between rounds. -/
theorem round (hregisters : a.registers ≠ 0) :
    (a.round rs).1.Carried ∧ (a.round rs).1.registers = a.registers ∧
      ∀ t ∈ (a.round rs).1.graph.nodes, (a.round rs).1.status t ≠ .initial := by
  by_cases hactive : a.active = ∅
  · obtain ⟨htidy, hkeeps, -, -, hall, -⟩ := h.round_of_active_eq_empty rs hregisters hactive
    exact ⟨htidy.carried, hkeeps, hall⟩
  · obtain ⟨hfinal, hcarried, -⟩ := h.round_of_active_ne_empty rs hregisters hactive
    rw [hfinal]
    refine ⟨hcarried, ?_, fun t ht => ne_initial_sort ?_⟩
    · exact foldl_eq (p := Allocator.registers) (fun a t => by unfold sortNode; split <;> rfl) _ _
    · rw [(sort_eq _).1] at ht
      exact ht

end Round

end Carried

/-! ### Many rounds -/

/-- The state after a round over each list of routines in turn. -/
def rounds (a : Allocator) (calls : List (List Routine)) : Allocator :=
  calls.foldl (fun a rs => (a.round rs).1) a

/-- Any number of rounds leads to a state that can be carried over, with as many registers. -/
theorem Carried.rounds (h : a.Carried) (hregisters : a.registers ≠ 0)
    (calls : List (List Routine)) :
    (a.rounds calls).Carried ∧ (a.rounds calls).registers = a.registers := by
  induction calls generalizing a with
  | nil => exact ⟨h, rfl⟩
  | cons rs calls ih =>
      obtain ⟨hcarried, hkeeps, -⟩ := h.round rs hregisters
      obtain ⟨hrest, hrest'⟩ := ih hcarried (hkeeps ▸ hregisters)
      exact ⟨hrest, hrest'.trans hkeeps⟩

/-- When a new allocator has nothing left to do, then no move is put aside. -/
theorem active_drained (registers : Nat) (shielded : TempSet) (rs : List Routine) :
    (drained registers shielded rs).active = ∅ := by
  have hfinished := finished_drained registers shielded rs
  refine Std.ExtTreeSet.eq_empty_iff_forall_not_mem.mpr fun index hindex => ?_
  rw [hfinished.underway.tidy.queued.mem_active] at hindex
  have hpending := isPending_iff.mpr (.inr hindex)
  rw [hfinished.underway.isPending_of_next?_eq_none hfinished.next?] at hpending
  cases hpending

/-- The first round of an allocator leaves no move behind. -/
theorem active_round_new (registers : Nat) (shielded : TempSet) (hregisters : registers ≠ 0)
    (rs : List Routine) : ((Allocator.new registers shielded).round rs).1.active = ∅ := by
  obtain ⟨-, -, hactive, -⟩ :=
    (carried_new registers shielded).round_of_active_eq_empty rs hregisters rfl
  rw [hactive]
  exact active_drained registers shielded rs

/-- After at most one round of a new allocator no move is put aside. -/
theorem active_rounds_new (registers : Nat) (shielded : TempSet) (hregisters : registers ≠ 0)
    {calls : List (List Routine)} (hlength : calls.length ≤ 1) :
    ((Allocator.new registers shielded).rounds calls).active = ∅ := by
  match calls, hlength with
  | [], _ => rfl
  | [rs], _ => exact active_round_new registers shielded hregisters rs

/-- However often an allocator was used before, and whether or not that failed, a round
keeps edges symmetric and each temporary in exactly the set that its status names. If no
move is put aside at its start, then moves are in place as well, and only the check of the
registers can fail. If there is one, then the round fails because of it, and so will the
next one. This takes at least two earlier rounds. -/
theorem reuse_misplaces_only_active (registers : Nat) (shielded : TempSet)
    (hregisters : registers ≠ 0) (calls : List (List Routine)) (rs : List Routine) :
    let a := (Allocator.new registers shielded).rounds calls
    let final := (a.round rs).1
    let outcome := (a.round rs).2.outcome
    final.checkSymmetry = .ok () ∧
      (∀ t ∈ final.graph.nodes, final.found t = [final.status t]) ∧
      final.classified = final.graph.nodes.size ∧
      (a.active = ∅ → (a.build rs).sort.checkPartition = .ok () ∧ final.checkPartition = .ok () ∧
        outcome = final.checkColors.map fun _ => final.coloring) ∧
      (a.active ≠ ∅ → final.active = a.active ∧
        ∃ index ∈ a.active, outcome = .error (.misplacedMove index .worklist true true)) ∧
      (calls.length ≤ 1 → a.active = ∅) := by
  intro a final outcome
  obtain ⟨hcarried, hkeeps⟩ := (carried_new registers shielded).rounds hregisters calls
  replace hkeeps : a.registers ≠ 0 := hkeeps ▸ hregisters
  obtain ⟨hnext, -, hall⟩ := hcarried.round rs hkeeps
  refine ⟨checkSymmetry_eq_ok hnext.sound, fun t ht => found_eq hnext.sorted (hall t ht),
    classified_eq hnext.sorted hall, fun hactive => ?_, fun hactive => ?_, fun hlength => ?_⟩
  · obtain ⟨htidy, -, -, hcheck, -, houtcome⟩ :=
      hcarried.round_of_active_eq_empty rs hkeeps hactive
    exact ⟨hcheck, checkPartition_eq_ok htidy.sorted htidy.queued hall, houtcome⟩
  · obtain ⟨hfinal, -, hfails⟩ := hcarried.round_of_active_ne_empty rs hkeeps hactive
    refine ⟨?_, hfails⟩
    show (a.round rs).1.active = a.active
    rw [hfinal]
    exact (queues_sort _).2
  · exact active_rounds_new registers shielded hregisters hlength

/-- Two temporaries that are live together, and one on its own. -/
def rivals : Routine where
  frame := ⟨⟨"f"⟩, 0, 0, 0, 0, ⟨0⟩, ⟨1⟩⟩
  entry := ⟨"f"⟩
  exit := ⟨"f_exit"⟩
  slots := .empty
  instrs := [
    .ofKind (.oper "SETL `d0,1" [] [⟨2⟩] []),
    .ofKind (.oper "SETL `d0,2" [] [⟨3⟩] []),
    .ofKind (.oper "CMP `s0,`s1" [⟨2⟩, ⟨3⟩] [] []),
    .ofKind (.oper "SETL `d0,3" [] [⟨4⟩] []),
    .ofKind (.oper "USE `s0" [⟨4⟩] [] [])]

/-- A copy between temporaries of `rivals`. -/
def relink : Routine :=
  { rivals with instrs := [.copy ⟨3⟩ ⟨4⟩] }

/-- A second round keeps moves in place too. -/
theorem second_round_keeps_partition :
    let a := (Allocator.new 1 ∅).rounds [[rivals.analyze.1]]
    a.active = ∅ ∧ (a.round [relink.analyze.1]).1.checkPartition = .ok () := by
  obtain ⟨-, -, -, hkeeps, -, hfresh⟩ :=
    reuse_misplaces_only_active 1 ∅ (by decide) [[rivals.analyze.1]] [relink.analyze.1]
  have hactive := hfresh (by decide)
  exact ⟨hactive, (hkeeps hactive).2.1⟩

/-- With one register temporary 2 is spilled, and then a copy between the other two is put
aside for good. Two rounds succeed, and each one after them fails. -/
theorem third_round_fails :
    let first := (Allocator.new 1 ∅).round [rivals.analyze.1]
    let second := first.1.round [relink.analyze.1]
    first.2.outcome.isOk = true ∧ second.2.outcome.isOk = true ∧
      ∀ rs, (second.1.round rs).2.outcome = .error (.misplacedMove 0 .worklist true true) := by
  intro first second
  have hactive : second.1.active.toList = [0] := by decide +kernel
  have hmem : ∀ index, index ∈ second.1.active ↔ index = 0 := by
    intro index
    rw [← Std.ExtTreeSet.mem_toList, hactive, List.mem_singleton]
  refine ⟨by decide +kernel, by decide +kernel, fun rs => ?_⟩
  obtain ⟨hcarried, hkeeps⟩ := (carried_new 1 ∅).rounds (by decide)
    [[rivals.analyze.1], [relink.analyze.1]]
  have hne : second.1.active ≠ ∅ := fun hempty => by
    have hzero := (hmem 0).mpr rfl
    rw [hempty] at hzero
    simp at hzero
  obtain ⟨-, -, index, hindex, hfails⟩ :=
    Carried.round_of_active_ne_empty hcarried rs (hkeeps ▸ by decide) hne
  rw [← (hmem index).mp hindex]
  exact hfails

end Allocator

end MmixCodegen
