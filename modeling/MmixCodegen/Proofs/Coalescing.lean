import MmixCodegen.Proofs.Assembly
import MmixCodegen.Proofs.Disjoint

/-!
# `MmixCodegen.Proofs.Coalescing`: coalesced copies disappear

A move counts as coalesced when its ends stand for the same temporary, or when what they stand
for is merged. Later merges, shortened chains and the registers that are given out do not
separate them again: `Allocator.Joined` is the invariant, `Joined.perform` its step and
`Joined.runs` what a run keeps. So in the end both have the same register
(`Allocator.colors_of_coalesced`).

Assembling drops copies within one register and nothing else. So every coalesced move is dropped,
and the number of dropped copies is at least the one that is reported
(`Program.coalesced_moves_disappear`).
-/

set_option autoImplicit false

namespace MmixCodegen

namespace Allocator

variable {a b c : Allocator} {g : Interference} {t u v : Temp} {action : Action}

/-! ### Where moves are coalesced -/

/-- No move was coalesced on the way from `a` to `b`. -/
def CoalescesNone (a b : Allocator) : Prop :=
  ∀ index : Nat, b.moveStatuses[index]? = some .coalesced → a.moveStatuses[index]? = some .coalesced

namespace CoalescesNone

/-- A step that leaves all moves alone coalesces none. -/
theorem of_eq (h : b.moveStatuses = a.moveStatuses) : CoalescesNone a b :=
  fun _ hindex => h ▸ hindex

/-- Two steps in turn coalesce no move if neither of them does. -/
theorem trans (h : CoalescesNone a b) (h' : CoalescesNone b c) : CoalescesNone a c :=
  fun index hindex => h index (h' index hindex)

/-- A loop coalesces no move if none of its rounds does. -/
theorem foldl {α : Type} {f : Allocator → α → Allocator} (hf : ∀ a x, CoalescesNone a (f a x))
    (a : Allocator) (l : List α) : CoalescesNone a (l.foldl f a) := by
  induction l generalizing a with
  | nil => exact of_eq rfl
  | cons x l ih => exact (hf a x).trans (ih (f a x))

/-- Another status than `coalesced` for a move coalesces none. -/
theorem placeMove (a : Allocator) (index : Nat) {next : MoveStatus} (hnext : next ≠ .coalesced) :
    CoalescesNone a (a.placeMove index next) := by
  intro other hother
  rw [moveStatuses_placeMove] at hother
  split at hother
  · obtain ⟨prev, -, rfl⟩ := Option.map_eq_some_iff.mp hother
    exact absurd rfl hnext
  · exact hother

/-- Waking moves only puts them back to the waiting ones. -/
theorem wakeMoves (a : Allocator) (t : Temp) : CoalescesNone a (a.wakeMoves t) := by
  refine foldl (fun a index => ?_) a _
  split
  · exact placeMove a index (by decide)
  · exact of_eq rfl

/-- Releasing a temporary leaves all moves alone. -/
theorem release (a : Allocator) (t : Temp) : CoalescesNone a (a.release t) := by
  unfold Allocator.release
  split <;> exact of_eq rfl

/-- The loss of a neighbour may wake moves, and coalesces none. -/
theorem loseNeighbor (a : Allocator) (t : Temp) : CoalescesNone a (a.loseNeighbor t) := by
  have hwoken : CoalescesNone a ((a.lowerDegree t).wakeAround t) :=
    (of_eq rfl).trans (foldl wakeMoves _ _)
  unfold Allocator.loseNeighbor
  split
  · exact of_eq rfl
  · split
    · refine hwoken.trans ?_
      unfold lighten
      split <;> exact of_eq rfl
    · exact of_eq rfl

/-- Taking a temporary out of the graph coalesces no move. -/
theorem simplify (a : Allocator) (t : Temp) : CoalescesNone a (a.simplify t) :=
  (of_eq rfl).trans (foldl loseNeighbor (a.place t .onStack) _)

/-- Merging two temporaries wakes moves up. The move that it is done for is settled before. -/
theorem merge (a : Allocator) (u v : Temp) : CoalescesNone a (a.merge u v) := by
  have hjoin : CoalescesNone a ((a.join u v).wakeMoves v) := (of_eq rfl).trans (wakeMoves _ v)
  have htake : ∀ a n, CoalescesNone a (a.takeOver u n) :=
    fun a n => (of_eq rfl).trans (loseNeighbor _ n)
  have habsorb : CoalescesNone a (a.absorb u v) := hjoin.trans (foldl htake _ _)
  refine habsorb.trans ?_
  unfold Allocator.merge burden
  split <;> exact of_eq rfl

/-- Freezing the moves of a temporary coalesces none. -/
theorem freezeMoves (a : Allocator) (t : Temp) : CoalescesNone a (a.freezeMoves t) := by
  refine (of_eq rfl).trans (foldl (fun b index => ?_) (a.compress t) _)
  unfold freezeMove
  split
  · exact of_eq rfl
  · next m hm =>
    have hplaced := fun other => placeMove ((b.compress m.src).compress other) index
      (show MoveStatus.frozen ≠ .coalesced by decide)
    exact (of_eq rfl).trans ((hplaced _).trans (release _ _))

end CoalescesNone

/-! ### The ends of a coalesced move -/

/-- The ends of every coalesced move stand for the same temporary. -/
def Joined (a : Allocator) : Prop :=
  ∀ (index : Nat) (m : Move), a.moveStatuses[index]? = some .coalesced →
    a.graph.moves[index]? = some m → a.representative m.dst = a.representative m.src

namespace Joined

/-- An action keeps the ends of coalesced moves together, if it joins those of the moves that it
coalesces itself. -/
theorem perform_of (h : a.Joined) (hunderway : Underway g a) (haction : a.Enabled action)
    (hnew : ∀ (index : Nat) (m : Move), (a.perform action).moveStatuses[index]? = some .coalesced →
      a.graph.moves[index]? = some m → a.moveStatuses[index]? = some .coalesced ∨
        (action.effect a.view).rep m.dst = (action.effect a.view).rep m.src) :
    (a.perform action).Joined := by
  intro index m hstatus hm
  rw [(hunderway.tidy.steps_perform haction).moves] at hm
  rw [← rep_view, ← rep_view, hunderway.tidy.view_perform hunderway.linked haction]
  rcases hnew index m hstatus hm with hold | heq
  · exact action.effect_rep (h index m hold hm)
  · exact heq

/-- Of the moves only the settled one is newly coalesced. -/
theorem old_of_settled {index other : Nat} {m : Move} (hne : index ≠ other)
    (hrest : CoalescesNone ((a.compressEnds m).placeMove index .coalesced) b)
    (hstatus : b.moveStatuses[other]? = some .coalesced) :
    a.moveStatuses[other]? = some .coalesced := by
  have hplaced := hrest other hstatus
  rw [moveStatuses_placeMove, if_neg hne] at hplaced
  exact hplaced

/-- An action that is enabled keeps the ends of all coalesced moves together. -/
theorem perform (h : a.Joined) (hunderway : Underway g a) (haction : a.Enabled action) :
    (a.perform action).Joined := by
  refine h.perform_of hunderway haction fun other m' hstatus hm' => ?_
  cases haction with
  | simplify ht => exact .inl (CoalescesNone.simplify _ _ _ hstatus)
  | @join index m hindex hm heq =>
      by_cases hother : index = other
      · -- The ends stand for the same temporary already.
        subst hother
        cases hm.symm.trans hm'
        exact .inr heq
      · exact .inl (old_of_settled hother (CoalescesNone.release _ _) hstatus)
  | @constrain index m hindex hm =>
      have hplaced := CoalescesNone.placeMove (a.compressEnds m) index
        (show MoveStatus.constrained ≠ .coalesced by decide)
      have hall := hplaced.trans ((CoalescesNone.release _ (a.representative m.dst)).trans
        (CoalescesNone.release _ (a.representative m.src)))
      exact .inl (hall _ hstatus)
  | @merge index m hindex hm hne hapart htest =>
      by_cases hother : index = other
      · -- What the ends stand for is merged.
        subst hother
        cases hm.symm.trans hm'
        exact .inr ((if_neg hne).trans (if_pos rfl).symm)
      · exact .inl (old_of_settled hother
          ((CoalescesNone.merge _ _ _).trans (CoalescesNone.release _ _)) hstatus)
  | @postpone index m hindex hm =>
      exact .inl (CoalescesNone.placeMove (a.compressEnds m) index (by decide) _ hstatus)
  | freeze ht => exact .inl (CoalescesNone.freezeMoves (a.place _ .simplify) _ _ hstatus)
  | spill ht hsimplify hfreeze hshield =>
      exact .inl (CoalescesNone.freezeMoves (a.place _ .simplify) _ _ hstatus)

/-- So does a run of actions, one after the other. -/
theorem runs (h : a.Joined) (hunderway : Underway g a) {actions : List Action}
    (hrun : Runs a actions b) : b.Joined := by
  have hboth : Underway g b ∧ b.Joined := by
    refine hrun.induct (p := fun b => Underway g b ∧ b.Joined) ?_ ⟨hunderway, h⟩
    rintro a action ⟨hunderway, h⟩ hnext
    have haction := enabled_of_next? hunderway.tidy hnext
    exact ⟨hunderway.perform haction, h.perform hunderway haction⟩
  exact hboth.2

end Joined

/-! ### The end of a round -/

section New

variable (registers : Nat) (shielded : TempSet) (rs : List Routine)

/-- At the end of a round the ends of every coalesced move stand for the same temporary. -/
theorem joined_drained : (drained registers shielded rs).Joined := by
  refine Joined.runs ?_ (underway_sort registers shielded rs) (runs_drain _)
  -- At the start all moves wait.
  intro index m hstatus
  rw [(sort_eq _).2.1] at hstatus
  replace hstatus : (Array.replicate _ MoveStatus.worklist)[index]? = some .coalesced := hstatus
  rw [Array.getElem?_replicate] at hstatus
  split at hstatus <;> cases hstatus

/-- The ends of a coalesced move have the same register. -/
theorem colors_of_coalesced {index : Nat} {m : Move}
    (hstatus : (drained registers shielded rs).moveStatuses[index]? = some .coalesced)
    (hm : (Interference.ofRoutines rs).moves[index]? = some m) :
    (finalColoring registers shielded rs).colors[m.dst]? =
      (finalColoring registers shielded rs).colors[m.src]? := by
  have hfinished := finished_drained registers shielded rs
  obtain ⟨-, -, hcolors⟩ := hfinished.assignAll
  have hmoves : (drained registers shielded rs).graph.moves = (Interference.ofRoutines rs).moves :=
    (steps_drained registers shielded rs).moves
  rw [colors_finalColoring, hcolors, hcolors,
    joined_drained registers shielded rs index m hstatus (hmoves ▸ hm)]

end New

end Allocator

/-! ### Counting -/

/-- If members with one property stand beside members with another one, there are no
more of the former. -/
theorem countP_le_of_forall₂ {α β : Type} {p : α → Bool} {q : β → Bool} {as : List α} {bs : List β}
    (h : List.Forall₂ (fun a b => p a = true → q b = true) as bs) : as.countP p ≤ bs.countP q := by
  induction h with
  | nil => exact Nat.le_refl _
  | @cons a b as bs hab _ ih =>
      rw [List.countP_cons, List.countP_cons]
      by_cases ha : p a = true
      · rw [if_pos ha, if_pos (hab ha)]
        omega
      · rw [if_neg ha]
        omega

namespace Coloring

variable {c : Coloring} {r : Routine} {i : Instr} {dst src : Temp}

/-- The ends of a copy that is not dropped have different registers. -/
theorem Fits.registers_of_copy (hfits : c.Fits r) (hi : i ∈ (c.dropRedundant r).instrs)
    (hpair : i.movePair? = some (dst, src)) :
    ∃ reg reg', c.colors[dst]? = some reg ∧ c.colors[src]? = some reg' ∧ reg ≠ reg' := by
  obtain ⟨hmem, hkept⟩ := List.mem_filter.mp hi
  have hdst := hfits.colored i hmem dst (Instr.mem_temps.mpr (.inr (.inl ?_)))
  have hsrc := hfits.colored i hmem src (Instr.mem_temps.mpr (.inl ?_))
  · refine ⟨_, _, hdst, hsrc, fun heq => ?_⟩
    rw [isRedundant, hpair] at hkept
    simp [hdst, hsrc, heq] at hkept
  all_goals
    cases hkind : i.kind <;> simp_all [Instr.movePair?, Instr.defs, Instr.uses]

/-- Only copies are dropped. -/
theorem filter_dropRedundant (c : Coloring) (r : Routine) :
    (c.dropRedundant r).instrs.filter (·.movePair?.isNone) =
      r.instrs.filter (·.movePair?.isNone) := by
  rw [dropRedundant, List.filter_filter]
  refine List.filter_congr fun i _ => ?_
  cases hpair : i.movePair? <;> simp [isRedundant, hpair]

/-- The copies that are dropped are those within one register. -/
theorem countP_copies (c : Coloring) (is : List Instr) :
    (Interference.copies is).countP
        (fun m => c.colors[m.dst]?.isSome && c.colors[m.dst]? = c.colors[m.src]?) =
      is.countP c.isRedundant := by
  rw [Interference.copies, List.countP_filterMap]
  refine List.countP_congr fun i _ => ?_
  rw [isRedundant]
  cases hpair : i.movePair? <;> simp

/-- Each instruction is either kept or dropped. -/
theorem length_filter_add_countP (c : Coloring) (is : List Instr) :
    (is.filter fun i => !c.isRedundant i).length + is.countP c.isRedundant = is.length := by
  rw [List.countP_eq_length_filter, Nat.add_comm]
  exact (List.length_eq_length_filter_add c.isRedundant).symm

/-- What is left of all routines. -/
theorem flatMap_source_of_assemble {window : Register} {rs : List Routine}
    {ss : List AssemblyRoutine}
    (h : List.Forall₂ (fun r s => (c.assemble window r).outcome = .ok s) rs ss) :
    ss.flatMap (·.source.instrs) =
      (rs.flatMap Routine.instrs).filter fun i => !c.isRedundant i := by
  induction h with
  | nil => rfl
  | cons hs _ ih =>
      rw [List.flatMap_cons, List.flatMap_cons, List.filter_append, ih, (effects_of_assemble hs).1]
      rfl

end Coloring

/-! ### Allocation -/

namespace Program

variable {target : Target} {settled : Settled} {rs : List Routine}

section LastRound

variable {registers : Nat} {shielded : TempSet} (hle : registers ≤ 256)
  (hspilled : (Allocator.finalColoring registers shielded rs).spilled.isEmpty = true)

include hle hspilled

/-- If nothing is spilled, the ends of a coalesced move are in one register. -/
theorem register_of_coalesced {index : Nat} {m : Move}
    (hstatus : (Allocator.drained registers shielded rs).moveStatuses[index]? = some .coalesced)
    (hm : (Interference.copies (rs.flatMap Routine.instrs))[index]? = some m) :
    ∃ reg, (Allocator.finalColoring registers shielded rs).colors[m.dst]? = some reg ∧
      (Allocator.finalColoring registers shielded rs).colors[m.src]? = some reg := by
  rw [← Interference.toList_moves_ofRoutines, Array.getElem?_toList] at hm
  have hsame := Allocator.colors_of_coalesced registers shielded rs hstatus hm
  have hmentioned : Mentioned rs m.dst := by
    rw [← Interference.mem_nodes_ofRoutines]
    exact ((Interference.closed_ofRoutines rs).ends_mem index m hm).1
  have hmem : m.dst ∈ (Allocator.finalColoring registers shielded rs).colors := by
    rw [Allocator.mem_colors_finalColoring registers shielded rs hle,
      Std.ExtTreeSet.isEmpty_iff.mp hspilled]
    exact ⟨hmentioned, Std.ExtTreeSet.not_mem_empty⟩
  have hdst := Std.ExtTreeMap.getElem?_eq_some_getElem hmem
  exact ⟨_, hdst, hsame ▸ hdst⟩

/-- At least as many copies are dropped as were coalesced. -/
theorem coalescedMoves_le_countP :
    (Allocator.finalColoring registers shielded rs).coalescedMoves ≤
      (rs.flatMap Routine.instrs).countP
        (Allocator.finalColoring registers shielded rs).isRedundant := by
  rw [Allocator.coalescedMoves_finalColoring, ← List.countP_eq_length_filter,
    ← Coloring.countP_copies]
  refine countP_le_of_forall₂ (List.forall₂_iff_get.mpr ⟨?_, fun index hstatus hm hcoalesced => ?_⟩)
  · rw [Array.length_toList, Allocator.size_moveStatuses_drained, ← Array.length_toList,
      Interference.toList_moves_ofRoutines]
  · have hindex :
        (Allocator.drained registers shielded rs).moveStatuses[index]? = some .coalesced := by
      rw [← Array.getElem?_toList, List.getElem?_eq_getElem hstatus]
      exact congrArg some (of_decide_eq_true hcoalesced)
    obtain ⟨reg, hdst, hsrc⟩ :=
      register_of_coalesced hle hspilled hindex (List.getElem?_eq_getElem hm)
    simp [hdst, hsrc]

end LastRound

/-- Coalesced moves disappear. In the last round the ends of every move that was coalesced are in
one register, and at least as many copies are dropped as there are such moves. The copies that
are left are between two registers, and all other instructions are kept in order. -/
theorem coalesced_moves_disappear {p : Program} {asm : Assembly}
    (h : (p.allocate target).outcome = .ok asm) :
    ∃ settled shielded, (p.settle target).outcome = .ok settled ∧
      asm.stats.coalescedMoves = ((Allocator.drained target.registers shielded
        settled.program.routines).moveStatuses.toList.filter (· = .coalesced)).length ∧
      (∀ (index : Nat) (m : Move),
        (Allocator.drained target.registers shielded
          settled.program.routines).moveStatuses[index]? =
          some .coalesced →
        (Interference.copies (settled.program.routines.flatMap Routine.instrs))[index]? = some m →
          ∃ reg, asm.colors[m.dst]? = some reg ∧ asm.colors[m.src]? = some reg) ∧
      asm.stats.coalescedMoves + (asm.routines.flatMap (·.source.instrs)).length ≤
        (settled.program.routines.flatMap Routine.instrs).length ∧
      List.Forall₂ (fun r s =>
        s.source.instrs.Sublist r.instrs ∧
        s.source.instrs.filter (·.movePair?.isNone) = r.instrs.filter (·.movePair?.isNone) ∧
        ∀ i ∈ s.source.instrs, ∀ dst src, i.movePair? = some (dst, src) →
          ∃ reg reg', asm.colors[dst]? = some reg ∧ asm.colors[src]? = some reg' ∧ reg ≠ reg')
        settled.program.routines asm.routines := by
  obtain ⟨hvalid, settled, hsettled, hcolors, hroutines⟩ := assembled_of_allocate h
  obtain ⟨hpos, hle⟩ := Target.registers_of_validate hvalid
  have hle : target.registers ≤ 256 := Nat.le_trans hle (by decide)
  obtain ⟨-, shielded, -, hcoloring, hempty, hcount⟩ := last_round_of_settleWithin hsettled
  -- The colouring is the one that the last round ends with.
  rw [Allocator.ofRoutines_eq _ _ _ hpos] at hcoloring
  have hfinal := Except.ok.inj hcoloring
  rw [← stats_of_allocate h hsettled] at hcount
  rw [← hfinal] at hempty
  refine ⟨settled, shielded, hsettled, ?_, fun index m hstatus hm => ?_, ?_, ?_⟩
  · rw [hcount, ← hfinal, Allocator.coalescedMoves_finalColoring]
  · rw [hcolors, ← hfinal]
    exact register_of_coalesced hle hempty hstatus hm
  · have hdropped := coalescedMoves_le_countP hle hempty
    rw [hfinal, ← hcount] at hdropped
    rw [Coloring.flatMap_source_of_assemble hroutines]
    have hall :=
      settled.coloring.length_filter_add_countP (settled.program.routines.flatMap Routine.instrs)
    omega
  · have hfits : ∀ r ∈ settled.program.routines, settled.coloring.Fits r :=
      fun r hr => fits_of_settle hvalid hsettled hr
    refine ((List.forall₂_and_left _ _).mpr ⟨hfits, hroutines⟩).imp fun r s hrs => ?_
    obtain ⟨hr, hs⟩ := hrs
    rw [(Coloring.effects_of_assemble hs).1, hcolors]
    exact ⟨List.filter_sublist, settled.coloring.filter_dropRedundant r,
      fun i hi dst src hpair => hr.registers_of_copy hi hpair⟩

/-- A number goes through three temporaries, and one more copy of it is kept while it is changed. -/
def passingOn : Program where
  routines := [{
    frame := ⟨⟨"f"⟩, 0, 0, 0, 0, ⟨0⟩, ⟨1⟩⟩
    entry := ⟨"f"⟩
    exit := ⟨"f.exit"⟩
    instrs :=
      [.ofKind (.oper "SETL `d0,9" [] [⟨2⟩] []),
        .copy ⟨3⟩ ⟨2⟩,
        .copy ⟨4⟩ ⟨3⟩,
        .copy ⟨5⟩ ⟨4⟩,
        .ofKind (.oper "ADD `d0,`s0,1" [⟨4⟩] [⟨4⟩] []),
        .ofKind (.oper "MUL `d0,`s0,`s1" [⟨4⟩, ⟨5⟩] [⟨1⟩] []),
        .ofKind (.oper "JMP f.exit" [] [] [⟨"f.exit"⟩])]
    slots := .empty }]
  supply := ⟨6⟩

/-- Two copies are coalesced and dropped, and the third one stays. -/
theorem passingOn_copies_disappear :
    ∃ asm settled, (passingOn.allocate ⟨2, 32⟩).outcome = .ok asm ∧
      (passingOn.settle ⟨2, 32⟩).outcome = .ok settled ∧ asm.stats.coalescedMoves = 2 ∧
      2 + (asm.routines.flatMap (·.source.instrs)).length ≤
        (settled.program.routines.flatMap Routine.instrs).length ∧
      ((asm.routines.flatMap (·.source.instrs)).filterMap Instr.movePair?) = [(⟨5⟩, ⟨4⟩)] := by
  have hfacts : (passingOn.allocate ⟨2, 32⟩).outcome.toOption.map (fun asm =>
      (asm.stats.coalescedMoves,
        (asm.routines.flatMap (·.source.instrs)).filterMap Instr.movePair?)) =
        some (2, [(⟨5⟩, ⟨4⟩)]) := by
    decide +kernel
  cases h : (passingOn.allocate ⟨2, 32⟩).outcome with
  | error e =>
      rw [h] at hfacts
      cases hfacts
  | ok asm =>
      rw [h] at hfacts
      obtain ⟨hcount, hleft⟩ := Prod.mk.inj (Option.some.inj hfacts)
      obtain ⟨settled, -, hsettled, -, -, hdropped, -⟩ := coalesced_moves_disappear h
      rw [hcount] at hdropped
      exact ⟨asm, settled, rfl, hsettled, hcount, hdropped, hleft⟩

end Program

end MmixCodegen
