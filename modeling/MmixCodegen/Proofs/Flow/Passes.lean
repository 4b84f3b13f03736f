import MmixCodegen.Proofs.Flow.Path
import Mathlib.Logic.Function.Iterate

/-!
# `MmixCodegen.Proofs.Flow.Passes`: how many passes an analysis takes

`FlowGraph.passes` are the live sets after some number of passes from empty ones. They only
ever grow (`FlowGraph.within_passes`), and each pass that changes something adds a member to
one of the two sets of some instruction, so the passes come to an end. `settle_eq_passes` says
which pass is the last: the first one that changes nothing.

`Routine.analyze_passes_bounded` puts the two together for a routine. That the sets start out
empty matters: around `Routine.carousel` other sets are passed on forever.
-/

set_option autoImplicit false

namespace MmixCodegen

namespace FlowGraph

variable {g : FlowGraph} {lives : Array Live}

/-- The live sets after some number of passes, from empty ones. -/
def passes (g : FlowGraph) (count : Nat) : Array Live :=
  g.pass^[count] (Array.replicate g.nodes.length .none)

/-- One more pass goes over what the passes before have found. -/
theorem passes_succ (g : FlowGraph) (count : Nat) :
    g.passes (count + 1) = g.pass (g.passes count) :=
  Function.iterate_succ_apply' g.pass count _

/-- After any number of passes the live sets are still within what the instructions ask for. -/
theorem rising_passes (g : FlowGraph) (count : Nat) : Rising g (g.passes count) := by
  induction count with
  | zero => exact Rising.none g
  | succ count ih =>
      rw [passes_succ]
      exact ih.pass.1

/-- A pass takes nothing out of a live set. -/
theorem within_passes (g : FlowGraph) (count : Nat) :
    Within (g.passes count) (g.passes (count + 1)) := by
  rw [passes_succ]
  exact (rising_passes g count).pass.2

/-- Settling stops with the first pass that changes nothing, and each pass before it makes the
live sets larger. -/
theorem settleWithin_eq_iterate {fuel : Nat} (h : Rising g lives) (hconfined : Confined g lives)
    (hfuel : 2 * g.nodes.length * g.temps.size < total lives + fuel) :
    ∃ count, g.settleWithin fuel lives = (g.pass^[count] lives, count + 1) ∧
      total lives + count ≤ 2 * g.nodes.length * g.temps.size ∧
      g.pass^[count + 1] lives = g.pass^[count] lives ∧
      ∀ earlier < count, g.pass^[earlier + 1] lives ≠ g.pass^[earlier] lives := by
  induction fuel generalizing lives with
  | zero =>
      have hle := hconfined.total_le h.size_eq
      omega
  | succ fuel ih =>
      obtain ⟨hrising, hwithin⟩ := h.pass
      have hroom := hconfined.total_le h.size_eq
      rw [settleWithin]
      dsimp only
      split
      · next heq => exact ⟨0, rfl, hroom, heq, fun earlier hlt => absurd hlt (Nat.not_lt_zero _)⟩
      · next hne =>
          have hlt := hwithin.total_lt (Ne.symm hne)
          obtain ⟨count, hsettle, hcount, hlast, hearlier⟩ :=
            ih hrising (hconfined.pass h.size_eq) (by omega)
          rw [hsettle]
          refine ⟨count + 1, rfl, by omega, hlast, fun earlier hlt => ?_⟩
          -- The first pass changes something; the others are passes from where it leads.
          cases earlier with
          | zero => exact hne
          | succ earlier => exact hearlier earlier (by omega)

/-- Settling stops after the first pass that changes nothing, and there is one within twice as
many passes as there are instructions times temporaries. -/
theorem settle_eq_passes (g : FlowGraph) :
    ∃ count, g.settle = (g.passes count, count + 1) ∧
      count ≤ 2 * g.nodes.length * g.temps.size ∧
      g.passes (count + 1) = g.passes count ∧
      ∀ earlier < count, g.passes (earlier + 1) ≠ g.passes earlier := by
  have hfuel : 2 * g.nodes.length * g.temps.size <
      total (Array.replicate g.nodes.length .none) + g.passBound := by
    unfold passBound
    omega
  obtain ⟨count, hsettle, hcount, hlast, hearlier⟩ :=
    settleWithin_eq_iterate (Rising.none g) (Confined.none g) hfuel
  exact ⟨count, hsettle, by omega, hlast, hearlier⟩

end FlowGraph

namespace Routine

/-- The temporaries that a routine reads, and its return value. -/
def wanted (r : Routine) : TempSet :=
  TempSet.ofList (r.frame.rv :: r.instrs.flatMap Instr.uses)

/-- What can be live anywhere is among what the routine reads and its return value. -/
theorem size_temps_le (r : Routine) : (FlowGraph.ofRoutine r).temps.size ≤ r.wanted.size := by
  refine TempSet.size_le_of_subset fun t ht => ?_
  rw [FlowGraph.temps, TempSet.mem_ofList, List.mem_append] at ht
  rw [wanted, TempSet.mem_ofList, List.mem_cons]
  rcases ht with hread | hexit
  · right
    obtain ⟨n, hn, ht⟩ := List.mem_flatMap.mp hread
    obtain ⟨index, hlt, rfl⟩ := List.mem_mapIdx.mp hn
    exact List.mem_flatMap.mpr ⟨_, List.getElem_mem hlt, ht⟩
  · left
    exact (exitLive_eq_some.mp (Option.mem_toList.mp hexit)).2.symm

/-- Three jumps in a circle, each of them over the label that the next one jumps to. -/
def carousel : Routine where
  frame := ⟨⟨"carousel"⟩, 0, 0, 0, 0, ⟨0⟩, ⟨1⟩⟩
  entry := ⟨"carousel"⟩
  exit := ⟨"exit"⟩
  slots := .empty
  instrs := [
    .ofKind (.label ⟨"first"⟩),
    .ofKind (.oper "JMP third" [] [] [⟨"third"⟩]),
    .ofKind (.label ⟨"second"⟩),
    .ofKind (.oper "JMP first" [] [] [⟨"first"⟩]),
    .ofKind (.label ⟨"third"⟩),
    .ofKind (.oper "JMP second" [] [] [⟨"second"⟩])]

/-- Live sets with a temporary that no instruction of `carousel` reads. -/
def rider : Array Live :=
  let seated : Live := ⟨{⟨2⟩}, {⟨2⟩}⟩
  #[seated, seated, .none, .none, seated, seated]

/-- An analysis stops with the first pass that changes nothing, and until then every pass only
adds to the live sets. From other sets a pass may take away, and passes may go on forever. -/
theorem analyze_passes_bounded :
    (∀ r : Routine,
      (∃ count, r.analyze = (r.withLives ((FlowGraph.ofRoutine r).passes count), count + 1) ∧
        count + 1 ≤ 2 * r.instrs.length * r.wanted.size + 1 ∧
        (FlowGraph.ofRoutine r).passes (count + 1) = (FlowGraph.ofRoutine r).passes count ∧
        ∀ earlier < count, (FlowGraph.ofRoutine r).passes (earlier + 1) ≠
          (FlowGraph.ofRoutine r).passes earlier) ∧
      ∀ count, FlowGraph.Within ((FlowGraph.ofRoutine r).passes count)
        ((FlowGraph.ofRoutine r).passes (count + 1))) ∧
    ∃ (r : Routine) (lives : Array Live), lives.size = r.instrs.length ∧
      ¬FlowGraph.Within lives ((FlowGraph.ofRoutine r).pass lives) ∧
      (FlowGraph.ofRoutine r).pass ((FlowGraph.ofRoutine r).pass lives) = lives := by
  constructor
  · intro r
    obtain ⟨count, hsettle, hcount, hlast, hearlier⟩ :=
      FlowGraph.settle_eq_passes (FlowGraph.ofRoutine r)
    refine ⟨⟨count, ?_, ?_, hlast, hearlier⟩, FlowGraph.within_passes _⟩
    · rw [analyze, hsettle]
    · have hlength : (FlowGraph.ofRoutine r).nodes.length = r.instrs.length := List.length_mapIdx
      rw [hlength] at hcount
      have htemps := Nat.mul_le_mul_left (2 * r.instrs.length) (size_temps_le r)
      omega
  · refine ⟨carousel, rider, rfl, fun hwithin => ?_, by decide +kernel⟩
    -- The label at the start loses the temporary to the one in the middle.
    have hstays := (hwithin.le 0).before ⟨2⟩ (by decide +kernel)
    exact absurd hstays (by decide +kernel)

/-- One pass for what the loop reads, one for what its next round reads, and
one that changes nothing. -/
example : accumulate.analyze.2 = 3 := by decide +kernel

end Routine

end MmixCodegen
