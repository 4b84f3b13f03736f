import MmixCodegen.Proofs.Spill.Spared

/-!
# `MmixCodegen.Proofs.Liveness`: a run depends on what is live

Two states are `Routine.Alike` if they differ in nothing but temporaries that are not live where
control is. A step keeps that, because an instruction reads what is live before it, and what is live
after it is written by it or was live already (`Routine.Alike.step`). So do runs
(`Routine.Alike.run`). They carry out the same operations, and they return the same value if one is
written at all (`Routine.Alike.returns_iff`).
-/

set_option autoImplicit false

namespace MmixCodegen

open Mmix (Hidden)

namespace Routine

variable {E : Type} {m : Meaning Word (Hidden E)} {r : Routine}
  {s s' : Machine.State Temp Word (Hidden E)}

/-- Where an instruction goes on is one of the places where control may be after it. -/
theorem leads_target (m : Meaning Word (Hidden E)) (r : Routine) (index : Nat) (i : Instr)
    (operands : List Word) (h : Hidden E) :
    r.Leads index i ((i.target? m operands h).elim (.line (index + 1))
      (Machine.goto r.effects)) := by
  obtain ⟨kind, live⟩ := i
  cases kind with
  | oper template uses defs jumps => exact Coloring.leads_next r index _ _
  | move template dst src => exact .inl ⟨rfl, rfl⟩
  | label l => exact .inl ⟨rfl, rfl⟩

/-- Two states that differ at most in temporaries that are not live. -/
structure Alike (r : Routine) (s s' : Machine.State Temp Word (Hidden E)) : Prop where
  place : s'.place = s.place
  hidden : s'.hidden = s.hidden
  live : ∀ t ∈ r.liveAt s.place, s'.store t = s.store t

namespace Alike

/-- The relation does not tell the two states apart. -/
theorem symm (h : r.Alike s s') : r.Alike s' s :=
  ⟨h.place.symm, h.hidden.symm, fun t ht => (h.live t (h.place ▸ ht)).symm⟩

/-- An instruction reads only what is live before it, so alike states are alike after it, and
the same operations are carried out. -/
theorem perform {index : Nat} {i : Instr} (hanalyzed : r.Analyzed) (h : r.Alike s s')
    (hplace : s.place = .line index) (hi : r.instrs[index]? = some i) :
    r.Alike (Machine.perform m r.effects index s i.effect).1
        (Machine.perform m r.effects index s' i.effect).1 ∧
      (Machine.perform m r.effects index s' i.effect).2 =
        (Machine.perform m r.effects index s i.effect).2 := by
  have hbefore : ∀ t ∈ i.live.before, s'.store t = s.store t := by
    intro t ht
    refine h.live t ?_
    rw [hplace, liveAt, liveBefore_eq hi]
    exact ht
  -- The operands are live, so the instruction reads the same values and does the same.
  have hoperands : i.uses.map s'.store = i.uses.map s.store :=
    List.map_congr_left fun t ht => hbefore t (hanalyzed.mem_before_of_mem_uses hi ht)
  rw [Machine.perform_effect, Machine.perform_effect, hoperands, h.hidden]
  refine ⟨⟨rfl, rfl, fun t ht => ?_⟩, rfl⟩
  have hafter := hanalyzed.mem_after_of_mem_liveAt hi (leads_target m r index i _ _) ht
  have hwrite : ∀ values : Nat → Word, Machine.write values 0 (i.defs.map id) s'.store (id t) =
      Machine.write values 0 i.defs s.store t := fun values =>
    Machine.write_map 0 (fun d _ hd => hd) fun hnot =>
      hbefore t (hanalyzed.mem_before_of_mem_after hi hafter hnot)
  rw [List.map_id] at hwrite
  exact hwrite _

/-- A step keeps two states alike, and carries out the same operations in both. -/
theorem step (hanalyzed : r.Analyzed) (h : r.Alike s s') :
    r.Alike (Machine.step m r.effects s).1 (Machine.step m r.effects s').1 ∧
      (Machine.step m r.effects s').2 = (Machine.step m r.effects s).2 := by
  obtain ⟨index, i, hplace, hi⟩ | hstuck := r.at_or_stuck s
  · rw [step_effects hplace hi, step_effects (h.place.trans hplace) hi]
    exact h.perform hanalyzed hplace hi
  · have hstuck' : ∀ index, s'.place = .line index → r.instrs[index]? = none :=
      fun index hplace => hstuck index (h.place.symm.trans hplace)
    rw [step_of_stuck hstuck, step_of_stuck hstuck']
    exact ⟨h, rfl⟩

/-- Runs of the same length from alike states end alike, with the same operations on the way. -/
theorem run (hanalyzed : r.Analyzed) (h : r.Alike s s') (n : Nat) :
    r.Alike (Machine.run m r.effects s n).1 (Machine.run m r.effects s' n).1 ∧
      (Machine.run m r.effects s' n).2 = (Machine.run m r.effects s n).2 := by
  induction n with
  | zero => exact ⟨h, rfl⟩
  | succ n ih =>
      obtain ⟨halike, hsame⟩ := ih
      obtain ⟨hnext, hnow⟩ := halike.step (m := m) hanalyzed
      refine ⟨hnext, ?_⟩
      show (Machine.run m r.effects s' n).2 ++ (Machine.step m r.effects _).2 =
        (Machine.run m r.effects s n).2 ++ (Machine.step m r.effects _).2
      rw [hsame, hnow]

/-- The value returned from one of two alike states is returned from the other too, because the
result is live at the exit. -/
theorem returns (hanalyzed : r.Analyzed) (hdefines : r.definesResult = true) (h : r.Alike s s')
    {v : Word} (hreturns : Machine.Returns m r.effects r.exit r.frame.rv s v) :
    Machine.Returns m r.effects r.exit r.frame.rv s' v := by
  obtain ⟨n, hplace, hvalue⟩ := hreturns
  obtain ⟨hend, -⟩ := h.run (m := m) hanalyzed n
  refine ⟨n, hend.place.trans hplace, (hend.live _ ?_).trans hvalue⟩
  rw [hplace]
  exact mem_liveAt_left.mpr ⟨⟨rfl, hdefines⟩, rfl⟩

/-- Alike states return the same value. -/
theorem returns_iff (hanalyzed : r.Analyzed) (hdefines : r.definesResult = true)
    (h : r.Alike s s') (v : Word) :
    Machine.Returns m r.effects r.exit r.frame.rv s' v ↔
      Machine.Returns m r.effects r.exit r.frame.rv s v :=
  ⟨h.symm.returns hanalyzed hdefines, h.returns hanalyzed hdefines⟩

end Alike

end Routine

end MmixCodegen
