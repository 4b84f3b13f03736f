import MmixCodegen.Proofs.Assembly
import MmixCodegen.Proofs.Select.Confined

/-!
# `MmixCodegen.Proofs.Select.Program`: what is selected for a program

The procedures of a program draw on one supply, one after the other. It starts above
every temporary that any of them mentions (`Program.lt_of_firstSupply`).
`Program.selects_of_select` takes a successful selection apart, and
`Program.yields_of_select` says what is left of it for each procedure: its routine was
selected with a part of the supply that lies between the two ends.
-/

set_option autoImplicit false

namespace MmixCodegen

namespace Procedure

variable {p : Procedure}

/-- The temporaries of a statement are temporaries of its procedure. -/
theorem mem_temps_of_mem_body {st : Stmt} {t : Temp} (hst : st ∈ p.body) (ht : t ∈ st.temps) :
    t ∈ p.temps :=
  List.mem_append_left _ (List.mem_flatMap.mpr ⟨st, hst, ht⟩)

/-- If all labels of a procedure are plain, so are those of its statements. -/
theorem plain_of_mem_body (h : ∀ l ∈ p.labels, l.Plain) {st : Stmt} (hst : st ∈ p.body) :
    ∀ l ∈ st.labels, l.Plain :=
  fun l hl => h l (List.mem_flatMap.mpr ⟨st, hst, hl⟩)

/-- No temporary of a procedure has a higher number than its highest one. -/
theorem number_le_maxTemp {t : Temp} (ht : t ∈ p.temps) : t.number ≤ p.maxTemp := by
  have hfold : ∀ (ts : List Temp) (start : Nat),
      start ≤ ts.foldl (fun m t => max m t.number) start ∧
        ∀ t ∈ ts, t.number ≤ ts.foldl (fun m t => max m t.number) start := by
    intro ts
    induction ts with
    | nil => exact fun start => ⟨Nat.le_refl _, nofun⟩
    | cons u ts ih =>
        intro start
        obtain ⟨hstart, hall⟩ := ih (max start u.number)
        rw [List.foldl_cons, List.forall_mem_cons]
        exact ⟨by omega, by omega, hall⟩
  exact (hfold p.temps 0).2 t ht

/-- The routine is what is selected for the procedure with a part of the supply. -/
def Yields (p : Procedure) (first last : Nat) (r : Routine) : Prop :=
  ∃ (s rest : Supply) (is : List Instr), first ≤ s.next ∧ rest.next ≤ last ∧
    Select.procedure p s = .ok is rest ∧ r = p.toRoutine is

end Procedure

namespace Program

variable {ps : List Procedure} {program : Program} {supply : Supply}

/-- The supply starts above every temporary of the procedures. -/
theorem lt_of_firstSupply (h : firstSupply ps = .ok supply) :
    ∀ p ∈ ps, ∀ t ∈ p.temps, t.number < supply.next := by
  induction ps generalizing supply with
  | nil => exact nofun
  | cons p ps ih =>
      rw [firstSupply] at h
      split at h
      · obtain ⟨rest, hrest, h⟩ := bind_eq_ok.mp h
        cases h
        rw [List.forall_mem_cons]
        constructor
        · intro t ht
          have hle := Procedure.number_le_maxTemp ht
          show t.number < max (p.maxTemp + 1) rest.next
          omega
        · intro q hq t ht
          have hlt := ih hrest q hq t ht
          show t.number < max (p.maxTemp + 1) rest.next
          omega
      · cases h

/-- Selection goes through the procedures in order, from one supply to another. -/
inductive Selects : Supply → List Procedure → List Routine → Supply → Prop
  | nil (supply : Supply) : Selects supply [] [] supply
  | cons {p : Procedure} {ps : List Procedure} {is : List Instr} {rs : List Routine}
      {supply mid last : Supply} (head : Select.procedure p supply = .ok is mid)
      (rest : Selects mid ps rs last) : Selects supply (p :: ps) (p.toRoutine is :: rs) last

/-- Selection that succeeds went through all procedures in order. -/
theorem selects_of_selectRoutines (h : (selectRoutines supply ps).outcome = .ok program) :
    Selects supply ps program.routines program.supply := by
  induction ps generalizing supply program with
  | nil =>
      cases h
      exact .nil supply
  | cons p ps ih =>
      rw [selectRoutines, Procedure.select] at h
      cases hselect : (Select.procedure p).run supply with
      | error e rest =>
          simp only [hselect, Logged.outcome_bind] at h
          cases h
      | ok is rest =>
          simp only [hselect, Logged.outcome_bind] at h
          obtain ⟨r, hr, h⟩ := bind_eq_ok.mp h
          cases hr
          replace h := bind_eq_ok.mp h
          obtain ⟨others, hothers, h⟩ := h
          cases h
          exact .cons hselect (ih hothers)

/-- What a successful selection does. -/
theorem selects_of_select (h : (select ps).outcome = .ok program) :
    ∃ first, firstSupply ps = .ok first ∧
      Selects first ps program.routines program.supply := by
  rw [select, Logged.outcome_bind] at h
  obtain ⟨first, hfirst, h⟩ := bind_eq_ok.mp h
  exact ⟨first, hfirst, selects_of_selectRoutines h⟩

/-- The supply does not go down. -/
theorem Selects.le {rs : List Routine} {last : Supply} (h : Selects supply ps rs last) :
    supply.next ≤ last.next := by
  induction h with
  | nil => exact Nat.le_refl _
  | cons head _ ih =>
      obtain ⟨parts, hparts, -⟩ := Select.exists_mapM_stmt head
      obtain ⟨hle, -⟩ : _ ∧ ∀ part ∈ parts, Select.Part (fun _ => True) _ _ part :=
        Select.part_of_mem (fun _ _ _ _ _ => trivial) hparts
      exact Nat.le_trans hle ih

/-- Each routine was selected with a part of the supply that lies between the two ends. -/
theorem Selects.yields {rs : List Routine} {first : Nat} {last : Supply}
    (h : Selects supply ps rs last) (hfirst : first ≤ supply.next) :
    List.Forall₂ (fun p r => p.Yields first last.next r) ps rs := by
  induction h with
  | nil => exact .nil
  | cons head rest ih =>
      have hle := (Selects.cons head (.nil _)).le
      exact .cons ⟨_, _, _, hfirst, rest.le, head, rfl⟩ (ih (Nat.le_trans hfirst hle))

/-- What a successful selection gives. -/
theorem yields_of_select (h : (select ps).outcome = .ok program) :
    ∃ first, (∀ p ∈ ps, ∀ t ∈ p.temps, t.number < first) ∧ first ≤ program.supply.next ∧
      List.Forall₂ (fun p r => p.Yields first program.supply.next r) ps program.routines := by
  obtain ⟨first, hfirst, hselects⟩ := selects_of_select h
  exact ⟨first.next, lt_of_firstSupply hfirst, hselects.le, hselects.yields (Nat.le_refl _)⟩

/-- The routines of a program with plain labels, one by one. -/
theorem emitsAll_of_select (hlabels : ∀ p ∈ ps, ∀ l ∈ p.labels, l.Plain)
    (h : (select ps).outcome = .ok program) {r : Routine} (hr : r ∈ program.routines) :
    r.frame.rv.number < program.supply.next ∧
      Select.EmitsAll Instr.Selected 0 program.supply.next r.instrs := by
  obtain ⟨first, htemps, hfirst, hyields⟩ := yields_of_select h
  obtain ⟨p, hp, s, rest, is, hs, hrest, hprocedure, rfl⟩ := exists_mem_of_forall₂ hyields.flip hr
  have hemits := Select.emitsAll_stmts
    (fun st hst => Procedure.plain_of_mem_body (hlabels p hp) hst)
    (fun st hst u hu => Nat.lt_of_lt_of_le
      (htemps p hp u (Procedure.mem_temps_of_mem_body hst hu)) hs) hprocedure
  refine ⟨?_, Nat.zero_le _, hemits.all,
    fun i hi t ht => Nat.lt_of_lt_of_le (hemits.below i hi t ht) hrest⟩
  have hrv : p.frame.rv ∈ p.temps := List.mem_append_right _ (by simp)
  exact Nat.lt_of_lt_of_le (htemps p hp _ hrv) hfirst

end Program

end MmixCodegen
