import MmixCodegen.Proofs.Flow.Path
import MmixCodegen.Proofs.Select.Program
import MmixCodegen.Proofs.Spill.Round

/-!
# `MmixCodegen.Proofs.Isolation`: temporaries that are made stay where they are made

Selection and spilling draw new temporaries from the supply of a program, and nothing checks that
such a temporary is not one of another routine as well. `Isolated` says that it never is. The
supply lies above all temporaries of the program. What has a number from `first` on, where the
supply began, is in no procedure and in one routine at most.

Selection and each round of spilling go through the routines in order, and what they hand out for
one of them lies between two states of the supply. This is `Draws`, and it is all that
`Isolated.draws` needs.

A temporary that was made for a statement does not outlive it either. Each part of the code that
is selected for a procedure reads temporaries of the procedure, and those that it wrote before
(`Select.Part`). So a bound on the live sets is what the part wrote up to a line
(`Routine.closed_writesBefore`), and where a part begins that is nothing.
-/

set_option autoImplicit false

namespace MmixCodegen

/-- The temporary is mentioned in the code of the routine, or it is one of its frame. -/
def Routine.Mentions (r : Routine) (t : Temp) : Prop :=
  t ∈ r.temps ∨ t = r.frame.fp ∨ t = r.frame.rv

/-- The temporaries of a routine are those that its instructions mention. -/
theorem Routine.mem_temps {r : Routine} {t : Temp} : t ∈ r.temps ↔ ∃ i ∈ r.instrs, t ∈ i.temps := by
  rw [temps, TempSet.mem_ofList, List.mem_flatMap]

/-! ### What is handed out -/

namespace Spill

variable {spilled shielded shielded' : TempSet} {t : Temp}

/-- What an instruction of a cell mentions. Only the instruction that was there before has live
sets, and they are the old ones. -/
theorem Cell.Renders.mem_temps {frame : Frame} {leaving : Bool} {i j : Instr} {first last : Nat}
    {slots : SlotTable} {ρ : Temp → Temp} {c : Cell}
    (h : c.Renders frame spilled leaving i first last slots ρ) (hj : j ∈ c.toList)
    (ht : t ∈ j.temps) :
    t ∈ i.temps ∨ t = frame.rv ∨ (first ≤ t.number ∧ t.number < last) := by
  -- Inserted code has no live temporaries of its own, and the body has those of `i`.
  have hoperand : t ∈ j.operands ∨ t ∈ i.temps := by
    have haccess : ∀ a : Access, j ∈ a.load ∨ j ∈ a.store → t ∈ j.operands := by
      intro a hj
      obtain ⟨o, -, rfl⟩ := Access.mem_code hj
      rwa [Instr.temps_of_live rfl] at ht
    rw [Cell.toList, List.mem_append, List.mem_cons, List.mem_flatMap, List.mem_flatMap] at hj
    rcases hj with ⟨a, -, hj⟩ | rfl | ⟨a, -, hj⟩
    · exact .inl (haccess a (.inl hj))
    · rw [Instr.temps, List.append_assoc, List.mem_append, h.body, Instr.live_rename] at ht
      rw [h.body, Instr.temps, List.append_assoc]
      exact ht.imp_right (List.mem_append_right _)
    · exact .inl (haccess a (.inr hj))
  rcases hoperand with ht | ht
  · rcases List.mem_append.mp (Cell.mem_temps_of_mem_operands hj ht) with ht | ht
    · rcases h.mem_accessed ht with hnew | ⟨-, hrv⟩
      · exact .inr (.inr hnew)
      · exact .inr (.inl hrv)
    · rcases h.mem_operands ht with ⟨hfirst, hlast, -⟩ | ⟨hold, -⟩
      · exact .inr (.inr ⟨hfirst, hlast⟩)
      · exact .inl (List.mem_append_left _ (List.mem_append_left _ hold))
  · exact .inl ht

/-- Spilled code mentions what was mentioned before, the return value, and what was drawn from
the supply on the way. -/
theorem Rendered.mem_temps {r : Routine} {is : List Instr} {cs : List Cell} {st st' : State}
    (h : Rendered spilled r is cs st st') {j : Instr} (hj : j ∈ cs.flatMap Cell.toList)
    (ht : t ∈ j.temps) :
    (∃ i ∈ is, t ∈ i.temps) ∨ t = r.frame.rv ∨
      (st.supply.next ≤ t.number ∧ t.number < st'.supply.next) := by
  induction h with
  | nil => cases hj
  | @cons i is c cs st mid st' ρ hrenders hadvances hrest ih =>
      have hmid := hadvances.supply
      have hlast := hrest.advances.supply
      rw [List.flatMap_cons, List.mem_append] at hj
      rcases hj with hj | hj
      · rcases hrenders.mem_temps hj ht with hold | hrv | hnew
        · exact .inl ⟨i, List.mem_cons_self, hold⟩
        · exact .inr (.inl hrv)
        · exact .inr (.inr (by omega))
      · rcases ih hj with ⟨i', hi', hold⟩ | hrv | hnew
        · exact .inl ⟨i', List.mem_cons_of_mem _ hi', hold⟩
        · exact .inr (.inl hrv)
        · exact .inr (.inr (by omega))

/-- A round of spilling hands out temporaries for one routine after the other. -/
theorem Round.draws {supply supply' : Supply} {rs rs' : List Routine}
    (h : Round spilled supply shielded rs rs' supply' shielded') :
    Draws Routine.Mentions Routine.Mentions rs rs' supply.next supply'.next := by
  induction h with
  | nil => exact .nil (Nat.le_refl _)
  | cons hrendered _ ih =>
      refine .cons hrendered.advances.supply (fun t ht => ?_) ih
      rcases ht with ht | hframe
      · obtain ⟨j, hj, ht⟩ := Routine.mem_temps.mp ht
        rcases hrendered.mem_temps hj ht with hold | hrv | hnew
        · exact .inl (.inl (Routine.mem_temps.mpr hold))
        · exact .inl (.inr (.inr hrv))
        · exact .inr hnew
      · exact .inl (.inr hframe)

end Spill

/-- So does selection. -/
theorem Program.Selects.draws {ps : List Procedure} {rs : List Routine} {supply last : Supply}
    (h : Selects supply ps rs last) :
    Draws (fun p t => t ∈ p.temps) Routine.Mentions ps rs supply.next last.next := by
  induction h with
  | nil => exact .nil (Nat.le_refl _)
  | @cons p ps is rs supply mid last head _ ih =>
      obtain ⟨parts, hparts, rfl⟩ := Select.exists_mapM_stmt head
      obtain ⟨hle, hall⟩ : _ ∧ ∀ part ∈ parts, Select.Part (· ∈ p.temps) _ _ part :=
        Select.part_of_mem (fun st hst u hu _ => Procedure.mem_temps_of_mem_body hst hu) hparts
      refine .cons hle (fun t ht => ?_) ih
      rcases ht with ht | hfp | hrv
      · obtain ⟨i, hi, ht⟩ := Routine.mem_temps.mp ht
        obtain ⟨part, hpart, hi⟩ := List.mem_flatten.mp hi
        rw [Instr.temps_of_live ((hall part hpart).live_eq_none hi)] at ht
        exact (hall part hpart).mem_operands hi ht
      · rw [hfp]
        exact .inl (List.mem_append_right _ (by simp [Procedure.toRoutine]))
      · rw [hrv]
        exact .inl (List.mem_append_right _ (by simp [Procedure.toRoutine]))

/-- An analysis brings up no temporary that was not mentioned before. -/
theorem Routine.Mentions.of_analyze {r : Routine} {t : Temp} (h : r.analyze.1.Mentions t) :
    r.Mentions t := by
  refine h.imp_left fun ht => ?_
  obtain ⟨i, hi, ht⟩ := Routine.mem_temps.mp ht
  obtain ⟨j, hj, ht⟩ := Routine.exists_operand_of_analyze hi ht
  exact Routine.mem_temps.mpr ⟨j, hj, List.mem_append_left _ (List.mem_append_left _ ht)⟩

/-- An analysis hands out nothing. -/
theorem Routine.draws_analyze (rs : List Routine) (n : Nat) :
    Draws Routine.Mentions Routine.Mentions rs (rs.map fun r => r.analyze.1) n n := by
  induction rs with
  | nil => exact .nil (Nat.le_refl _)
  | cons r rs ih => exact .cons (Nat.le_refl _) (fun t ht => .inl ht.of_analyze) ih

/-! ### Isolation -/

/-- What is made of some procedures, one thing of each, mentions temporaries that were made for
it alone. The supply began at `first` and has come to `last`. -/
structure Isolated {α : Type} (ps : List Procedure) (first last : Nat)
    (mentions : α → Temp → Prop) (as : List α) : Prop where
  le : first ≤ last
  /-- What was made is in no procedure. -/
  fresh : ∀ p ∈ ps, ∀ t ∈ p.temps, t.number < first
  /-- The supply lies above all that is mentioned. -/
  below : ∀ a ∈ as, ∀ t, mentions a t → t.number < last
  /-- What is mentioned is in the procedure, or it was made. -/
  owned : List.Forall₂ (fun p a => ∀ t, mentions a t → t ∈ p.temps ∨ first ≤ t.number) ps as
  /-- What was made is not mentioned twice. -/
  apart : as.Pairwise fun a b => ∀ t, first ≤ t.number → mentions a t → ¬mentions b t

namespace Isolated

variable {α β : Type} {ps : List Procedure} {first last last' : Nat} {old : α → Temp → Prop}
  {new : β → Temp → Prop} {as : List α} {bs : List β}

/-- The procedures themselves. -/
theorem start (h : ∀ p ∈ ps, ∀ t ∈ p.temps, t.number < first) :
    Isolated ps first first (fun p t => t ∈ p.temps) ps where
  le := Nat.le_refl _
  fresh := h
  below := h
  owned := List.forall₂_same.mpr fun p _ t ht => .inl ht
  apart := by
    refine List.pairwise_of_forall_mem_list fun p hp q _ t hfirst ht => ?_
    have hlt := h p hp t ht
    omega

/-- New temporaries keep things apart, as long as they are drawn in order. -/
theorem draws (h : Isolated ps first last old as) (hdraws : Draws old new as bs last last') :
    Isolated ps first last' new bs where
  le := Nat.le_trans h.le hdraws.le
  fresh := h.fresh
  below := by
    intro b hb t ht
    obtain ⟨a, ha, htemps⟩ := exists_mem_of_forall₂ hdraws.forall₂.flip hb
    rcases htemps t ht with hold | hnew
    · exact Nat.lt_of_lt_of_le (h.below a ha t hold) hdraws.le
    · exact hnew.2
  owned := by
    refine List.forall₂_iff_get.mpr ⟨h.owned.length_eq.trans hdraws.forall₂.length_eq, ?_⟩
    intro index hps hbs t ht
    have has : index < as.length := h.owned.length_eq ▸ hps
    rcases (List.forall₂_iff_get.mp hdraws.forall₂).2 index has hbs t ht with hold | hnew
    · exact (List.forall₂_iff_get.mp h.owned).2 index hps has t hold
    · exact .inr (Nat.le_trans h.le hnew.1)
  apart := by
    -- Temporaries of the procedures may be shared, so only those that were made count.
    have hrestrict := hdraws.restrict fun t => first ≤ t.number
    refine (hrestrict.pairwise (h.apart.imp ?_) fun a ha t ht => h.below a ha t ht.1).imp ?_
    · exact fun hapart t ht ht' => hapart t ht.2 ht.1 ht'.1
    · exact fun hapart t hfirst ht ht' => hapart t ⟨ht, hfirst⟩ ⟨ht', hfirst⟩

end Isolated

namespace Program

/-- What becomes of a program by any rounds of spilling and analyses. -/
inductive Rewritten (p : Program) : Program → Prop
  | refl : Rewritten p p
  | spill {q : Program} {spilled shielded : TempSet} {next : SpilledProgram} (h : Rewritten p q)
      (hnext : (q.spill spilled shielded).outcome = .ok next) : Rewritten p next.program
  | analyze {q : Program} (h : Rewritten p q) : Rewritten p q.analyze.1

/-- Rounds of spilling and analyses keep routines isolated from each other. -/
theorem Rewritten.isolated {ps : List Procedure} {first : Nat} {p q : Program}
    (h : p.Rewritten q) (hp : Isolated ps first p.supply.next Routine.Mentions p.routines) :
    Isolated ps first q.supply.next Routine.Mentions q.routines := by
  induction h with
  | refl => exact hp
  | @spill q spilled shielded next _ hnext ih =>
      rcases q.spill_cases spilled shielded with ⟨e, he, -⟩ | ⟨next', hnext', hround⟩
      · cases hnext.symm.trans he
      · cases hnext.symm.trans hnext'
        exact ih.draws hround.draws
  | @analyze q _ ih =>
      rw [routines_analyze]
      exact ih.draws (Routine.draws_analyze q.routines _)

end Program

/-! ### Where statements begin -/

namespace Routine

variable {r : Routine} {known : Temp → Prop} {parts : List (List Instr)} {first last line : Nat}
  {t : Temp}

/-- Control goes on at the next line, or at a label. -/
theorem goes_cases {next : Nat} {i : Instr} (hi : r.instrs[line]? = some i)
    (h : r.Goes line next) :
    next = line + 1 ∨ ∃ l j, r.instrs[next]? = some j ∧ j.label? = some l := by
  by_cases hjumps : i.jumps = []
  · exact .inl ((goes_of_straight hi hjumps).mp h).1
  · obtain ⟨l, -, hl⟩ := (goes_of_jump hi hjumps).mp h
    obtain ⟨j, hj, hlabel⟩ := Flow.label?_of_labelIndex? hl
    exact .inr ⟨l, j, hj, hlabel⟩

/-- The part of a line writes the temporary in front of the line. -/
def WritesBefore (parts : List (List Instr)) (line : Nat) (t : Temp) : Prop :=
  ∃ index part offset i, parts[index]? = some part ∧ part[offset]? = some i ∧
    line = Layout.start parts index + offset ∧ ∃ j ∈ part.take offset, t ∈ j.defs

/-- Where a part begins, it has not written anything yet. -/
theorem not_writesBefore_start (index : Nat) :
    ¬WritesBefore parts (Layout.start parts index) t := by
  rintro ⟨index', part, offset, i, hpart, hoffset, hline, j, hj, -⟩
  have hpos : offset ≠ 0 := by
    rintro rfl
    cases hj
  exact Layout.start_ne_add hpart hpos (List.getElem?_eq_some_iff.mp hoffset).1 hline

/-- No line asks for more than what is known from the start and what its part writes
in front of it. -/
theorem closed_writesBefore (hinstrs : r.instrs = parts.flatten)
    (hparts : ∀ part ∈ parts, Select.Part known first last part) (hrv : known r.frame.rv) :
    (FlowGraph.ofRoutine r).Closed fun line t => known t ∨ WritesBefore parts line t := by
  refine closed_of_steps ?_
  rintro line i t hi (huse | ⟨⟨next, hgoes, hnext⟩ | ⟨rfl, -⟩, hdef⟩)
  · rw [hinstrs] at hi
    obtain ⟨index, part, offset, hpart, hoffset, rfl⟩ := Layout.exists_start_add hi
    have hsourced := (hparts part (List.mem_of_getElem? hpart)).sourced offset i hoffset t huse
    exact hsourced.imp_right fun hwrites => ⟨index, part, offset, i, hpart, hoffset, rfl, hwrites⟩
  · refine hnext.imp_right ?_
    rintro ⟨index, part, offset, j, hpart, hoffset, hline, w, hw, hwrites⟩
    have hpos : offset ≠ 0 := by
      rintro rfl
      cases hw
    rcases goes_cases hi hgoes with rfl | ⟨l, j', hj', hlabel⟩
    · -- The next line is not the first one of its part, so this line is in the same part.
      obtain ⟨offset, rfl⟩ := Nat.exists_eq_succ_of_ne_zero hpos
      obtain rfl : line = Layout.start parts index + offset := by omega
      have hlt := (List.getElem?_eq_some_iff.mp hoffset).1
      have hhere : part[offset]? = some i := by
        have hget := List.getElem?_eq_getElem (Nat.lt_of_succ_lt hlt)
        rw [hget, ← hi, hinstrs, Layout.getElem?_flatten_add hpart hget]
      refine ⟨index, part, offset, i, hpart, hhere, rfl, ?_⟩
      rw [List.take_add_one, hhere, List.mem_append] at hw
      rcases hw with hw | hw
      · exact ⟨w, hw, hwrites⟩
      · cases List.mem_singleton.mp hw
        exact absurd hwrites hdef
    · -- A label is the first line of its part.
      have hnextLine : r.instrs[next]? = some j := by
        rw [hinstrs, hline]
        exact Layout.getElem?_flatten_add hpart hoffset
      cases hnextLine.symm.trans hj'
      exact absurd ((hparts part (List.mem_of_getElem? hpart)).eq_zero_of_label hoffset hlabel) hpos
  · exact .inl hrv

/-- The code consists of one part for each statement of the procedure, and they were selected
with the supply between `first` and `last`. Where a part begins, what an analysis finds to be
live is in the procedure. -/
def Separates (r : Routine) (p : Procedure) (first last : Nat) : Prop :=
  ∃ s rest parts, p.body.mapM (Select.stmt p.frame.fp) s = .ok parts rest ∧
    first ≤ s.next ∧ rest.next ≤ last ∧ r.instrs = parts.flatten ∧
    ∀ index i, r.analyze.1.instrs[Layout.start parts index]? = some i →
      ∀ t ∈ i.live.before, t ∈ p.temps

/-- Selected code keeps what was made for a statement from being live where another one begins. -/
theorem separates_of_yields {p : Procedure} (h : p.Yields first last r) :
    r.Separates p first last := by
  obtain ⟨s, rest, is, hfirst, hlast, his, rfl⟩ := h
  obtain ⟨parts, hparts, rfl⟩ := Select.exists_mapM_stmt his
  have hall : ∀ part ∈ parts, Select.Part (· ∈ p.temps) _ _ part :=
    (Select.part_of_mem (fun st hst u hu _ => Procedure.mem_temps_of_mem_body hst hu) hparts).2
  refine ⟨s, rest, parts, hparts, hfirst, hlast, rfl, fun index i hi t ht => ?_⟩
  rw [getElem?_analyze] at hi
  obtain ⟨j, -, rfl⟩ := Option.map_eq_some_iff.mp hi
  have hrv : p.frame.rv ∈ p.temps := List.mem_append_right _ (by simp)
  -- Live sets are the least solution, so they stay below each bound that is closed.
  have hbound := FlowGraph.bounded_settle (closed_writesBefore rfl hall hrv) _ t ht
  exact hbound.resolve_right (not_writesBefore_start index)

end Routine

namespace Program

variable {ps : List Procedure} {program : Program}

/-- Temporaries that are made stay where they are made. Whatever rounds of spilling follow a
selection, what was made by it or by them is in no procedure and in one routine at most, and the
supply lies above all temporaries of the program. Right after selection nothing of it is live
where a statement begins. -/
theorem made_temps_isolated (hselect : (select ps).outcome = .ok program) :
    ∃ first, firstSupply ps = .ok first ∧
      (∀ last, program.Rewritten last →
        Isolated ps first.next last.supply.next Routine.Mentions last.routines) ∧
      List.Forall₂ (fun p r => r.Separates p first.next program.supply.next) ps
        program.routines := by
  obtain ⟨first, hfirst, hselects⟩ := selects_of_select hselect
  have hstart : Isolated ps first.next first.next (fun p t => t ∈ p.temps) ps :=
    .start (lt_of_firstSupply hfirst)
  refine ⟨first, hfirst, fun last hlast => hlast.isolated (hstart.draws hselects.draws), ?_⟩
  exact (hselects.yields (Nat.le_refl _)).imp fun p r => Routine.separates_of_yields

end Program

/-- Return the remainder of temporary 2 by ten. -/
def Procedure.lastDigit (name : String) : Procedure where
  frame := ⟨⟨name⟩, 0, 0, 0, 16, ⟨0⟩, ⟨1⟩⟩
  entry := ⟨name⟩
  exit := ⟨name ++ "Exit"⟩
  body := [
    .move (.temp ⟨1⟩) (.binary .mod (.temp ⟨2⟩) (.const 10)),
    .jump ⟨name ++ "Exit"⟩]

/-- Two procedures have the same temporaries, and one of these is spilled from both. -/
theorem Program.lastDigits_isolated :
    ∃ program next,
      (select [.lastDigit "even", .lastDigit "odd"]).outcome = .ok program ∧
      (program.spill (TempSet.ofList [⟨2⟩]) ∅).outcome = .ok next ∧ next.added = 2 ∧
      Isolated [.lastDigit "even", .lastDigit "odd"] 3 next.program.supply.next Routine.Mentions
        next.program.routines := by
  have hadded : ((select [.lastDigit "even", .lastDigit "odd"]).outcome.bind fun program =>
      (program.spill (TempSet.ofList [⟨2⟩]) ∅).outcome).toOption.map (·.added) = some 2 := by
    decide +kernel
  have hsupply : (firstSupply [.lastDigit "even", .lastDigit "odd"]).toOption = some ⟨3⟩ := by
    decide +kernel
  cases hselect : (select [.lastDigit "even", .lastDigit "odd"]).outcome with
  | error e =>
      rw [hselect] at hadded
      cases hadded
  | ok program =>
      rw [hselect] at hadded
      replace hadded : (program.spill (TempSet.ofList [⟨2⟩]) ∅).outcome.toOption.map (·.added) =
        some 2 := hadded
      cases hspill : (program.spill (TempSet.ofList [⟨2⟩]) ∅).outcome with
      | error e =>
          rw [hspill] at hadded
          cases hadded
      | ok next =>
          rw [hspill] at hadded
          obtain ⟨first, hfirst, hisolated, -⟩ := made_temps_isolated hselect
          rw [hfirst] at hsupply
          obtain rfl : first = ⟨3⟩ := Option.some.inj hsupply
          exact ⟨program, next, rfl, hspill, Option.some.inj hadded,
            hisolated next.program (.spill .refl hspill)⟩

end MmixCodegen
