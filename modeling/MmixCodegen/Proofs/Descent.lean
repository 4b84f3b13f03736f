import MmixCodegen.Proofs.Convergence
import MmixCodegen.Proofs.Spill.Spared

/-!
# `MmixCodegen.Proofs.Descent`: the code of the last round

An allocation takes rounds of spilling. `Routine.Descends` follows one routine through rounds that
spill no temporary with a slot, and `Routine.Descends.keeps` says what all of them keep: control
arrives at the exit with the same return value as in the code from the start.

`Program.Reaches.descends` shows that rounds are like this. A temporary with a slot is an operand
afterwards only if it is a return value that is loaded in front of an exit. From then on it is
shielded, and shielded temporaries are not spilled if there are two registers. With one register
there is no way out, since the stores of such a return value read two temporaries.

`Program.Reaches.touches_iff` says which temporaries are left: those that were operands from the
start, unless they have a slot and are not delivered.
-/

set_option autoImplicit false

namespace MmixCodegen

open Spill

/-- Relations that compose do so along lists. -/
theorem forall₂_trans {α β γ : Type} {R : α → β → Prop} {S : β → γ → Prop} {T : α → γ → Prop}
    (hT : ∀ a b c, R a b → S b c → T a c) {as : List α} {bs : List β} {cs : List γ}
    (h : List.Forall₂ R as bs) (h' : List.Forall₂ S bs cs) : List.Forall₂ T as cs := by
  induction h generalizing cs with
  | nil =>
      cases h'
      exact .nil
  | cons hab _ ih =>
      cases h' with
      | cons hbc hrest => exact .cons (hT _ _ _ hab hbc) (ih hrest)

/-- Lists that are related member by member have members of related kinds together. -/
theorem exists_mem_iff_of_forall₂ {α β : Type} {R : α → β → Prop} {P : α → Prop} {Q : β → Prop}
    {as : List α} {bs : List β} (h : List.Forall₂ R as bs) (hPQ : ∀ a b, R a b → (Q b ↔ P a)) :
    (∃ b ∈ bs, Q b) ↔ ∃ a ∈ as, P a := by
  constructor
  · rintro ⟨b, hb, hQ⟩
    obtain ⟨a, ha, hab⟩ := exists_mem_of_forall₂ h.flip hb
    exact ⟨a, ha, (hPQ a b hab).mp hQ⟩
  · rintro ⟨a, ha, hP⟩
    obtain ⟨b, hb, hab⟩ := exists_mem_of_forall₂ h ha
    exact ⟨b, hb, (hPQ a b hab).mpr hP⟩

/-! ### One routine -/

namespace Routine

/-- What becomes of a routine by rounds that spill no temporary with a slot. -/
inductive Descends (r : Routine) : Routine → Prop
  | refl : Descends r r
  | round {r' r'' : Routine} {spilled shielded : TempSet} {base : Nat} (h : Descends r r')
      (recasts : Recasts spilled shielded base r'.analyze.1 r'')
      (fresh : ∀ t ∈ spilled, t ∉ r'.slots.offsets) : Descends r r''

namespace Descends

variable {r r' : Routine}

/-- Rounds do not change the frame. -/
theorem frame (h : r.Descends r') : r'.frame = r.frame := by
  induction h with
  | refl => rfl
  | round _ hrecasts _ ih => exact hrecasts.frame.trans ih

/-- Rounds do not change the exit label. -/
theorem exit (h : r.Descends r') : r'.exit = r.exit := by
  induction h with
  | refl => rfl
  | round _ hrecasts _ ih => exact hrecasts.exit.trans ih

/-- Whether a return value is delivered does not change from round to round. -/
theorem delivers_iff (h : r.Descends r') : r'.Delivers ↔ r.Delivers := by
  induction h with
  | refl => exact Iff.rfl
  | round _ hrecasts _ ih => exact hrecasts.delivers_iff.trans (delivers_analyze.trans ih)

/-- No round makes an instruction that jumps and writes. -/
theorem flow (h : r.Descends r') (hflow : ∀ i ∈ r.instrs, i.jumps = [] ∨ i.defs = []) :
    ∀ i ∈ r'.instrs, i.jumps = [] ∨ i.defs = [] := by
  induction h with
  | refl => exact hflow
  | round _ hrecasts _ ih => exact hrecasts.flow (flow_analyze ih)

/-- Slots stay laid out one after the other below the locals. -/
theorem laid (h : r.Descends r') (hlaid : r.slots.Laid r.frame.localsSize) :
    r'.slots.Laid r.frame.localsSize := by
  induction h with
  | refl => exact hlaid
  | @round r' r'' _ _ _ hdescends hrecasts _ ih =>
      have hframe : r'.analyze.1.frame = r.frame := hdescends.frame
      have hlaid := hrecasts.slots.laid (hframe ▸ ih)
      rwa [hframe] at hlaid

/-- What is live at the start was so from the first round on, and has no slot. -/
theorem mem_before_zero (h : r.Descends r') (hempty : r.slots = .empty) {t : Temp}
    (ht : t ∈ (r'.solution 0).before) :
    t ∈ (r.solution 0).before ∧ t ∉ r'.slots.offsets := by
  induction h with
  | refl =>
      rw [hempty]
      exact ⟨ht, Std.ExtTreeMap.not_mem_empty⟩
  | @round r' r'' _ _ _ _ hrecasts _ ih =>
      obtain ⟨hbefore, hkept⟩ := hrecasts.mem_before_zero ht
      rw [solution_analyze] at hbefore
      obtain ⟨hlive, hslot⟩ := ih hbefore
      refine ⟨hlive, fun hmem => ?_⟩
      rcases hrecasts.mem_slots.mp hmem with hold | ⟨hspilled, -⟩
      · exact hslot hold
      · exact hkept hspilled

/-- All rounds together keep what is returned, from a state in which the slots hold the values of
their temporaries, as long as the code from the start leaves the slots alone. -/
theorem keeps {E : Type} {w : Mmix.World E} (h : r.Descends r') (hempty : r.slots = .empty)
    (hflow : ∀ i ∈ r.instrs, i.jumps = [] ∨ i.defs = []) (hlocals : 0 ≤ r.frame.localsSize)
    {s : Machine.State Temp Word (Mmix.Hidden E)} (hstart : s.place = .line 0)
    {slots : SlotTable} (hslots : r'.slots.Extends slots)
    (hinit : ∀ t offset, slots.offsets[t]? = some offset →
      s.hidden.memory.load (s.hidden.slotAddress offset) = s.store t)
    (hspares : ∀ n, ∀ o ∈ (Machine.run (Mmix.meaning w) r.effects s n).2,
      (Mmix.meaning w).Spares (slots.Occupies s.hidden) o) :
    (r.Delivers → ∀ v, Machine.Returns (Mmix.meaning w) r'.effects r.exit r.frame.rv s v ↔
        Machine.Returns (Mmix.meaning w) r.effects r.exit r.frame.rv s v) ∧
      ∀ k, ∀ o ∈ (Machine.run (Mmix.meaning w) r'.effects s k).2, (Mmix.meaning w).Spares
        (fun x => slots.Occupies s.hidden x ∧ ¬r'.slots.Occupies s.hidden x) o := by
  induction h with
  | refl => exact ⟨fun _ _ => Iff.rfl, fun k o ho => (hspares k o ho).mono fun x hx => hx.1⟩
  | @round r' r'' spilled shielded base hdescends hrecasts hfresh ih =>
      have hextends : r'.slots.Extends r''.slots := hrecasts.slots.extends
      obtain ⟨hreturns, hsofar⟩ := ih (hextends.trans hslots)
      rw [← r'.effects_analyze] at hreturns hsofar
      have hframe : r'.analyze.1.frame = r.frame := hdescends.frame
      have hexit : r'.analyze.1.exit = r.exit := hdescends.exit
      have hlaid : r'.slots.Laid r.frame.localsSize := by
        refine hdescends.laid ?_
        rw [hempty]
        exact SlotTable.laid_empty _
      -- The slots of this round are among those that were left alone so far.
      obtain ⟨hround, hafter⟩ := hrecasts.keeps (flow_analyze (hdescends.flow hflow))
        (hframe ▸ hlocals) (hframe ▸ hlaid) hfresh hstart
        (fun t offset ht => hinit t offset (hslots ht)) hsofar
        fun x hx hnot => ⟨hx.mono hslots, hnot⟩
      rw [hframe, hexit] at hround
      refine ⟨fun hdelivers v => ?_, fun k o ho => (hafter k o ho).mono fun x hx => ?_⟩
      · refine (hround ?_ v).trans (hreturns hdelivers v)
        exact delivers_analyze.mpr (hdescends.delivers_iff.mpr hdelivers)
      · exact ⟨⟨hx.1, fun hold => hx.2 (hold.mono hextends)⟩, hx.2⟩

end Descends

end Routine

/-! ### Rounds over a program -/

namespace Program

/-- The temporary is an operand in the code of the program. -/
def Touches (p : Program) (t : Temp) : Prop :=
  ∃ r ∈ p.routines, r.Touches t

/-- The temporary is the return value of a routine that delivers it. -/
def Delivers (p : Program) (t : Temp) : Prop :=
  ∃ r ∈ p.routines, t = r.frame.rv ∧ r.Delivers

/-- The temporary has a slot in some routine. -/
def Slotted (p : Program) (t : Temp) : Prop :=
  ∃ r ∈ p.routines, t ∈ r.slots.offsets

/-- Some instruction reads two temporaries. -/
def ReadsTwo (p : Program) : Prop :=
  ∃ r ∈ p.routines, r.ReadsTwo

variable {target : Target} {n : Nat} {shielded : TempSet} {p q : Program} {ps : List Procedure}
  {c : Coloring} {t : Temp}

/-- Selected code has no slots yet. -/
theorem slots_of_select (h : (select ps).outcome = .ok p) {r : Routine} (hr : r ∈ p.routines) :
    r.slots = .empty := by
  obtain ⟨first, -, hselects⟩ := selects_of_select h
  generalize p.routines = rs at hr hselects
  generalize p.supply = last at hselects
  clear h
  induction hselects with
  | nil => cases hr
  | cons _ _ ih =>
      rcases List.mem_cons.mp hr with rfl | hr
      · rfl
      · exact ih hr

/-- What a round spills is an operand. -/
theorem touches_of_mem_spilled (hpos : target.registers ≠ 0)
    (hc : (Coloring.ofRoutines target.registers shielded q.analyze.1.routines).outcome = .ok c)
    (ht : t ∈ c.spilled) : q.Touches t := by
  rw [Allocator.ofRoutines_eq _ _ _ hpos] at hc
  obtain rfl := Except.ok.inj hc
  obtain ⟨r, hr, i, hi, ht⟩ := Allocator.mentioned_of_mem_spilled _ _ _ ht
  exact exists_operand_of_analyze hr hi ht

/-- A round over an analyzed program, routine by routine. -/
structure Recast (spilled shielded : TempSet) (base : Nat) (q q' : Program) : Prop where
  routines : List.Forall₂ (fun r r' => Recasts spilled shielded base r.analyze.1 r') q.routines
    q'.routines
  touched : ∀ t ∈ spilled, q.Touches t

namespace Recast

variable {spilled : TempSet} {base : Nat} {q' : Program}
  (h : Recast spilled shielded base q q')

include h

/-- After a round, an operand is one that was not spilled, or a return value that
is spilled and delivered. -/
theorem touches_iff (ht : t.number < base) :
    q'.Touches t ↔ (q.Touches t ∧ t ∉ spilled) ∨ (t ∈ spilled ∧ q.Delivers t) := by
  have hsteps : q'.Touches t ↔ ∃ r ∈ q.routines,
      (r.Touches t ∧ t ∉ spilled) ∨ (t ∈ spilled ∧ t = r.frame.rv ∧ r.Delivers) := by
    refine exists_mem_iff_of_forall₂ h.routines fun r r' hrecasts => ?_
    rw [hrecasts.touches_iff ht, Routine.touches_analyze, Routine.delivers_analyze]
    rfl
  rw [hsteps]
  constructor
  · rintro ⟨r, hr, ⟨htouches, hkept⟩ | ⟨hspilled, hdelivers⟩⟩
    · exact .inl ⟨⟨r, hr, htouches⟩, hkept⟩
    · exact .inr ⟨hspilled, r, hr, hdelivers⟩
  · rintro (⟨⟨r, hr, htouches⟩, hkept⟩ | ⟨hspilled, r, hr, hdelivers⟩)
    · exact ⟨r, hr, .inl ⟨htouches, hkept⟩⟩
    · exact ⟨r, hr, .inr ⟨hspilled, hdelivers⟩⟩

/-- A round changes nothing about which return values are delivered. -/
theorem delivers_iff : q'.Delivers t ↔ q.Delivers t := by
  refine exists_mem_iff_of_forall₂ h.routines fun r r' hrecasts => ?_
  rw [hrecasts.delivers_iff, Routine.delivers_analyze, hrecasts.frame]
  rfl

/-- What is spilled has a slot afterwards. -/
theorem slotted_iff : q'.Slotted t ↔ q.Slotted t ∨ t ∈ spilled := by
  have hsteps : q'.Slotted t ↔
      ∃ r ∈ q.routines, t ∈ r.slots.offsets ∨ (t ∈ spilled ∧ r.Touches t) := by
    refine exists_mem_iff_of_forall₂ h.routines fun r r' hrecasts => ?_
    rw [hrecasts.mem_slots, Routine.touches_analyze]
    rfl
  rw [hsteps]
  constructor
  · rintro ⟨r, hr, hslot | ⟨hspilled, -⟩⟩
    · exact .inl ⟨r, hr, hslot⟩
    · exact .inr hspilled
  · rintro (⟨r, hr, hslot⟩ | hspilled)
    · exact ⟨r, hr, .inl hslot⟩
    · obtain ⟨r, hr, htouches⟩ := h.touched t hspilled
      exact ⟨r, hr, .inr ⟨hspilled, htouches⟩⟩

/-- An instruction that reads two temporaries still does so after a round. -/
theorem readsTwo (htwo : q.ReadsTwo) : q'.ReadsTwo := by
  obtain ⟨r, hr, htwo⟩ := htwo
  obtain ⟨r', hr', hrecasts⟩ := exists_mem_of_forall₂ h.routines hr
  exact ⟨r', hr', hrecasts.readsTwo (Routine.readsTwo_analyze.mpr htwo)⟩

/-- A return value that is spilled and delivered is shielded from then on, and storing it reads
two temporaries. -/
theorem of_delivers (hspilled : t ∈ spilled) (hdelivers : q.Delivers t) :
    t ∈ shielded ∧ q'.ReadsTwo := by
  obtain ⟨r, hr, rfl, hdelivers⟩ := hdelivers
  obtain ⟨r', hr', hrecasts⟩ := exists_mem_of_forall₂ h.routines hr
  have hdelivers := Routine.delivers_analyze.mpr hdelivers
  obtain ⟨i, hi, hdef⟩ := Routine.definesResult_eq_true.mp hdelivers.1
  exact ⟨hrecasts.rv_mem_shielded hdelivers hspilled,
    r', hr', hrecasts.readsTwo_of_mem_defs hi hdef hspilled⟩

end Recast

/-- A round of spilling, after a colouring, recasts each routine of the program. -/
theorem recast_of_spill {next : SpilledProgram} (hpos : target.registers ≠ 0)
    (hbelow : ∀ r ∈ q.routines, ∀ t, r.Mentions t → t.number < q.supply.next)
    (hc : (Coloring.ofRoutines target.registers shielded q.analyze.1.routines).outcome = .ok c)
    (hnext : (q.analyze.1.spill c.spilled shielded).outcome = .ok next) :
    Recast c.spilled next.shielded q.supply.next q next.program := by
  refine ⟨?_, fun t ht => touches_of_mem_spilled hpos hc ht⟩
  have hrecasts := recasts_of_spill (p := q.analyze.1) (fun r hr t ht => ?_) hnext
  · rw [routines_analyze, List.forall₂_map_left_iff] at hrecasts
    exact hrecasts
  · rw [routines_analyze] at hr
    obtain ⟨s, hs, rfl⟩ := List.mem_map.mp hr
    exact hbelow s hs t ht.of_analyze

/-! ### All rounds -/

namespace Reaches

/-- Rounds rewrite a program. -/
theorem rewritten (h : Reaches target p n shielded q) : p.Rewritten q := by
  induction h with
  | start => exact .refl
  | spill _ _ _ hspill ih => exact .spill (.analyze ih) hspill

/-- Temporaries that are mentioned come from the supply, in every round. -/
theorem mentions_lt (h : Reaches target p n shielded q) (hselect : (select ps).outcome = .ok p) :
    ∀ r ∈ q.routines, ∀ t, r.Mentions t → t.number < q.supply.next := by
  obtain ⟨first, hfirst, hselects⟩ := selects_of_select hselect
  exact (h.rewritten.isolated
    ((Isolated.start (lt_of_firstSupply hfirst)).draws hselects.draws)).below

/-- A round leaves at least what there was in the supply and among the shielded temporaries. -/
theorem round_of_spill {next : SpilledProgram}
    (hnext : (q.analyze.1.spill c.spilled shielded).outcome = .ok next) :
    q.supply.next ≤ next.program.supply.next ∧ ∀ t ∈ shielded, t ∈ next.shielded := by
  rcases spill_cases c.spilled shielded q.analyze.1 with ⟨e, he, -⟩ | ⟨next', hnext', hround⟩
  · cases hnext.symm.trans he
  · cases hnext.symm.trans hnext'
    exact ⟨hround.supply_le, fun t ht => hround.subset ht⟩

/-- The supply only ever goes up. -/
theorem supply_le (h : Reaches target p n shielded q) : p.supply.next ≤ q.supply.next := by
  induction h with
  | start => exact Nat.le_refl _
  | spill _ _ _ hspill ih => exact Nat.le_trans ih (round_of_spill hspill).1

variable (hselect : (select ps).outcome = .ok p) (hpos : target.registers ≠ 0)

include hselect hpos

/-- Temporaries with a slot come from the supply. -/
theorem number_lt_of_slotted (h : Reaches target p n shielded q) (ht : q.Slotted t) :
    t.number < q.supply.next := by
  induction h with
  | start =>
      obtain ⟨r, hr, hslot⟩ := ht
      rw [slots_of_select hselect hr] at hslot
      exact absurd hslot Std.ExtTreeMap.not_mem_empty
  | @spill n shielded q c next hreaches hcolors _ hspill ih =>
      have hle := (round_of_spill hspill).1
      have hrecast := recast_of_spill hpos (hreaches.mentions_lt hselect) hcolors hspill
      rcases hrecast.slotted_iff.mp ht with hold | hspilled
      · exact Nat.lt_of_lt_of_le (ih hold) hle
      · obtain ⟨r, hr, htouches⟩ := hrecast.touched t hspilled
        exact Nat.lt_of_lt_of_le (hreaches.mentions_lt hselect r hr t htouches.mentions) hle

/-- All rounds together change nothing about which return values are delivered. -/
theorem delivers_iff (h : Reaches target p n shielded q) : q.Delivers t ↔ p.Delivers t := by
  induction h with
  | start => exact Iff.rfl
  | spill hreaches hcolors _ hspill ih =>
      have hrecasts := recast_of_spill hpos (hreaches.mentions_lt hselect) hcolors hspill
      exact hrecasts.delivers_iff.trans ih

/-- The temporaries of the program that are still operands are those without a slot, and those
that are delivered. -/
theorem touches_iff (h : Reaches target p n shielded q) (ht : t.number < p.supply.next) :
    q.Touches t ↔ p.Touches t ∧ (q.Slotted t → p.Delivers t) := by
  induction h with
  | start =>
      refine ⟨fun htouches => ⟨htouches, ?_⟩, And.left⟩
      rintro ⟨r, hr, hslot⟩
      rw [slots_of_select hselect hr] at hslot
      exact absurd hslot Std.ExtTreeMap.not_mem_empty
  | @spill n shielded q c next hreaches hcolors _ hspill ih =>
      have hrecast := recast_of_spill hpos (hreaches.mentions_lt hselect) hcolors hspill
      have hlt : t.number < q.supply.next := Nat.lt_of_lt_of_le ht hreaches.supply_le
      rw [hrecast.touches_iff hlt, hrecast.slotted_iff, hreaches.delivers_iff hselect hpos]
      by_cases hspilled : t ∈ c.spilled
      · have htouches := (ih.mp (hrecast.touched t hspilled)).1
        simp only [hspilled, htouches, not_true, and_false, false_or, true_and,
          or_true, true_imp_iff]
      · simp only [hspilled, ih, not_false_iff, and_true, false_and, or_false]

/-- Each routine descends from a selected one, and what has a slot and is an operand again is
shielded; or there is one register, and some instruction reads two temporaries. -/
theorem descends (h : Reaches target p n shielded q) (hmax : target.registers ≤ 256) :
    (target.registers = 1 ∧ q.ReadsTwo) ∨
      (List.Forall₂ Routine.Descends p.routines q.routines ∧
        ∀ t, q.Slotted t → q.Touches t → t ∈ shielded ∧ q.ReadsTwo) := by
  induction h with
  | start =>
      refine .inr ⟨List.forall₂_same.mpr fun r _ => .refl, ?_⟩
      rintro t ⟨r, hr, hslot⟩
      rw [slots_of_select hselect hr] at hslot
      exact absurd hslot Std.ExtTreeMap.not_mem_empty
  | @spill n shielded q c next hreaches hcolors _ hspill ih =>
      have hrecast := recast_of_spill hpos (hreaches.mentions_lt hselect) hcolors hspill
      rcases ih with ⟨hone, htwo⟩ | ⟨hdescends, hshields⟩
      · exact .inl ⟨hone, hrecast.readsTwo htwo⟩
      by_cases hagain : ∃ t ∈ c.spilled, q.Slotted t
      · -- Only with one register something shielded is spilled.
        obtain ⟨t, ht, hslot⟩ := hagain
        obtain ⟨hshielded, htwo⟩ := hshields t hslot (hrecast.touched t ht)
        refine .inl ⟨?_, hrecast.readsTwo htwo⟩
        by_contra hne
        exact hreaches.notMem_shielded (celled_of_select hselect) (by omega) hmax hcolors t ht
          hshielded
      have hfresh : ∀ t ∈ c.spilled, ¬q.Slotted t := fun t ht hslot => hagain ⟨t, ht, hslot⟩
      refine .inr ⟨?_, fun t hslot htouches => ?_⟩
      · have hrounds := (List.forall₂_and_left _ _).mpr
          ⟨fun r hr t ht hslot => hfresh t ht ⟨r, hr, hslot⟩, hrecast.routines⟩
        exact forall₂_trans (fun r r' r'' hr hr' => .round hr hr'.2 hr'.1) hdescends hrounds
      · have hlt : t.number < q.supply.next := by
          rcases hrecast.slotted_iff.mp hslot with hold | hspilled
          · exact hreaches.number_lt_of_slotted hselect hpos hold
          · obtain ⟨r, hr, hmem⟩ := hrecast.touched t hspilled
            exact hreaches.mentions_lt hselect r hr t hmem.mentions
        rcases (hrecast.touches_iff hlt).mp htouches with ⟨hold, hkept⟩ | ⟨hspilled, hdelivers⟩
        · have hslot := (hrecast.slotted_iff.mp hslot).resolve_right hkept
          obtain ⟨hshielded, htwo⟩ := hshields t hslot hold
          exact ⟨(round_of_spill hspill).2 t hshielded, hrecast.readsTwo htwo⟩
        · exact hrecast.of_delivers hspilled hdelivers

end Reaches

end Program

end MmixCodegen
