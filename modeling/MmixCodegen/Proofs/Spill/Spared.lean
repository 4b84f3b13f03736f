import MmixCodegen.Proofs.Spill.Recasts

/-!
# `MmixCodegen.Proofs.Spill.Spared`: one round after the other

`Routine.spill_preserves_meaning` asks of the code from before that it leaves the new slots alone.
For a second round this is code with loads and stores of its own, so it has to be shown. Loads and
stores access their slots only (`Spill.sparesAll_loads`, `Spill.sparesAll_stores`), and what the
other instructions leave alone stays so whatever the slots hold (`Meaning.Spares.of_sameOutside`).
So each cell, and with it each run, leaves alone what the code from before did, apart from the slots
of the routine (`Translation.spares_run`).

`Recasts.keeps` puts this together for a round that spills no temporary with a slot. From a state
in which the new slots hold what they should, control arrives at the exit with a return value just
if it did before.
-/

set_option autoImplicit false

namespace MmixCodegen

open Mmix (Core Hidden)

/-! ### Octabytes that are left alone -/

namespace Mmix.Hidden.SameOutside

variable {E : Type} {X Z : Word → Prop} {h h' h'' : Hidden E}

/-- Equal states do not differ anywhere. -/
theorem refl (X : Word → Prop) (h : Hidden E) : SameOutside X h h :=
  ⟨rfl, fun _ _ => rfl⟩

/-- States that differ in few octabytes differ in more of them at most. -/
theorem mono (hsame : SameOutside X h h') (hsub : ∀ x, X x → Z x) : SameOutside Z h h' :=
  ⟨hsame.rest, fun x hx => hsame.memory x fun hmem => hx (hsub x hmem)⟩

/-- Differences within the same octabytes add up to differences within them. -/
theorem trans (hsame : SameOutside X h h') (hsame' : SameOutside X h' h'') :
    SameOutside X h h'' where
  rest := by
    refine hsame'.rest.trans ?_
    rw [hsame.rest]
  memory := fun x hx => (hsame'.memory x hx).trans (hsame.memory x hx)

end Mmix.Hidden.SameOutside

namespace Meaning.Spares

variable {E : Type} {m : Meaning Word (Hidden E)} {X Z : Word → Prop}
  {o : Occurrence Word (Hidden E)}

/-- An operation that leaves some octabytes alone leaves any of them alone, whatever they hold. -/
theorem of_sameOutside (h : m.Spares Z o) (hsub : ∀ x, X x → Z x) {h' : Hidden E}
    (hsame : Hidden.SameOutside Z o.hidden h') (jump : Option Label) :
    m.Spares X ⟨o.template, o.operands, h', jump⟩ where
  frame := by
    show (m.hidden o.template o.operands h').global _ = h'.global _
    rw [(h.hidden h' hsame).global, h.frame, hsame.global]
  values := by
    intro h'' hagain
    exact (h.values h'' (hsame.trans (hagain.mono hsub))).trans (h.values h' hsame).symm
  branch := by
    intro h'' hagain
    exact (h.branch h'' (hsame.trans (hagain.mono hsub))).trans (h.branch h' hsame).symm
  hidden := by
    intro h'' hagain
    have hsame' := hsame.trans (hagain.mono hsub)
    have hleft := h.hidden h' hsame
    have hright := h.hidden h'' hsame'
    refine ⟨?_, fun x hx => ?_⟩
    · refine hright.rest.trans ?_
      dsimp only
      rw [hleft.rest]
    · show (m.hidden o.template o.operands h'').memory x =
        (m.hidden o.template o.operands h').memory x
      by_cases hz : Z x
      · -- What is in `Z` stays as it is, and there the two are the same.
        rw [h.kept h'' hsame' x hz, h.kept h' hsame x hz]
        exact hagain.memory x hx
      · rw [hright.memory x hz, hleft.memory x hz]
  kept := by
    intro h'' hagain x hx
    exact h.kept h'' (hsame.trans (hagain.mono hsub)) x (hsub x hx)

/-- What leaves more octabytes alone leaves fewer of them alone. -/
theorem mono (h : m.Spares Z o) (hsub : ∀ x, X x → Z x) : m.Spares X o :=
  h.of_sameOutside hsub (.refl Z o.hidden) o.jump

end Meaning.Spares

/-- What an instruction leaves alone it leaves alone whatever these octabytes hold. -/
theorem Instr.spares_occurrences {E : Type} {m : Meaning Word (Hidden E)} {X Z : Word → Prop}
    {i : Instr} {operands : List Word} {h h' : Hidden E}
    (hspares : ∀ o ∈ i.occurrences m operands h, m.Spares Z o) (hsub : ∀ x, X x → Z x)
    (hsame : Hidden.SameOutside Z h h') : ∀ o ∈ i.occurrences m operands h', m.Spares X o := by
  obtain ⟨kind, live⟩ := i
  cases kind with
  | oper template uses defs jumps =>
      intro o ho
      cases List.mem_singleton.mp ho
      exact (hspares _ (List.mem_singleton_self _)).of_sameOutside hsub hsame _
  | move template dst src => exact nofun
  | label l => exact nofun

/-- Code that leaves something alone keeps the frame pointer. -/
theorem Routine.framePointer_run {E : Type} {m : Meaning Word (Hidden E)} {Z : Word → Prop}
    {r : Routine} {s : Machine.State Temp Word (Hidden E)} {n : Nat}
    (hspares : ∀ o ∈ (Machine.run m r.effects s n).2, m.Spares Z o) :
    (Machine.run m r.effects s n).1.hidden.global .framePointer =
      s.hidden.global .framePointer := by
  induction n with
  | zero => rfl
  | succ n ih =>
      rw [Machine.run, List.forall_mem_append] at hspares
      rw [← ih hspares.1]
      show (Machine.step m r.effects (Machine.run m r.effects s n).1).1.hidden.global _ = _
      generalize (Machine.run m r.effects s n).1 = reached at hspares ⊢
      obtain ⟨index, i, hplace, hi⟩ | hstuck := r.at_or_stuck reached
      · rw [step_effects hplace hi, Machine.perform_effect] at hspares ⊢
        exact (Instr.outcome_of_spares hspares.2 (.refl Z _)).2.2.1
      · rw [step_of_stuck hstuck]

/-! ### Accesses -/

namespace Mmix

variable {E : Type} (w : World E) {X : Word → Prop} {t base : Temp} {store : Temp → Word}

/-- What it takes to leave some octabytes alone. -/
theorem spares_of_steady {template : String} {reads : List Word} {h : Hidden E}
    (hframe : (outcome w template reads h).global .framePointer = h.global .framePointer)
    (hjump : ∀ h', Hidden.SameOutside X h h' → jump? w template reads h' = jump? w template reads h)
    (hresult : ∀ h', Hidden.SameOutside X h h' →
      result w template reads h' = result w template reads h)
    (houtcome : ∀ h', Hidden.SameOutside X h h' →
      Hidden.SameOutside X (outcome w template reads h) (outcome w template reads h') ∧
        ∀ x, X x → (outcome w template reads h').memory x = h'.memory x) (jump : Option Label) :
    (meaning w).Spares X ⟨template, reads, h, jump⟩ where
  frame := hframe
  values := fun h' hsame => funext fun _ => hresult h' hsame
  branch := by
    intro h' hsame
    funext jumps
    show (if (jump? w template reads h').isSome then 0 else 1) = _
    rw [hjump h' hsame]
    rfl
  hidden := fun h' hsame => (houtcome h' hsame).1
  kept := fun h' hsame => (houtcome h' hsame).2

/-- A load reads one octabyte. -/
theorem spares_load (hbase : ¬X (store base / 8)) (h : Hidden E) (jump : Option Label) :
    (meaning w).Spares X ⟨(Operation.load t base 0).template,
      (Operation.load t base 0).uses.map store, h, jump⟩ := by
  have ho : (Operation.load t base 0).Readable := (Operation.proper_load (by decide)).toReadable
  have houtcome : ∀ h' : Hidden E, outcome w (Operation.load t base 0).template
      ((Operation.load t base 0).uses.map store) h' = h' := by
    intro h'
    rw [Operation.outcome_template ho]
    rfl
  refine spares_of_steady w ?_ (fun h' _ => ?_) (fun h' hsame => ?_) (fun h' hsame => ?_) jump
  · rw [houtcome]
  · rw [Operation.jump?_template ho, Operation.jump?_template ho]
    rfl
  · rw [Operation.result_template ho, Operation.result_template ho]
    show h'.memory.load (store base + 0) = h.memory.load (store base + 0)
    rw [UInt64.add_zero]
    exact hsame.memory _ hbase
  · rw [houtcome, houtcome]
    exact ⟨hsame, fun _ _ => rfl⟩

/-- A store writes one octabyte. -/
theorem spares_store (hbase : ¬X (store base / 8)) (h : Hidden E) (jump : Option Label) :
    (meaning w).Spares X ⟨(Operation.store t base 0).template,
      (Operation.store t base 0).uses.map store, h, jump⟩ := by
  have ho : (Operation.store t base 0).Readable := (Operation.proper_store (by decide)).toReadable
  have houtcome : ∀ h' : Hidden E, outcome w (Operation.store t base 0).template
      ((Operation.store t base 0).uses.map store) h' =
        { h' with memory := Function.update h'.memory (store base / 8) (store t) } := by
    intro h'
    rw [Operation.outcome_template ho]
    show { h' with memory := h'.memory.store (store base + 0) (store t) } = _
    rw [UInt64.add_zero]
    rfl
  refine spares_of_steady w ?_ (fun h' _ => ?_) (fun h' _ => ?_) (fun h' hsame => ?_) jump
  · rw [houtcome]
  · rw [Operation.jump?_template ho, Operation.jump?_template ho]
    rfl
  · rw [Operation.result_template ho, Operation.result_template ho]
    rfl
  · rw [houtcome, houtcome]
    refine ⟨⟨by rw [hsame.rest], fun x hx => ?_⟩, fun x hx => ?_⟩
    · -- The same is stored in both of them.
      dsimp only
      by_cases hx' : x = store base / 8
      · rw [hx', Function.update_self, Function.update_self]
      · rw [Function.update_of_ne hx', Function.update_of_ne hx']
        exact hsame.memory x hx
    · refine Function.update_of_ne ?_ _ _
      rintro rfl
      exact hbase hx

/-- Operations that do not jump leave some octabytes alone, one after the other. -/
def SparesAll (X : Word → Prop) : List Operation → Core E → Prop
  | [], _ => True
  | o :: os, c => (meaning w).Spares X ⟨o.template, o.uses.map c.store, c.hidden, none⟩ ∧
      SparesAll X os (perform w o.instr c)

/-- Operations in two parts leave octabytes alone part by part. -/
theorem sparesAll_append {os os' : List Operation} {c : Core E} :
    SparesAll w X (os ++ os') c ↔
      SparesAll w X os c ∧ SparesAll w X os' (performAll w (os.map Operation.instr) c) := by
  induction os generalizing c with
  | nil => exact ⟨fun h => ⟨trivial, h⟩, And.right⟩
  | cons o os ih =>
      rw [List.cons_append, SparesAll, ih, SparesAll, and_assoc]
      rfl

/-- Operations that neither access memory nor call leave all octabytes alone. -/
theorem sparesAll_of_readable {os : List Operation} (hos : ∀ o ∈ os, o.Readable ∧
      o.mnemonic ≠ .ldo ∧ o.mnemonic ≠ .sto ∧ o.mnemonic ≠ .pushj) (c : Core E) :
    SparesAll w X os c := by
  induction os generalizing c with
  | nil => trivial
  | cons o os ih =>
      rw [List.forall_mem_cons] at hos
      exact ⟨spares_of_readable w X hos.1.1 hos.1.2 c.store c.hidden none, ih hos.2 _⟩

end Mmix

namespace Spill

variable {E : Type} (w : Mmix.World E) {X : Word → Prop} {a : Access} {as : List Access}

/-- Locating a slot leaves all octabytes alone. -/
theorem sparesAll_locate (a : Access) (c : Core E) : Mmix.SparesAll w X a.locate c := by
  refine Mmix.sparesAll_of_readable w (fun o ho => ?_) c
  rcases Access.mem_locate ho with ⟨group, n, hn, rfl | rfl⟩ | rfl
  · exact ⟨(Operation.proper_set group hn).toReadable, nofun, nofun, nofun⟩
  · exact ⟨(Operation.proper_inc group hn).toReadable, nofun, nofun, nofun⟩
  · exact ⟨Operation.proper_belowFramePointer.toReadable, nofun, nofun, nofun⟩

/-- Loads access their slots only. -/
theorem sparesAll_loads {c : Core E} (has : ∀ a ∈ as, a.Reaches ∧
      ¬X (c.hidden.slotAddress a.offset / 8)) :
    Mmix.SparesAll w X (as.flatMap Access.loading) c := by
  induction as generalizing c with
  | nil => trivial
  | cons a as ih =>
      rw [List.forall_mem_cons] at has
      rw [List.flatMap_cons, Mmix.sparesAll_append, Access.loading, Mmix.sparesAll_append,
        performAll_locate w c has.1.1]
      refine ⟨⟨sparesAll_locate w a c, Mmix.spares_load w ?_ c.hidden none, trivial⟩, ih ?_⟩
      · dsimp only
        rw [Function.update_self]
        exact has.1.2
      · show ∀ b ∈ as, b.Reaches ∧
          ¬X ((Mmix.performAll w a.load c).hidden.slotAddress b.offset / 8)
        rw [performAll_load w c has.1.1]
        exact has.2

/-- Stores access their slots only. -/
theorem sparesAll_stores {c : Core E} (has : ∀ a ∈ as, a.Reaches ∧
      ¬X (c.hidden.slotAddress a.offset / 8)) (hplace : ∀ a ∈ as, a.place ≠ a.address) :
    Mmix.SparesAll w X (as.flatMap Access.storing) c := by
  induction as generalizing c with
  | nil => trivial
  | cons a as ih =>
      rw [List.forall_mem_cons] at has hplace
      rw [List.flatMap_cons, Mmix.sparesAll_append, Access.storing, Mmix.sparesAll_append,
        performAll_locate w c has.1.1]
      refine ⟨⟨sparesAll_locate w a c, Mmix.spares_store w ?_ c.hidden none, trivial⟩,
        ih ?_ hplace.2⟩
      · dsimp only
        rw [Function.update_self]
        exact has.1.2
      · show ∀ b ∈ as, b.Reaches ∧
          ¬X ((Mmix.performAll w a.store c).hidden.slotAddress b.offset / 8)
        rw [performAll_store w c has.1.1 hplace.1]
        exact has.2

end Spill

/-- A run through operations that leave some octabytes alone. -/
theorem Machine.spares_run_inserted {E : Type} {w : Mmix.World E} {X : Word → Prop}
    {os : List Operation} (hos : ∀ o ∈ os, Spill.Inserted o) (before after : List (Effect Temp))
    {c : Core E} (hspares : Mmix.SparesAll w X os c) :
    ∀ o ∈ (run (Mmix.meaning w) (before ++ (os.map Operation.instr).map Instr.effect ++ after)
      ⟨.line before.length, c.store, c.hidden⟩ os.length).2, (Mmix.meaning w).Spares X o := by
  induction os generalizing before c with
  | nil => exact List.forall_mem_nil _
  | cons o os ih =>
      rw [List.forall_mem_cons] at hos
      have hget :
        (before ++ ((o :: os).map Operation.instr).map Instr.effect ++ after)[before.length]?
          = some o.instr.effect := by simp
      have hstep := step_inserted (Mmix.servesSlots_meaning w) hos.1 hget c
      have hnow : (step (Mmix.meaning w)
          (before ++ ((o :: os).map Operation.instr).map Instr.effect ++ after)
            ⟨.line before.length, c.store, c.hidden⟩).2 =
          [⟨o.template, o.uses.map c.store, c.hidden, none⟩] := by
        have heffect : o.instr.effect = .oper o.template o.uses o.defs [] := by
          rw [← hos.1.targets_eq_nil]
          rfl
        simp only [step, hget, heffect, perform, List.getElem?_nil]
      have hrest := ih hos.2 (before ++ [o.instr.effect]) hspares.2
      have hcode :
        before ++ [o.instr.effect] ++ (os.map Operation.instr).map Instr.effect ++ after =
          before ++ ((o :: os).map Operation.instr).map Instr.effect ++ after := by simp
      rw [hcode, List.length_append, List.length_singleton] at hrest
      rw [List.length_cons, Nat.add_comm os.length, run_add, List.forall_mem_append]
      simp only [run, List.nil_append]
      rw [hstep, hnow]
      exact ⟨List.forall_mem_singleton.mpr hspares.1, hrest⟩

/-! ### Cells and runs -/

/-- A jump to a label that the code does not set, and the value that some place holds then. -/
def Machine.Returns {L V H : Type} [DecidableEq L] (m : Meaning V H) (code : List (Effect L))
    (exit : Label) (result : L) (s : State L V H) (v : V) : Prop :=
  ∃ n, (run m code s n).1.place = .left exit ∧ (run m code s n).1.store result = v

/-- The octabyte is that of a slot. -/
def SlotTable.Occupies {E : Type} (s : SlotTable) (h : Hidden E) (x : Word) : Prop :=
  ∃ (t : Temp) (offset : Int), s.offsets[t]? = some offset ∧ x = h.slotAddress offset / 8

/-- The octabytes of slots stay so when more slots are given out. -/
theorem SlotTable.Occupies.mono {E : Type} {s s' : SlotTable} {h : Hidden E} {x : Word}
    (hx : s.Occupies h x) (hextends : s.Extends s') : s'.Occupies h x := by
  obtain ⟨t, offset, ht, hx⟩ := hx
  exact ⟨t, offset, hextends ht, hx⟩

/-- Outside of its code a machine stays where it is. -/
theorem Machine.run_of_left {L V H : Type} [DecidableEq L] {m : Meaning V H}
    {code : List (Effect L)} {s : State L V H} {n k : Nat} {l : Label}
    (hleft : (run m code s n).1.place = .left l) (hle : n ≤ k) :
    (run m code s k).1 = (run m code s n).1 := by
  obtain ⟨k, rfl⟩ := Nat.exists_eq_add_of_le hle
  induction k with
  | zero => rfl
  | succ k ih =>
      rw [← Nat.add_assoc, run]
      show (step m code (run m code s (n + k)).1).1 = _
      rw [ih (Nat.le_add_right n k), step, hleft]

namespace Spill.Translation

variable {E : Type} {w : Mmix.World E} {r r' : Routine} {spilled : TempSet} {first last index : Nat}
  {slots : SlotTable} {X Y Z : Word → Prop} {cells : List Cell} {cell : Cell} {i : Instr}
  {ρ : Temp → Temp} {s s' : Machine.State Temp Word (Hidden E)}

/-- Added operations that leave octabytes alone do so in a run through them. -/
theorem spares_inserted {os : List Operation} (hos : ∀ o ∈ os, Inserted o)
    {before after : List Instr} (hinstrs : r'.instrs = before ++ os.map Operation.instr ++ after)
    {d : Core E} (hspares : Mmix.SparesAll w X os d) :
    ∀ o ∈ (Machine.run (Mmix.meaning w) r'.effects ⟨.line before.length, d.store, d.hidden⟩
      (os.map Operation.instr).length).2, (Mmix.meaning w).Spares X o := by
  have hrun := Machine.spares_run_inserted hos (before.map Instr.effect) (after.map Instr.effect)
    hspares
  rw [Routine.effects, hinstrs, List.map_append, List.map_append, List.length_map]
  rwa [List.length_map] at hrun

/-- The loads of a cell leave alone what is not in their slots. -/
theorem spares_loads (h : Translation r r' spilled first last slots cells)
    (hcell : cells[index]? = some cell) {d : Core E} (hloads : ∀ a ∈ cell.loads, a.Reaches ∧
      ¬X (d.hidden.slotAddress a.offset / 8)) :
    ∀ o ∈ (Machine.run (Mmix.meaning w) r'.effects
      ⟨.line (Layout.start (cells.map Cell.toList) index), d.store, d.hidden⟩
        (cell.loads.flatMap Access.load).length).2, (Mmix.meaning w).Spares X o := by
  obtain ⟨before, after, hstart, hinstrs⟩ := h.instrs_eq_loads hcell
  rw [← hstart, Access.flatMap_load]
  exact spares_inserted inserted_of_mem_loading hinstrs (sparesAll_loads w hloads)

/-- The stores of a cell leave alone what is not in their slots. -/
theorem spares_stores (h : Translation r r' spilled first last slots cells)
    (hcell : cells[index]? = some cell) {d : Core E} (hstores : ∀ a ∈ cell.stores, a.Reaches ∧
      ¬X (d.hidden.slotAddress a.offset / 8)) (hplace : ∀ a ∈ cell.stores, a.place ≠ a.address) :
    ∀ o ∈ (Machine.run (Mmix.meaning w) r'.effects
      ⟨.line (Layout.start (cells.map Cell.toList) index +
        (cell.loads.flatMap Access.load).length + 1), d.store, d.hidden⟩
        (cell.stores.flatMap Access.store).length).2, (Mmix.meaning w).Spares X o := by
  obtain ⟨before, after, hstart, hinstrs⟩ := h.instrs_eq_stores hcell
  rw [← hstart, Access.flatMap_store]
  exact spares_inserted inserted_of_mem_storing hinstrs (sparesAll_stores w hstores hplace)

/-- What an instruction leaves alone, its cell leaves alone as well, apart from the slots. -/
theorem spares_cell (h : Translation r r' spilled first last slots cells)
    (hi : r.instrs[index]? = some i) (hcell : cells[index]? = some cell)
    (hserves : Cell.Serves r.frame spilled (leaves spilled r i) i first last slots ρ cell)
    (hplace : s.place = .line index)
    (hmatches : Matches r spilled first last slots Y (cells.map Cell.toList) s s')
    (hspares : ∀ o ∈ (Machine.step (Mmix.meaning w) r.effects s).2, (Mmix.meaning w).Spares Z o)
    (hX : ∀ x, X x → Z x) (hY : ∀ x, Y x → Z x) (hslots : ∀ x, slots.Occupies s.hidden x → ¬X x) :
    ∀ o ∈ (Machine.run (Mmix.meaning w) r'.effects s' cell.toList.length).2,
      (Mmix.meaning w).Spares X o := by
  obtain ⟨place', store', hidden'⟩ := s'
  have hrelated := hmatches.related
  have hsame : Hidden.SameOutside Z s.hidden hidden' := hrelated.hidden.mono hY
  obtain rfl : place' = .line (Layout.start (cells.map Cell.toList) index) :=
    hmatches.place.trans (congrArg _ hplace)
  -- Accesses are to slots, which stay where they are as long as the frame pointer does.
  have haccess : ∀ a ∈ cell.loads ++ cell.stores, ∀ h' : Hidden E,
      h'.global .framePointer = s.hidden.global .framePointer →
        a.Reaches ∧ ¬X (h'.slotAddress a.offset / 8) := by
    intro a ha h' hpointer
    refine ⟨hserves.reaches ha, hslots _ ⟨a.temp, a.offset, hserves.offset a ha, ?_⟩⟩
    rw [Hidden.slotAddress, Hidden.slotAddress, hpointer]
  obtain ⟨hrun, hbody⟩ := h.run_loads (Mmix.servesSlots_meaning w) hcell ⟨store', hidden'⟩
  obtain ⟨hhidden, hready⟩ := hserves.ready w hrelated
  have hloads := h.spares_loads (w := w) hcell (d := ⟨store', hidden'⟩) fun a ha =>
    haccess a (List.mem_append_left _ ha) hidden' (by rw [hsame.global])
  dsimp only at hrun hbody hhidden hready hloads
  generalize Mmix.performAll w (cell.loads.flatMap Access.load) ⟨store', hidden'⟩ = loaded
    at hrun hhidden hready
  rw [Routine.step_effects hplace hi, Machine.perform_effect] at hspares
  -- The instruction itself does what it did.
  have hoperands : (i.rename ρ).uses.map loaded.store = i.uses.map s.store := hready.operands_eq
  obtain ⟨-, houtcome, htarget, hoccurrences⟩ :=
    i.outcome_rename ρ (Mmix.meaning w) (i.uses.map s.store) hidden'
  obtain ⟨-, -, hframe, hsame', -⟩ := Instr.outcome_of_spares hspares hsame
  rw [length_toList, Machine.run_add, Machine.run_add, List.forall_mem_append,
    List.forall_mem_append]
  dsimp only
  rw [hrun]
  refine ⟨⟨hloads, ?_⟩, ?_⟩
  · show ∀ o ∈ [] ++ (Machine.step _ r'.effects ⟨.line _, loaded.store, loaded.hidden⟩).2, _
    rw [List.nil_append, Routine.step_effects rfl hbody, Machine.perform_effect, hserves.body]
    dsimp only
    rw [hoperands, hhidden, hoccurrences]
    exact Instr.spares_occurrences hspares hX hsame
  · show ∀ o ∈ (Machine.run _ r'.effects (Machine.step _ r'.effects
      ⟨.line _, loaded.store, loaded.hidden⟩).1 _).2, _
    rw [Routine.step_effects rfl hbody, Machine.perform_effect, hserves.body]
    dsimp only
    rw [hoperands, hhidden, houtcome, htarget]
    cases hjump : i.target? (Mmix.meaning w) (i.uses.map s.store) hidden' with
    | none =>
        refine h.spares_stores hcell (d := ⟨_, _⟩) (fun a ha => ?_) fun a ha => ?_
        · refine haccess a (List.mem_append_right _ ha) _ ?_
          exact (congrFun hsame'.global _).trans hframe
        · obtain ⟨ht, hplace⟩ := hserves.mem_stores ha
          rw [hplace]
          exact hserves.address_ne a (List.mem_append_right _ ha) _
            (hserves.made_of_mem (fun _ => List.mem_append_right _) ht).1
    | some l =>
        -- What jumps writes nothing, so there is nothing to store.
        have hjumps : i.jumps ≠ [] := List.ne_nil_of_mem (Instr.mem_jumps_of_target? hjump)
        have hdefs := (h.flow i (List.mem_of_getElem? hi)).resolve_left hjumps
        rw [stores_eq_nil hserves hdefs]
        exact List.forall_mem_nil _

/-- Where the code from before is stuck, so is the new code. -/
theorem stuck_of_stuck (h : Translation r r' spilled first last slots cells)
    (hmatches : Matches r spilled first last slots Y (cells.map Cell.toList) s s')
    (hstuck : ∀ index, s.place = .line index → r.instrs[index]? = none) :
    ∀ line, s'.place = .line line → r'.instrs[line]? = none := by
  intro line hline
  rw [hmatches.place] at hline
  cases hs : s.place with
  | left l =>
      rw [hs] at hline
      cases hline
  | line index =>
      rw [hs] at hline
      have hlength : (cells.map Cell.toList).length ≤ index := by
        rw [List.length_map, ← h.served.length_eq]
        exact List.getElem?_eq_none_iff.mp (hstuck index hs)
      -- Behind the last instruction there are no parts left.
      have hend : Layout.start (cells.map Cell.toList) index = r'.instrs.length := by
        rw [Layout.start, List.take_of_length_le hlength, h.instrs]
      cases hline
      exact List.getElem?_eq_none_iff.mpr (Nat.le_of_eq hend.symm)

/-- The new code keeps up with the code from before, and leaves alone what that did. -/
theorem spares_run (h : Translation r r' spilled first last slots cells)
    (hmatches : Matches r spilled first last slots Y (cells.map Cell.toList) s s')
    (hspares : ∀ n, ∀ o ∈ (Machine.run (Mmix.meaning w) r.effects s n).2,
      (Mmix.meaning w).Spares Z o)
    (hX : ∀ x, X x → Z x) (hY : ∀ x, Y x → Z x) (hslots : ∀ x, slots.Occupies s.hidden x → ¬X x)
    (n : Nat) :
    ∃ k, n ≤ k ∧ Matches r spilled first last slots Y (cells.map Cell.toList)
        (Machine.run (Mmix.meaning w) r.effects s n).1
        (Machine.run (Mmix.meaning w) r'.effects s' k).1 ∧
      ∀ o ∈ (Machine.run (Mmix.meaning w) r'.effects s' k).2, (Mmix.meaning w).Spares X o := by
  induction n with
  | zero => exact ⟨0, Nat.le_refl 0, hmatches, List.forall_mem_nil _⟩
  | succ n ih =>
      obtain ⟨k, hle, hk, hsofar⟩ := ih
      have hpointer := Routine.framePointer_run (hspares n)
      have hnow := hspares (n + 1)
      rw [Machine.run, List.forall_mem_append] at hnow
      rw [Machine.run]
      generalize Machine.run (Mmix.meaning w) r.effects s n = reached at hk hpointer hnow ⊢
      dsimp only at hnow ⊢
      obtain ⟨index, i, hplace, hi⟩ | hstuck := r.at_or_stuck reached.1
      · obtain ⟨cell, ρ, hcell, hserves⟩ := h.getElem?_cells hi
        obtain ⟨-, hnext, -⟩ := h.carriesOut (Mmix.servesSlots_meaning w) hi hcell hserves hplace hk
          fun o ho => (hnow.2 o ho).mono hY
        have hcovered := h.spares_cell hi hcell hserves hplace hk hnow.2 hX hY fun x hx => by
          obtain ⟨t, offset, hoffset, rfl⟩ := hx
          refine hslots _ ⟨t, offset, hoffset, ?_⟩
          rw [Hidden.slotAddress, Hidden.slotAddress, hpointer]
        refine ⟨k + cell.toList.length, ?_, ?_⟩
        · have hlength := length_toList cell
          omega
        · rw [Machine.run_add, List.forall_mem_append]
          exact ⟨hnext, hsofar, hcovered⟩
      · -- Both machines stay where they are.
        refine ⟨k + 1, Nat.succ_le_succ hle, ?_⟩
        rw [Routine.step_of_stuck hstuck, Machine.run]
        dsimp only
        rw [Routine.step_of_stuck (h.stuck_of_stuck hk hstuck), List.append_nil]
        exact ⟨hk, hsofar⟩

end Spill.Translation

/-! ### Rounds -/

/-- Slots that are asked for are laid out below the others. -/
theorem SlotTable.Places.laid {localsSize : Int} {ts : List Temp} {s s' : SlotTable}
    (h : Places localsSize ts s s') (hlaid : s.Laid localsSize) : s'.Laid localsSize := by
  induction h with
  | nil s => exact hlaid
  | cons slot _ ih => exact ih (laid_slotOf hlaid slot)

/-- Outside of the code in parts is outside of the other code. -/
theorem Layout.place_eq_left {α : Type} {parts : List (List α)} {p : Place} {l : Label} :
    place parts p = .left l ↔ p = .left l := by
  cases p with
  | line index => exact ⟨nofun, nofun⟩
  | left l' => exact Iff.rfl

namespace Spill.Recasts

open Machine (Returns)

variable {E : Type} {w : Mmix.World E} {spilled shielded : TempSet} {base : Nat} {r r' : Routine}

/-- A round translates the routine, if no instruction jumps and writes and slots are laid out. -/
theorem translation (h : Recasts spilled shielded base r r')
    (hflow : ∀ i ∈ r.instrs, i.jumps = [] ∨ i.defs = []) (hlocals : 0 ≤ r.frame.localsSize)
    (hlaid : r.slots.Laid r.frame.localsSize) :
    ∃ last cells, Translation r r' spilled base last r'.slots cells := by
  obtain ⟨cells, st, st', hbase, hrendered, hslots, hinstrs, -⟩ := h.rendered
  have hserves := hrendered.serves hbase h.rv_lt (fun i hi t => h.operands_lt hi) hlocals
    (hslots ▸ h.slots.laid hlaid)
  exact ⟨st'.supply.next, cells, hslots ▸ hserves, hinstrs, hflow⟩

/-- Control arrives at the exit with a return value just if it did before. What was left alone
still is, apart from the slots of the routine. -/
theorem keeps (h : Recasts spilled shielded base r r')
    (hflow : ∀ i ∈ r.instrs, i.jumps = [] ∨ i.defs = []) (hlocals : 0 ≤ r.frame.localsSize)
    (hlaid : r.slots.Laid r.frame.localsSize) (hfree : ∀ t ∈ spilled, t ∉ r.slots.offsets)
    {s : Machine.State Temp Word (Hidden E)} (hstart : s.place = .line 0)
    (hinit : ∀ t offset, r'.slots.offsets[t]? = some offset →
      s.hidden.memory.load (s.hidden.slotAddress offset) = s.store t)
    {Z : Word → Prop} (hspares : ∀ n, ∀ o ∈ (Machine.run (Mmix.meaning w) r.effects s n).2,
      (Mmix.meaning w).Spares Z o)
    (hZ : ∀ x, r'.slots.Occupies s.hidden x → ¬r.slots.Occupies s.hidden x → Z x) :
    (r.Delivers → ∀ v, Returns (Mmix.meaning w) r'.effects r.exit r.frame.rv s v ↔
        Returns (Mmix.meaning w) r.effects r.exit r.frame.rv s v) ∧
      ∀ k, ∀ o ∈ (Machine.run (Mmix.meaning w) r'.effects s k).2,
        (Mmix.meaning w).Spares (fun x => Z x ∧ ¬r'.slots.Occupies s.hidden x) o := by
  obtain ⟨last, cells, htranslation⟩ := h.translation hflow hlocals hlaid
  -- The octabytes of the new slots are what may differ between the two machines.
  have hrelated : Related spilled base last r'.slots (fun x => r'.slots.Occupies s.hidden x ∧
      ¬r.slots.Occupies s.hidden x) ⟨s.store, s.hidden⟩ ⟨s.store, s.hidden⟩ := by
    refine ⟨fun _ _ _ => rfl, .refl _ _, fun t _ => hinit t, fun t ht offset hoffset => ?_⟩
    refine ⟨⟨t, offset, hoffset, rfl⟩, ?_⟩
    rintro ⟨u, place, hplace, heq⟩
    refine (h.slots.laid hlaid).slotAddress_div_ne hlocals hoffset (h.slots.extends hplace) ?_
      s.hidden heq
    rintro rfl
    refine hfree t ht (Std.ExtTreeMap.mem_iff_isSome_getElem?.mpr ?_)
    rw [hplace]
    rfl
  have hmatches : Matches r spilled base last r'.slots (fun x => r'.slots.Occupies s.hidden x ∧
      ¬r.slots.Occupies s.hidden x) (cells.map Cell.toList) s s := by
    refine ⟨?_, hrelated, fun hleft => ?_⟩
    · rw [hstart]
      rfl
    · rw [hstart] at hleft
      cases hleft
  have hruns := htranslation.spares_run (w := w) hmatches hspares
    (X := fun x => Z x ∧ ¬r'.slots.Occupies s.hidden x) (fun x hx => hx.1)
    (fun x hx => hZ x hx.1 hx.2) fun x hx hx' => hx'.2 hx
  constructor
  · intro hdelivers v
    constructor
    · rintro ⟨k, hleft, hvalue⟩
      obtain ⟨k', hle, hk, -⟩ := hruns k
      rw [Machine.run_of_left hleft hle] at hk
      have hleft' := Layout.place_eq_left.mp (hk.place.symm.trans hleft)
      exact ⟨k, hleft', (hk.result hleft' fun _ => hdelivers.1).symm.trans hvalue⟩
    · rintro ⟨n, hleft, hvalue⟩
      obtain ⟨k, -, hk, -⟩ := hruns n
      exact ⟨k, hk.place.trans (Layout.place_eq_left.mpr hleft),
        (hk.result hleft fun _ => hdelivers.1).trans hvalue⟩
  · intro k o ho
    obtain ⟨k', hle, -, hall⟩ := hruns k
    obtain ⟨rest, rfl⟩ := Nat.exists_eq_add_of_le hle
    rw [Machine.run_add, List.forall_mem_append] at hall
    exact hall.1 o ho

end Spill.Recasts

end MmixCodegen
