import MmixCodegen.Proofs.Spill.Access

/-!
# `MmixCodegen.Proofs.Spill.Related`: values in registers and values in slots

`Spill.Related` relates what there is before spilling to what there is after it. A
temporary that is not spilled has the same value on both sides, and the value of one that
is spilled is in its slot. Memory is the same outside of `X`, which holds the octabytes of
the slots; it may hold more.

The code of a routine must leave `X` alone. `Meaning.Spares` says this of an operation
that was carried out: it neither reads nor writes these octabytes, and it keeps the frame
pointer.

A cell keeps two states related in three steps. After its loads, the operands of its
instruction have the values that they should have (`Cell.Renders.ready`). The instruction
does the same on both sides, except that what it writes to spilled temporaries is still
`Pending` (`Ready.pending`). The stores put it into the slots (`Pending.related`).
-/

set_option autoImplicit false

namespace MmixCodegen

/-! ### Octabytes that are left alone -/

namespace Mmix.Hidden

variable {E : Type} {X : Word → Prop} {h h' : Hidden E}

/-- The two differ in the octabytes in `X` at most. -/
structure SameOutside (X : Word → Prop) (h h' : Hidden E) : Prop where
  rest : h' = { h with memory := h'.memory }
  memory : ∀ x, ¬X x → h'.memory x = h.memory x

/-- States that differ in some octabytes have the same registers. -/
theorem SameOutside.global (hsame : SameOutside X h h') : h'.global = h.global := by
  rw [hsame.rest]

/-- States that differ in some octabytes have their slots in the same places. -/
theorem SameOutside.slotAddress (hsame : SameOutside X h h') (offset : Int) :
    h'.slotAddress offset = h.slotAddress offset := by
  rw [Hidden.slotAddress, Hidden.slotAddress, hsame.global]

end Mmix.Hidden

open Mmix (Core Hidden)

/-- An operation that was carried out keeps the frame pointer and leaves the octabytes in
`X` alone: it does the same whatever they hold, and they hold it afterwards. -/
structure Meaning.Spares {E : Type} (m : Meaning Word (Hidden E)) (X : Word → Prop)
    (o : Occurrence Word (Hidden E)) : Prop where
  frame : (m.hidden o.template o.operands o.hidden).global .framePointer =
    o.hidden.global .framePointer
  values : ∀ h, Hidden.SameOutside X o.hidden h →
    m.values o.template o.operands h = m.values o.template o.operands o.hidden
  branch : ∀ h, Hidden.SameOutside X o.hidden h →
    m.branch o.template o.operands h = m.branch o.template o.operands o.hidden
  hidden : ∀ h, Hidden.SameOutside X o.hidden h → Hidden.SameOutside X
    (m.hidden o.template o.operands o.hidden) (m.hidden o.template o.operands h)
  kept : ∀ h, Hidden.SameOutside X o.hidden h → ∀ x, X x →
    (m.hidden o.template o.operands h).memory x = h.memory x

/-- A template of an operation that does not access memory leaves all of it alone. -/
theorem Mmix.spares_of_read {E : Type} (w : World E) (X : Word → Prop) {template : String}
    {mnemonic : Mnemonic} {args : List Arg} (hread : read? template = some (mnemonic, args))
    (hmem : mnemonic ≠ .ldo ∧ mnemonic ≠ .sto ∧ mnemonic ≠ .pushj) (reads : List Word)
    (h : Hidden E)
    (jump : Option Label) : (meaning w).Spares X ⟨template, reads, h, jump⟩ := by
  have hinputs : ∀ h', Hidden.SameOutside X h h' →
      inputs w args reads h' = inputs w args reads h := by
    intro h' hsame
    have hinput : input? w reads h' = input? w reads h := by
      funext arg
      rw [hsame.rest]
      cases arg <;> rfl
    rw [inputs, inputs, hinput]
  have hresult : ∀ h' : Hidden E, result w template reads h' =
      value h' (reads.headD 0) mnemonic (inputs w args reads h') := by
    intro h'
    rw [result, hread]
  have houtcome : ∀ h' : Hidden E, outcome w template reads h' =
      effect w h' mnemonic args (inputs w args reads h') := by
    intro h'
    rw [outcome, hread]
  have hjump : ∀ h' : Hidden E, jump? w template reads h' =
      target? mnemonic args (inputs w args reads h') := by
    intro h'
    rw [jump?, hread]
    rfl
  -- Only a division changes anything, and not memory.
  have heffect : ∀ (h' : Hidden E) inputs, (effect w h' mnemonic args inputs).memory = h'.memory ∧
      (effect w h' mnemonic args inputs).global = h'.global := by
    intro h' inputs
    obtain ⟨hglobal, hmemory⟩ := effect_keeps w h' hmem.2.1 hmem.2.2 args inputs
    exact ⟨hmemory, hglobal⟩
  refine ⟨?_, fun h' hsame => ?_, fun h' hsame => ?_, fun h' hsame => ?_, fun h' hsame x _ => ?_⟩
  · show (outcome w template reads h).global _ = _
    rw [houtcome, (heffect h _).2]
  · funext k
    show result w template reads h' = result w template reads h
    rw [hresult, hresult, hinputs h' hsame, value_of_ne_ldo hmem.1]
  · funext jumps
    show (if (jump? w template reads h').isSome then 0 else 1) =
      if (jump? w template reads h).isSome then 0 else 1
    rw [hjump, hjump, hinputs h' hsame]
  · show Hidden.SameOutside X (outcome w template reads h) (outcome w template reads h')
    rw [houtcome, houtcome, hinputs h' hsame]
    refine ⟨?_, fun x hx => ?_⟩
    · rw [hsame.rest, effect.eq_def, effect.eq_def]
      split
      · rfl
      · rfl
      · exact absurd rfl hmem.2.2
      · rfl
    · rw [(heffect h' _).1, (heffect h _).1]
      exact hsame.memory x hx
  · show (outcome w template reads h').memory x = h'.memory x
    rw [houtcome, (heffect h' _).1]

/-- An operation that does not access memory leaves all of it alone. -/
theorem Mmix.spares_of_readable {E : Type} (w : World E) (X : Word → Prop) {o : Operation}
    (ho : o.Readable) (hmem : o.mnemonic ≠ .ldo ∧ o.mnemonic ≠ .sto ∧ o.mnemonic ≠ .pushj)
    (store : Temp → Word) (h : Hidden E) (jump : Option Label) :
    (meaning w).Spares X ⟨o.template, o.uses.map store, h, jump⟩ :=
  spares_of_read w X (Operation.read?_template ho) hmem (o.uses.map store) h jump

/-! ### Instructions by their operands -/

namespace Instr

variable {E : Type} (m : Meaning Word (Hidden E)) (i : Instr) (operands : List Word) (h : Hidden E)

/-- What an instruction writes, by position. -/
def values : Nat → Word :=
  match i.kind with
  | .oper template _ _ _ => m.values template operands h
  | .move _ _ _ => fun _ => operands.headD 0
  | .label _ => fun _ => 0

/-- What an instruction makes of the hidden state. -/
def outcome : Hidden E :=
  match i.kind with
  | .oper template _ _ _ => m.hidden template operands h
  | _ => h

/-- The jump that an instruction takes. -/
def target? : Option Label :=
  match i.kind with
  | .oper template _ _ jumps => jumps[m.branch template operands h jumps % jumps.length]?
  | _ => none

/-- The operation that is carried out. -/
def occurrences : List (Occurrence Word (Hidden E)) :=
  match i.kind with
  | .oper template _ _ _ => [⟨template, operands, h, i.target? m operands h⟩]
  | _ => []

variable {m i operands h}

/-- A jump that is taken is one of the jumps. -/
theorem mem_jumps_of_target? {l : Label} (hl : i.target? m operands h = some l) : l ∈ i.jumps := by
  obtain ⟨kind, live⟩ := i
  cases kind with
  | oper template uses defs jumps => exact List.mem_of_getElem? hl
  | move template dst src => cases hl
  | label l' => cases hl

/-- An instruction that spares some octabytes does the same whatever they hold. -/
theorem outcome_of_spares {X : Word → Prop} {h' : Hidden E}
    (hspares : ∀ o ∈ i.occurrences m operands h, m.Spares X o) (hsame : Hidden.SameOutside X h h') :
    i.values m operands h' = i.values m operands h ∧
      i.target? m operands h' = i.target? m operands h ∧
      (i.outcome m operands h).global .framePointer = h.global .framePointer ∧
      Hidden.SameOutside X (i.outcome m operands h) (i.outcome m operands h') ∧
      ∀ x, X x → (i.outcome m operands h').memory x = h'.memory x := by
  obtain ⟨kind, live⟩ := i
  cases kind with
  | oper template uses defs jumps =>
      have hone := hspares _ (List.mem_singleton_self _)
      refine ⟨hone.values h' hsame, ?_, hone.frame, hone.hidden h' hsame, hone.kept h' hsame⟩
      have hbranch := hone.branch h' hsame
      dsimp only at hbranch
      simp only [target?, hbranch]
  | move template dst src => exact ⟨rfl, rfl, rfl, hsame, fun _ _ => rfl⟩
  | label l => exact ⟨rfl, rfl, rfl, hsame, fun _ _ => rfl⟩

variable (i) (ρ : Temp → Temp)

/-- What an instruction does with its operands does not depend on which ones they are. -/
theorem outcome_rename (m : Meaning Word (Hidden E)) (operands : List Word) (h : Hidden E) :
    (i.rename ρ).values m operands h = i.values m operands h ∧
      (i.rename ρ).outcome m operands h = i.outcome m operands h ∧
      (i.rename ρ).target? m operands h = i.target? m operands h ∧
      (i.rename ρ).occurrences m operands h = i.occurrences m operands h := by
  obtain ⟨kind, live⟩ := i
  cases kind <;> exact ⟨rfl, rfl, rfl, rfl⟩

end Instr

/-- The machine carries out an instruction in terms of its operands. -/
theorem Machine.perform_effect {E : Type} (m : Meaning Word (Hidden E)) (code : List (Effect Temp))
    (index : Nat) (s : State Temp Word (Hidden E)) (i : Instr) :
    perform m code index s i.effect =
      (⟨(i.target? m (i.uses.map s.store) s.hidden).elim (.line (index + 1)) (goto code),
        write (i.values m (i.uses.map s.store) s.hidden) 0 i.defs s.store,
        i.outcome m (i.uses.map s.store) s.hidden⟩,
      i.occurrences m (i.uses.map s.store) s.hidden) := by
  obtain ⟨kind, live⟩ := i
  cases kind <;> rfl

/-- What is not written keeps its value. -/
theorem Machine.write_of_notMem {t : Temp} {defs : List Temp} (ht : t ∉ defs) (values : Nat → Word)
    (index : Nat) (store : Temp → Word) : write values index defs store t = store t := by
  induction defs generalizing index store with
  | nil => rfl
  | cons d defs ih =>
      rw [List.mem_cons, not_or] at ht
      rw [write, ih ht.2, Function.update_of_ne ht.1]

/-! ### Related states -/

namespace Spill

variable {E : Type} {frame : Frame} {spilled : TempSet} {leaving : Bool} {first last : Nat}
  {slots : SlotTable} {X : Word → Prop} {i : Instr} {ρ : Temp → Temp} {cell : Cell} {c d : Core E}

/-- A temporary that is not made by spilling. -/
def Old (first last : Nat) (t : Temp) : Prop :=
  t.number < first ∨ last ≤ t.number

/-- What there is before spilling, and after it. The numbers from `first` up to `last` are
those of the temporaries that spilling makes. -/
structure Related (spilled : TempSet) (first last : Nat) (slots : SlotTable) (X : Word → Prop)
    (c d : Core E) : Prop where
  temps : ∀ t, t ∉ spilled → Old first last t → d.store t = c.store t
  hidden : Hidden.SameOutside X c.hidden d.hidden
  /-- A spilled temporary with a slot has its value there. -/
  slot : ∀ t ∈ spilled, ∀ offset, slots.offsets[t]? = some offset →
    d.hidden.memory.load (c.hidden.slotAddress offset) = c.store t
  reserved : ∀ t ∈ spilled, ∀ offset, slots.offsets[t]? = some offset →
    X (c.hidden.slotAddress offset / 8)

/-- The cell of an instruction whose operands are not made by spilling. -/
structure Cell.Serves (frame : Frame) (spilled : TempSet) (leaving : Bool) (i : Instr)
    (first last : Nat) (slots : SlotTable) (ρ : Temp → Temp) (cell : Cell) : Prop
    extends cell.Renders frame spilled leaving i first last slots ρ where
  operands : ∀ t ∈ i.operands, t.number < first
  rv : frame.rv.number < first
  leaving : leaving = true → frame.rv ∈ spilled
  locals : 0 ≤ frame.localsSize
  laid : slots.Laid frame.localsSize

/-! ### Loads -/

/-- The operands of an instruction are ready. -/
structure Ready (frame : Frame) (spilled : TempSet) (leaving : Bool) (first last : Nat)
    (i : Instr) (ρ : Temp → Temp) (c d : Core E) : Prop where
  uses : ∀ t ∈ i.uses, d.store (ρ t) = c.store t
  temps : ∀ t, t ∉ spilled → Old first last t → d.store t = c.store t
  result : leaving = true → d.store frame.rv = c.store frame.rv

namespace Cell.Serves

variable (h : cell.Serves frame spilled leaving i first last slots ρ)
include h

/-- The distance of a slot is loaded as it is, because slots lie below the frame pointer. -/
theorem reaches {a : Access} (ha : a ∈ cell.loads ++ cell.stores) : a.Reaches :=
  h.laid.ofNat_natAbs h.locals (h.offset a ha)

/-- Only spilled temporaries are loaded. -/
theorem temp_mem_spilled {a : Access} (ha : a ∈ cell.loads) : a.temp ∈ spilled := by
  rcases h.mem_loads ha with ⟨ht, -⟩ | ⟨hleaving, htemp, -⟩
  · exact (mem_spilledOf.mp ht).2
  · exact htemp ▸ h.leaving hleaving

/-- What takes the place of an operand was made for it. -/
theorem made_of_mem {ts : List Temp} {t : Temp} (hts : ∀ t ∈ ts, t ∈ i.operands)
    (ht : t ∈ spilledOf spilled ts) :
    t ∈ spilledOf spilled i.operands ∧ first ≤ (ρ t).number ∧ (ρ t).number < last := by
  obtain ⟨hmem, hspilled⟩ := mem_spilledOf.mp ht
  have hop := mem_spilledOf.mpr ⟨hts t hmem, hspilled⟩
  exact ⟨hop, h.replaces.made t hop⟩

/-- What is loaded is not overwritten with an address. -/
theorem loads_place_ne {a b : Access} (ha : a ∈ cell.loads) (hb : b ∈ cell.loads ++ cell.stores) :
    a.place ≠ b.address := by
  rcases h.mem_loads ha with ⟨ht, hplace⟩ | ⟨-, -, hplace⟩
  · rw [hplace]
    exact h.address_ne b hb _ (h.made_of_mem (fun _ => List.mem_append_left _) ht).1
  · intro heq
    have hle := (h.address b hb).1
    rw [← heq, hplace] at hle
    exact absurd h.rv (Nat.not_lt_of_le hle)

/-- What is loaded into one temporary comes from one slot. -/
theorem loads_offset_eq {a b : Access} (ha : a ∈ cell.loads) (hb : b ∈ cell.loads)
    (heq : a.place = b.place) : a.offset = b.offset := by
  have htemp : a.temp = b.temp := by
    rcases h.mem_loads ha with ⟨ht, hplace⟩ | ⟨-, htemp, hplace⟩ <;>
      rcases h.mem_loads hb with ⟨hu, hplace'⟩ | ⟨-, htemp', hplace'⟩
    · rw [hplace, hplace'] at heq
      exact h.replaces.injective _ (h.made_of_mem (fun _ => List.mem_append_left _) ht).1 _
        (h.made_of_mem (fun _ => List.mem_append_left _) hu).1 heq
    · -- What is made is not the return value.
      have hle := (h.made_of_mem (fun _ => List.mem_append_left _) ht).2.1
      rw [← hplace, heq, hplace'] at hle
      exact absurd h.rv (Nat.not_lt_of_le hle)
    · have hle := (h.made_of_mem (fun _ => List.mem_append_left _) hu).2.1
      rw [← hplace', ← heq, hplace] at hle
      exact absurd h.rv (Nat.not_lt_of_le hle)
    · rw [htemp, htemp']
  have hoffset := h.offset a (List.mem_append_left _ ha)
  rw [htemp, h.offset b (List.mem_append_left _ hb)] at hoffset
  exact (Option.some.inj hoffset).symm

/-- After the loads, the operands of the instruction have their values. -/
theorem ready (w : Mmix.World E) (hrelated : Related spilled first last slots X c d) :
    let loaded := Mmix.performAll w (cell.loads.flatMap Access.load) d
    loaded.hidden = d.hidden ∧ Ready frame spilled leaving first last i ρ c loaded := by
  intro loaded
  have hloaded : Loaded cell.loads d loaded :=
    loads_loaded w d (fun a ha => h.reaches (List.mem_append_left _ ha))
      (fun a ha b hb => h.loads_place_ne ha (List.mem_append_left _ hb))
      (fun a ha b hb => h.loads_offset_eq ha hb)
  -- What is loaded is the value of the temporary of the slot.
  have hvalue : ∀ a ∈ cell.loads, loaded.store a.place = c.store a.temp := by
    intro a ha
    rw [hloaded.place a ha, hrelated.hidden.slotAddress]
    exact hrelated.slot _ (h.temp_mem_spilled ha) _ (h.offset a (List.mem_append_left _ ha))
  have htemps : ∀ t, t ∉ spilled → Old first last t → loaded.store t = c.store t := by
    intro t ht hold
    refine (hloaded.kept t fun a ha => ⟨?_, ?_⟩).trans (hrelated.temps t ht hold)
    · rintro rfl
      rcases h.mem_loads ha with ⟨hmem, hplace⟩ | ⟨hleaving, -, hplace⟩
      · have hmade := (h.made_of_mem (fun _ => List.mem_append_left _) hmem).2
        rw [← hplace] at hmade
        rcases hold with hlt | hle <;> omega
      · exact ht (hplace ▸ h.leaving hleaving)
    · rintro rfl
      have haddress := h.address a (List.mem_append_left _ ha)
      rcases hold with hlt | hle <;> omega
  refine ⟨hloaded.hidden, ⟨fun t ht => ?_, htemps, fun hleaving => ?_⟩⟩
  · by_cases hspilled : t ∈ spilled
    · obtain ⟨a, ha, htemp, hplace⟩ := h.exists_load (mem_spilledOf.mpr ⟨ht, hspilled⟩)
      rw [← hplace, hvalue a ha, htemp]
    · rw [h.replaces.kept t fun hmem => hspilled (mem_spilledOf.mp hmem).2]
      exact htemps t hspilled (.inl (h.operands t (List.mem_append_left _ ht)))
  · obtain ⟨a, ha, htemp, hplace⟩ := h.exists_result hleaving
    rw [← hplace, hvalue a ha, htemp, hplace]

end Cell.Serves

/-! ### The instruction -/

/-- The states are related but for the spilled temporaries in `defs`, whose values are
still in what takes their places. -/
structure Pending (spilled : TempSet) (first last : Nat) (slots : SlotTable) (X : Word → Prop)
    (defs : List Temp) (ρ : Temp → Temp) (c d : Core E) : Prop where
  temps : ∀ t, t ∉ spilled → Old first last t → d.store t = c.store t
  hidden : Hidden.SameOutside X c.hidden d.hidden
  slot : ∀ t ∈ spilled, t ∉ defs → ∀ offset, slots.offsets[t]? = some offset →
    d.hidden.memory.load (c.hidden.slotAddress offset) = c.store t
  reserved : ∀ t ∈ spilled, ∀ offset, slots.offsets[t]? = some offset →
    X (c.hidden.slotAddress offset / 8)
  written : ∀ t ∈ spilled, t ∈ defs → d.store (ρ t) = c.store t

/-- What there is after an instruction. -/
def after (m : Meaning Word (Hidden E)) (i : Instr) (c : Core E) : Core E :=
  ⟨Machine.write (i.values m (i.uses.map c.store) c.hidden) 0 i.defs c.store,
    i.outcome m (i.uses.map c.store) c.hidden⟩

/-- When the operands are ready, the instruction of the cell reads what the old one reads. -/
theorem Ready.operands_eq (h : Ready frame spilled leaving first last i ρ c d) :
    (i.rename ρ).uses.map d.store = i.uses.map c.store := by
  rw [Instr.uses_rename, List.map_map]
  exact List.map_congr_left h.uses

/-- An instruction with its operands ready does the same on both sides. -/
theorem Ready.pending {loaded : Core E} {m : Meaning Word (Hidden E)}
    (h : Ready frame spilled leaving first last i ρ c loaded)
    (hserves : cell.Serves frame spilled leaving i first last slots ρ)
    (hrelated : Related spilled first last slots X c d) (hhidden : loaded.hidden = d.hidden)
    (hspares : ∀ o ∈ i.occurrences m (i.uses.map c.store) c.hidden, m.Spares X o) :
    Pending spilled first last slots X i.defs ρ (after m i c) (after m (i.rename ρ) loaded) := by
  obtain ⟨hvalues, -, hframe, hsame, hkept⟩ := Instr.outcome_of_spares hspares hrelated.hidden
  obtain ⟨hvalues', houtcome, -, -⟩ := i.outcome_rename ρ m (i.uses.map c.store) d.hidden
  have hslot : ∀ offset, (after m i c).hidden.slotAddress offset = c.hidden.slotAddress offset := by
    intro offset
    rw [Hidden.slotAddress, Hidden.slotAddress, after, hframe]
  have hafter : after m (i.rename ρ) loaded =
      ⟨Machine.write (i.values m (i.uses.map c.store) c.hidden) 0 (i.defs.map ρ) loaded.store,
        i.outcome m (i.uses.map c.store) d.hidden⟩ := by
    rw [after, h.operands_eq, hhidden, hvalues', houtcome, hvalues, Instr.defs_rename]
  rw [hafter]
  -- Two destinations that go to the same place are the same.
  have hinjective : ∀ u ∈ i.defs, ∀ t, ρ u = ρ t → (t ∉ spilled → Old first last t) →
      (t ∈ spilled → t ∈ i.defs) → u = t := by
    intro u hu t heq hold hdefs
    by_cases huspilled : u ∈ spilled <;> by_cases htspilled : t ∈ spilled
    · exact hserves.replaces.injective u
        (mem_spilledOf.mpr ⟨List.mem_append_right _ hu, huspilled⟩) t
        (mem_spilledOf.mpr ⟨List.mem_append_right _ (hdefs htspilled), htspilled⟩) heq
    · have hmade := hserves.replaces.made u
        (mem_spilledOf.mpr ⟨List.mem_append_right _ hu, huspilled⟩)
      rw [heq, hserves.replaces.kept t fun hmem => htspilled (mem_spilledOf.mp hmem).2] at hmade
      rcases hold htspilled with hlt | hle <;> omega
    · have hmade := hserves.replaces.made t
        (mem_spilledOf.mpr ⟨List.mem_append_right _ (hdefs htspilled), htspilled⟩)
      rw [← heq, hserves.replaces.kept u fun hmem => huspilled (mem_spilledOf.mp hmem).2] at hmade
      have hlt := hserves.operands u (List.mem_append_right _ hu)
      omega
    · rwa [hserves.replaces.kept u fun hmem => huspilled (mem_spilledOf.mp hmem).2,
        hserves.replaces.kept t fun hmem => htspilled (mem_spilledOf.mp hmem).2] at heq
  refine ⟨fun t ht hold => ?_, hsame, fun t ht hdefs offset hoffset => ?_,
    fun t ht offset hoffset => ?_, fun t ht hdefs => ?_⟩
  · have hρ : ρ t = t := hserves.replaces.kept t fun hmem => ht (mem_spilledOf.mp hmem).2
    have hwrite : Machine.write _ 0 (i.defs.map ρ) loaded.store (ρ t) = (after m i c).store t :=
      Machine.write_map 0
        (fun u hu heq => hinjective u hu t heq (fun _ => hold) fun h => absurd h ht)
        (fun _ => by rw [hρ]; exact h.temps t ht hold)
    rwa [hρ] at hwrite
  · -- The slot is not touched, and the temporary is not written.
    rw [hslot]
    show (i.outcome m _ d.hidden).memory _ = Machine.write _ 0 i.defs c.store t
    rw [hkept _ (hrelated.reserved t ht offset hoffset), Machine.write_of_notMem hdefs]
    exact hrelated.slot t ht offset hoffset
  · rw [hslot]
    exact hrelated.reserved t ht offset hoffset
  · exact Machine.write_map 0
      (fun u hu heq => hinjective u hu t heq (fun hnot => absurd ht hnot) fun _ => hdefs)
      (fun hnot => absurd hdefs hnot)

/-! ### Stores -/

/-- The stores put what is pending into the slots. -/
theorem Pending.related (w : Mmix.World E)
    (h : Pending spilled first last slots X i.defs ρ c d)
    (hserves : cell.Serves frame spilled leaving i first last slots ρ) :
    Related spilled first last slots X c
      (Mmix.performAll w (cell.stores.flatMap Access.store) d) := by
  have hmem : ∀ a ∈ cell.stores, a.temp ∈ spilled ∧ a.temp ∈ i.defs ∧ a.place = ρ a.temp ∧
      slots.offsets[a.temp]? = some a.offset := by
    intro a ha
    obtain ⟨ht, hplace⟩ := hserves.mem_stores ha
    obtain ⟨hdefs, hspilled⟩ := mem_spilledOf.mp ht
    exact ⟨hspilled, hdefs, hplace, hserves.offset a (List.mem_append_right _ ha)⟩
  have hstored : Stored cell.stores d (Mmix.performAll w (cell.stores.flatMap Access.store) d) := by
    refine stores_stored w d (fun a ha => hserves.reaches (List.mem_append_right _ ha))
      (fun a ha b hb => ?_) (fun a ha b hb heq => ?_)
    · obtain ⟨hspilled, hdefs, hplace, -⟩ := hmem a ha
      rw [hplace]
      exact hserves.address_ne b (List.mem_append_right _ hb) _
        (mem_spilledOf.mpr ⟨List.mem_append_right _ hdefs, hspilled⟩)
    · -- Two stores into one octabyte are of the same temporary.
      obtain ⟨-, -, hplace, hoffset⟩ := hmem a ha
      obtain ⟨-, -, hplace', hoffset'⟩ := hmem b hb
      by_cases htemp : a.temp = b.temp
      · rw [hplace, hplace', htemp]
      · exact absurd heq (hserves.laid.slotAddress_div_ne hserves.locals hoffset hoffset' htemp _)
  generalize Mmix.performAll w (cell.stores.flatMap Access.store) d = stored at hstored ⊢
  have hslot := h.hidden.slotAddress
  refine ⟨fun t ht hold => ?_, ⟨?_, fun x hx => ?_⟩, fun t ht offset hoffset => ?_, h.reserved⟩
  · rw [hstored.kept t fun a ha => ?_]
    · exact h.temps t ht hold
    · rintro rfl
      have haddress := hserves.address a (List.mem_append_right _ ha)
      rcases hold with hlt | hle <;> omega
  · rw [hstored.hidden, h.hidden.rest]
  · rw [hstored.memory x fun a ha => ?_]
    · exact h.hidden.memory x hx
    · rintro rfl
      obtain ⟨hspilled, -, -, hoffset⟩ := hmem a ha
      rw [hslot] at hx
      exact hx (h.reserved _ hspilled _ hoffset)
  · by_cases hdefs : t ∈ i.defs
    · obtain ⟨a, ha, rfl, hplace⟩ := hserves.exists_store (mem_spilledOf.mpr ⟨hdefs, ht⟩)
      obtain ⟨-, -, -, hoffset'⟩ := hmem a ha
      obtain rfl : offset = a.offset := Option.some.inj (hoffset.symm.trans hoffset')
      rw [← hslot, hstored.slot a ha, hplace]
      exact h.written _ ht hdefs
    · rw [Memory.load, hstored.memory _ fun a ha => ?_]
      · exact h.slot t ht hdefs offset hoffset
      · obtain ⟨-, hdefs', -, hoffset'⟩ := hmem a ha
        rw [hslot]
        exact hserves.laid.slotAddress_div_ne hserves.locals hoffset hoffset'
          (fun heq => hdefs (heq ▸ hdefs')) _

end Spill

end MmixCodegen
