import MmixCodegen.Proofs.Flow.Path
import MmixCodegen.Proofs.Spill.Cell

/-!
# `MmixCodegen.Proofs.Spill.Placement`: which slots are given out

A round of spilling asks for slots at three places: for an operand that is loaded, for one
that is stored, and for a return value that is loaded at the exit. The same temporary may be
asked for many times, and in later rounds again. `SlotTable.Places` lists what was asked for,
and `SlotTable.Overflows` says that the list cannot be served. All else follows from these two:

* `Places.mem_offsets`: the temporaries of the list have slots, and no others get any;
* `Places.filled`: the slots fill the bytes that the table counts, without a gap;
* `Overflows.lt`: a list that cannot be served needs an offset beyond the largest one.

`Spill.Takes` says of a step which slots it asks for, and `takes_blocks` says it of a whole
round. `Routine.respill_slots` is about any number of rounds, whatever is spilled in them and
wherever their temporaries come from. `Program.lacksRoom_of_spill` says of a round over a whole
program why it fails.
-/

set_option autoImplicit false

namespace MmixCodegen

namespace SlotTable

variable {localsSize offset : Int} {ts us : List Temp} {s mid s' : SlotTable} {t u : Temp}

/-! ### Slots that are asked for -/

/-- Slots for the temporaries of a list, asked for one after the other. -/
inductive Places (localsSize : Int) : List Temp → SlotTable → SlotTable → Prop
  | nil (s : SlotTable) : Places localsSize [] s s
  | cons {t : Temp} {ts : List Temp} {offset : Int} {s mid s' : SlotTable}
      (slot : s.slotOf localsSize t = .ok (offset, mid)) (rest : Places localsSize ts mid s') :
      Places localsSize (t :: ts) s s'

/-- There is no room for the slot of some temporary of the list. -/
inductive Overflows (localsSize : Int) : List Temp → SlotTable → Prop
  | here {t : Temp} {ts : List Temp} {s : SlotTable} {e : Failure}
      (fails : s.slotOf localsSize t = .error e) : Overflows localsSize (t :: ts) s
  | later {t : Temp} {ts : List Temp} {offset : Int} {s mid : SlotTable}
      (slot : s.slotOf localsSize t = .ok (offset, mid)) (rest : Overflows localsSize ts mid) :
      Overflows localsSize (t :: ts) s

/-- Lists of slots may be asked for one after the other. -/
theorem Places.append (h : Places localsSize ts s mid) (h' : Places localsSize us mid s') :
    Places localsSize (ts ++ us) s s' := by
  induction h with
  | nil s => exact h'
  | cons slot _ ih => exact .cons slot (ih h')

/-- A list that cannot be served cannot be continued either. -/
theorem Overflows.append_right (h : Overflows localsSize ts s) (us : List Temp) :
    Overflows localsSize (ts ++ us) s := by
  induction h with
  | here fails => exact .here fails
  | later slot _ ih => exact .later slot ih

/-- After some slots were given out, a list that cannot be served makes the whole fail. -/
theorem Places.overflows (h : Places localsSize ts s mid) (h' : Overflows localsSize us mid) :
    Overflows localsSize (ts ++ us) s := by
  induction h with
  | nil s => exact h'
  | cons slot _ ih => exact .later slot (ih h')

/-- Slots that are asked for do not move the ones that are there. -/
theorem Places.extends (h : Places localsSize ts s s') : s.Extends s' := by
  induction h with
  | nil s => exact fun _ _ ht => ht
  | cons slot _ ih => exact (extends_slotOf slot).trans ih

/-! ### Who has a slot -/

/-- Asking for a slot gives one to that temporary, and to nobody else. -/
theorem mem_slotOf (h : s.slotOf localsSize t = .ok (offset, s')) :
    u ∈ s'.offsets ↔ u ∈ s.offsets ∨ u = t := by
  rcases slotOf_cases h with ⟨hsome, rfl⟩ | ⟨-, -, -, rfl⟩
  · have ht : t ∈ s'.offsets := by
      rw [Std.ExtTreeMap.mem_iff_isSome_getElem?, hsome]
      rfl
    refine ⟨.inl, ?_⟩
    rintro (hu | rfl)
    · exact hu
    · exact ht
  · rw [Std.ExtTreeMap.mem_insert, Std.LawfulEqCmp.compare_eq_iff_eq, or_comm, eq_comm]

/-- Those that are asked for have a slot, and no others get one. -/
theorem Places.mem_offsets (h : Places localsSize ts s s') :
    t ∈ s'.offsets ↔ t ∈ s.offsets ∨ t ∈ ts := by
  induction h with
  | nil s => simp
  | cons slot _ ih => rw [ih, mem_slotOf slot, List.mem_cons, or_assoc]

/-- The temporaries that have a slot. -/
def placed (s : SlotTable) : Finset Temp :=
  s.offsets.keys.toFinset

/-- The temporaries that have a slot are the keys of the table. -/
@[simp]
theorem mem_placed : t ∈ s.placed ↔ t ∈ s.offsets := by
  simp [placed]

/-- The table has one entry for each temporary that has a slot. -/
@[simp]
theorem card_placed (s : SlotTable) : s.placed.card = s.offsets.size := by
  have hnodup : s.offsets.keys.Nodup := by
    refine Std.ExtTreeMap.distinct_keys.imp ?_
    intro a b hne hab
    exact hne (hab ▸ Std.ReflCmp.compare_self)
  rw [placed, List.toFinset_card_of_nodup hnodup, Std.ExtTreeMap.length_keys]

/-- The table grows by those that had no slot. -/
theorem Places.size_offsets (h : Places localsSize ts s s') :
    s'.offsets.size = s.offsets.size + (ts.toFinset \ s.placed).card := by
  have hunion : s'.placed = s.placed ∪ (ts.toFinset \ s.placed) := by
    ext t
    simp [h.mem_offsets]
  rw [← card_placed, ← card_placed, hunion,
    Finset.card_union_of_disjoint Finset.disjoint_sdiff]

/-! ### Where the slots are -/

/-- The slots lie one below the other without a gap, and the table counts their bytes. -/
structure Filled (localsSize : Int) (s : SlotTable) : Prop extends Laid localsSize s where
  bytes : s.size = slotSize * s.offsets.size
  taken : ∀ j : Nat, 1 ≤ j → j ≤ s.offsets.size →
    ∃ t : Temp, s.offsets[t]? = some (localsSize + savedArea + slotSize * j)

/-- A table without slots has no gaps. -/
theorem filled_empty (localsSize : Int) : empty.Filled localsSize where
  toLaid := laid_empty localsSize
  bytes := rfl
  taken := by
    intro j hpos hle
    have hzero : empty.offsets.size = 0 := rfl
    omega

/-- A new slot lies right below the others. -/
theorem Filled.slotOf (hfilled : s.Filled localsSize)
    (h : s.slotOf localsSize t = .ok (offset, s')) : s'.Filled localsSize := by
  have hlaid := laid_slotOf hfilled.toLaid h
  have hextends := extends_slotOf h
  have hoffset := getElem?_slotOf h
  rcases slotOf_cases h with ⟨-, rfl⟩ | ⟨hnone, hplace, -, rfl⟩
  · exact hfilled
  · have hnew : s.offsets.contains t = false := by
      rw [← Bool.not_eq_true, ← Std.ExtTreeMap.mem_iff_contains,
        Std.ExtTreeMap.mem_iff_isSome_getElem?, hnone]
      simp
    have hsize : (s.offsets.insert t offset).size = s.offsets.size + 1 := by
      rw [Std.ExtTreeMap.size_insert, hnew, if_neg Bool.false_ne_true]
    have hbytes := hfilled.bytes
    refine ⟨hlaid, ?_, fun j hpos hle => ?_⟩
    · show s.size + slotSize = slotSize * (s.offsets.insert t offset).size
      rw [hsize, hbytes]
      simp only [slotSize]
      omega
    · replace hle : j ≤ s.offsets.size + 1 := hsize ▸ hle
      -- The last slot is the new one, and the others are where they were.
      by_cases hlast : j = s.offsets.size + 1
      · refine ⟨t, hoffset.trans (congrArg some ?_)⟩
        simp only [slotSize] at hplace hbytes ⊢
        omega
      · obtain ⟨u, hu⟩ := hfilled.taken j hpos (by omega)
        exact ⟨u, hextends hu⟩

/-- Slots that are asked for leave no gaps. -/
theorem Places.filled (h : Places localsSize ts s s') (hfilled : s.Filled localsSize) :
    s'.Filled localsSize := by
  induction h with
  | nil s => exact hfilled
  | cons slot _ ih => exact ih (hfilled.slotOf slot)

/-- The offsets of the slots are known from their number. -/
theorem Filled.exists_offset_iff (h : s.Filled localsSize) :
    (∃ t : Temp, s.offsets[t]? = some offset) ↔
      ∃ j : Nat, 1 ≤ j ∧ j ≤ s.offsets.size ∧ offset = localsSize + savedArea + slotSize * j := by
  constructor
  · rintro ⟨t, ht⟩
    obtain ⟨-, n, hoffset, hle⟩ := h.offset ht
    have hbytes := h.bytes
    simp only [slotSize] at hle hbytes
    exact ⟨n + 1, by omega, by omega, hoffset⟩
  · rintro ⟨j, hpos, hle, rfl⟩
    exact h.taken j hpos hle

/-- A slot is refused only to a temporary without one whose offset would be out of range. -/
theorem slotOf_eq_error {e : Failure} (h : s.slotOf localsSize t = .error e) :
    e = .slotOffsetTooLarge ∧ t ∉ s.offsets ∧
      maxOffset < localsSize + savedArea + (s.size + slotSize) := by
  unfold slotOf at h
  split at h
  · cases h
  · next hnone =>
      dsimp only at h
      split at h
      · cases h
      · next hlarge =>
          cases h
          refine ⟨rfl, ?_, by omega⟩
          rw [Std.ExtTreeMap.mem_iff_isSome_getElem?, hnone]
          simp

/-- If the slots of a list cannot be had, then one of them would be out of range. -/
theorem Overflows.lt (h : Overflows localsSize ts s) (hfilled : s.Filled localsSize) :
    maxOffset < localsSize + savedArea +
      slotSize * ((s.offsets.size + (ts.toFinset \ s.placed).card : Nat) : Int) := by
  induction h with
  | @here t ts s e fails =>
      obtain ⟨-, hnot, hlarge⟩ := slotOf_eq_error fails
      have hbytes := hfilled.bytes
      have hmem : t ∈ (t :: ts).toFinset \ s.placed := by simp [hnot]
      have hpos := Finset.card_pos.mpr ⟨t, hmem⟩
      simp only [slotSize] at hlarge hbytes ⊢
      omega
  | @later t ts offset s mid slot _ ih =>
      have hlarge := ih (hfilled.slotOf slot)
      -- What the rest of the list adds, the whole list adds as well.
      have hone : Places localsSize [t] s mid := .cons slot (.nil mid)
      have hsub : mid.placed ∪ (ts.toFinset \ mid.placed) ⊆
          s.placed ∪ ((t :: ts).toFinset \ s.placed) := by
        intro u hu
        simp only [Finset.mem_union, Finset.mem_sdiff, mem_placed, List.mem_toFinset,
          hone.mem_offsets, List.mem_cons] at hu ⊢
        tauto
      have hcard := Finset.card_le_card hsub
      rw [Finset.card_union_of_disjoint Finset.disjoint_sdiff, card_placed,
        Finset.card_union_of_disjoint Finset.disjoint_sdiff, card_placed] at hcard
      simp only [slotSize] at hlarge ⊢
      omega

end SlotTable

namespace Spill

variable {α β : Type} {frame : Frame} {cost cost' : Nat} {ts us : List Temp}

/-! ### What steps ask for -/

/-- A step asks for the slots of a list of temporaries and changes the table in no other way.
It draws at most `cost` temporaries. -/
structure Takes (frame : Frame) (cost : Nat) (ts : List Temp) (x : Step α) : Prop where
  places : ∀ ⦃st : State⦄ ⦃a : α⦄ ⦃st' : State⦄, x st = .ok (a, st') →
    st.slots.Places frame.localsSize ts st'.slots ∧ st'.supply.next ≤ st.supply.next + cost
  fails : ∀ ⦃st : State⦄ ⦃e : Failure⦄, x st = .error e →
    (e = .temporariesExhausted ∧ Supply.limit < st.supply.next + cost) ∨
      (e = .slotOffsetTooLarge ∧ st.slots.Overflows frame.localsSize ts)

/-- A result by itself asks for nothing. -/
theorem takes_pure (frame : Frame) (a : α) : Takes frame 0 [] (pure a : Step α) where
  places := by
    intro st b st' h
    obtain ⟨-, rfl⟩ := pure_eq_ok.mp h
    exact ⟨.nil _, Nat.le_refl _⟩
  fails := by
    intro st e h
    cases h

/-- Two steps ask for their slots one after the other. -/
theorem Takes.bind {x : Step α} {f : α → Step β} (hx : Takes frame cost ts x)
    (hf : ∀ a, Takes frame cost' us (f a)) : Takes frame (cost + cost') (ts ++ us) (x >>= f) where
  places := by
    intro st b st' h
    obtain ⟨a, mid, ha, h⟩ := bind_eq_ok.mp h
    obtain ⟨hplaces, hnext⟩ := hx.places ha
    obtain ⟨hplaces', hnext'⟩ := (hf a).places h
    exact ⟨hplaces.append hplaces', by omega⟩
  fails := by
    intro st e h
    replace h : Except.bind (x st) (fun p => f p.1 p.2) = .error e := h
    cases hst : x st with
    | error e' =>
        rw [hst] at h
        cases h
        rcases hx.fails hst with ⟨he, hlimit⟩ | ⟨he, hover⟩
        · exact .inl ⟨he, by omega⟩
        · exact .inr ⟨he, hover.append_right us⟩
    -- The second step fails at what the first one left, so both count.
    | ok p =>
        rw [hst] at h
        obtain ⟨hplaces, hnext⟩ := hx.places hst
        rcases (hf p.1).fails h with ⟨he, hlimit⟩ | ⟨he, hover⟩
        · exact .inl ⟨he, by omega⟩
        · exact .inr ⟨he, hplaces.overflows hover⟩

/-- Fewer temporaries may be drawn than are allowed for. -/
theorem Takes.mono {x : Step α} (h : Takes frame cost ts x) (hle : cost ≤ cost') :
    Takes frame cost' ts x where
  places := by
    intro st a st' hst
    obtain ⟨hplaces, hnext⟩ := h.places hst
    exact ⟨hplaces, by omega⟩
  fails := by
    intro st e hst
    refine (h.fails hst).imp_left fun hlimit => ⟨hlimit.1, ?_⟩
    have hlt := hlimit.2
    omega

/-- A fresh temporary asks for no slot. -/
theorem takes_fresh (frame : Frame) : Takes frame 1 [] fresh where
  places := by
    intro st t st' h
    obtain ⟨-, -, rfl⟩ := fresh_eq_ok.mp h
    exact ⟨.nil _, Nat.le_refl _⟩
  fails := by
    intro st e h
    rw [fresh, Supply.fresh?] at h
    split at h
    · cases h
    · next hnone =>
        cases h
        refine .inl ⟨rfl, ?_⟩
        simp only [ite_eq_right_iff, reduceCtorEq, imp_false] at hnone
        omega

/-- The slot of a temporary is asked for. -/
theorem takes_slot (frame : Frame) (t : Temp) : Takes frame 0 [t] (slot frame t) where
  places := by
    intro st offset st' h
    obtain ⟨slots, hslot, rfl⟩ := slot_eq_ok.mp h
    exact ⟨.cons hslot (.nil slots), Nat.le_refl _⟩
  fails := by
    intro st e h
    rw [slot] at h
    cases hslot : st.slots.slotOf frame.localsSize t with
    | error e' =>
        rw [hslot] at h
        cases h
        exact .inr ⟨(SlotTable.slotOf_eq_error hslot).1, .here hslot⟩
    | ok p =>
        rw [hslot] at h
        cases h

/-- Shielding a temporary asks for nothing. -/
theorem takes_shield (frame : Frame) (t : Temp) : Takes frame 0 [] (shield t) where
  places := by
    intro st a st' h
    cases h
    exact ⟨.nil _, Nat.le_refl _⟩
  fails := by
    intro st e h
    cases h

/-- An address asks for the slot and draws one temporary. -/
theorem takes_slotAddress (frame : Frame) (t : Temp) : Takes frame 1 [t] (slotAddress frame t) :=
  (takes_slot frame t).bind fun _ => (takes_fresh frame).bind fun _ => takes_pure frame _

/-- A load asks for its slot. -/
theorem takes_reload (frame : Frame) (t dst : Temp) : Takes frame 1 [t] (reload frame t dst) :=
  (takes_slotAddress frame t).bind fun _ => takes_pure frame _

/-- A store asks for its slot. -/
theorem takes_save (frame : Frame) (t src : Temp) : Takes frame 1 [t] (save frame t src) :=
  (takes_slotAddress frame t).bind fun _ => takes_pure frame _

/-- Replacements are drawn, and no slots are asked for. -/
theorem takes_replacements (frame : Frame) (ts : List Temp) :
    Takes frame ts.length [] (replacements ts) := by
  induction ts with
  | nil => exact takes_pure frame _
  | cons t ts ih =>
      have hcons := (takes_fresh frame).bind fun new => ih.bind fun pairs =>
        takes_pure frame ((t, new) :: pairs)
      exact hcons.mono (by simp; omega)

/-- Several loads ask for their slots in order. -/
theorem takes_reloadAll (frame : Frame) (pairs : List (Temp × Temp)) (ts : List Temp) :
    Takes frame ts.length ts (reloadAll frame pairs ts) := by
  induction ts with
  | nil => exact takes_pure frame _
  | cons t ts ih =>
      have hcons := (takes_reload frame t (replacement pairs t)).bind fun is => ih.bind fun js =>
        takes_pure frame (is ++ js)
      rw [List.append_nil] at hcons
      exact hcons.mono (by simp; omega)

/-- Several stores ask for their slots in order. -/
theorem takes_saveAll (frame : Frame) (pairs : List (Temp × Temp)) (ts : List Temp) :
    Takes frame ts.length ts (saveAll frame pairs ts) := by
  induction ts with
  | nil => exact takes_pure frame _
  | cons t ts ih =>
      have hcons := (takes_save frame t (replacement pairs t)).bind fun is => ih.bind fun js =>
        takes_pure frame (is ++ js)
      rw [List.append_nil] at hcons
      exact hcons.mono (by simp; omega)

/-- Reserving asks for slots in order and draws nothing. -/
theorem takes_reserve (frame : Frame) (ts : List Temp) : Takes frame 0 ts (reserve frame ts) := by
  induction ts with
  | nil => exact takes_pure frame _
  | cons t ts ih => exact (takes_slot frame t).bind fun _ => ih

/-- Loading the return value asks for its slot. -/
theorem takes_reloadResult (frame : Frame) : Takes frame 1 [frame.rv] (reloadResult frame) :=
  (takes_reload frame _ _).bind fun _ => (takes_shield frame _).bind fun _ => takes_pure frame _

/-- The slots that are asked for in the block of an instruction, in order. -/
def slotted (frame : Frame) (spilled : TempSet) (leaving : Bool) (i : Instr) : List Temp :=
  spilledOf spilled i.uses ++ (spilledOf spilled i.defs ++
    (kept frame leaving ++ spilledOf spilled i.defs))

/-- The block of an instruction asks for the slots of what is read, of what is written and of a
return value. -/
theorem takes_block (frame : Frame) (spilled : TempSet) (leaving : Bool) (i : Instr) :
    Takes frame (4 * i.operands.length + 2) (slotted frame spilled leaving i)
      (block frame spilled leaving i) := by
  have hresult : Takes frame 1 (kept frame leaving)
      (if leaving then reloadResult frame else pure []) := by
    cases leaving with
    | true => exact takes_reloadResult frame
    | false => exact (takes_pure frame _).mono (Nat.zero_le 1)
  rw [block_eq]
  have hblock := (takes_replacements frame (spilledOf spilled i.operands)).bind fun pairs =>
    (takes_reloadAll frame pairs (spilledOf spilled i.uses)).bind fun loads =>
      (takes_reserve frame (spilledOf spilled i.defs)).bind fun _ => hresult.bind fun result =>
        (takes_saveAll frame pairs (spilledOf spilled i.defs)).bind fun stores =>
          takes_pure frame (⟨loads, result, i.rename (replacement pairs), stores⟩ : Block)
  rw [List.append_nil] at hblock
  refine hblock.mono ?_
  -- A replacement for each operand, an address for each load and store, and one for the result.
  have huses := length_spilledOf_le spilled i.uses
  have hdefs := length_spilledOf_le spilled i.defs
  have hoperands := length_spilledOf_le spilled i.operands
  have hlength : i.operands.length = i.uses.length + i.defs.length := List.length_append
  omega

/-- A round asks for the slots of all blocks in order. -/
theorem takes_blocks (spilled : TempSet) (r : Routine) (is : List Instr) :
    Takes r.frame (demand is) (is.flatMap fun i => slotted r.frame spilled (leaves spilled r i) i)
      (blocks spilled r is) := by
  induction is with
  | nil => exact takes_pure r.frame _
  | cons i is ih =>
      have hcons := (takes_block r.frame spilled (leaves spilled r i) i).bind fun b =>
        ih.bind fun bs => takes_pure r.frame (b :: bs)
      rw [List.append_nil] at hcons
      refine hcons.mono ?_
      rw [demand, demand, List.flatMap_cons, List.length_append, List.length_cons]
      omega

/-- In a round those spilled temporaries that are operands are asked for. A return value that is
loaded is among them, since some instruction writes it. -/
theorem mem_slotted {spilled : TempSet} {r : Routine} {t : Temp} :
    (t ∈ r.instrs.flatMap fun i => slotted r.frame spilled (leaves spilled r i) i) ↔
      t ∈ spilled ∧ ∃ i ∈ r.instrs, t ∈ i.operands := by
  rw [List.mem_flatMap]
  constructor
  · rintro ⟨i, hi, ht⟩
    simp only [slotted, List.mem_append, mem_spilledOf] at ht
    rcases ht with ⟨huse, hspilled⟩ | ⟨hdef, hspilled⟩ | hkept | ⟨hdef, hspilled⟩
    · exact ⟨hspilled, i, hi, List.mem_append_left _ huse⟩
    · exact ⟨hspilled, i, hi, List.mem_append_right _ hdef⟩
    -- The return value is kept at an exit only if some instruction writes it.
    · rw [kept] at hkept
      split at hkept
      · next hleaves =>
          obtain ⟨⟨hspilled, hdefines⟩, -⟩ := leaves_eq_true.mp hleaves
          obtain ⟨j, hj, hdef⟩ := List.any_eq_true.mp hdefines
          cases List.mem_singleton.mp hkept
          exact ⟨hspilled, j, hj, List.mem_append_right _ (List.contains_iff_mem.mp hdef)⟩
      · cases hkept
    · exact ⟨hspilled, i, hi, List.mem_append_right _ hdef⟩
  · rintro ⟨hspilled, i, hi, ht⟩
    refine ⟨i, hi, ?_⟩
    simp only [slotted, List.mem_append, mem_spilledOf]
    rcases List.mem_append.mp ht with huse | hdef
    · exact .inl ⟨huse, hspilled⟩
    · exact .inr (.inl ⟨hdef, hspilled⟩)

end Spill

/-! ### Rounds -/

namespace Routine

open Spill

variable {r : Routine} {spilled shielded : TempSet} {supply : Supply}

/-- The spilled temporaries that are operands of a routine and have no slot in it yet. -/
def unplaced (r : Routine) (spilled : TempSet) : TempSet :=
  spilled.filter fun t =>
    r.instrs.any (fun i => i.operands.contains t) && !r.slots.offsets.contains t

/-- What a routine needs slots for are the spilled operands that have none. -/
theorem mem_unplaced {t : Temp} : t ∈ r.unplaced spilled ↔
    t ∈ spilled ∧ (∃ i ∈ r.instrs, t ∈ i.operands) ∧ t ∉ r.slots.offsets := by
  have hslot : r.slots.offsets.contains t = false ↔ t ∉ r.slots.offsets := by
    rw [← Bool.not_eq_true, ← Std.ExtTreeMap.mem_iff_contains]
  rw [← hslot]
  simp [unplaced, Std.ExtTreeSet.mem_filter, and_left_comm]

/-- The slots that are asked for and not there yet are those of the spilled operands without
one. A return value that is loaded is written somewhere, so it is among them. -/
theorem card_slotted_sdiff_placed (r : Routine) (spilled : TempSet) :
    ((r.instrs.flatMap fun i => slotted r.frame spilled (leaves spilled r i) i).toFinset \
      r.slots.placed).card = (r.unplaced spilled).size := by
  rw [← TempSet.card_toFinset]
  congr 1
  ext t
  rw [Finset.mem_sdiff, List.mem_toFinset, mem_slotted, SlotTable.mem_placed, TempSet.mem_toFinset,
    mem_unplaced, and_assoc]

/-- The number of slots that is reported is that of the new entries. -/
theorem added_of_spill {result : SpilledRoutine}
    (h : (r.spill spilled supply shielded).outcome = .ok result) :
    result.added = result.routine.slots.offsets.size - r.slots.offsets.size := by
  rw [spill] at h
  split at h
  · rw [Logged.outcome_bind, Logged.outcome_ofExcept, StateT.run] at h
    cases hblocks : blocks spilled r r.instrs ⟨supply, shielded, r.slots⟩ with
    | error e =>
        rw [hblocks] at h
        cases h
    | ok p =>
        rw [hblocks] at h
        cases h
        rfl
  · cases h
    exact (Nat.sub_self _).symm

/-- If a round fails, its blocks do. -/
theorem blocks_of_spill_eq_error {e : Failure}
    (h : (r.spill spilled supply shielded).outcome = .error e) :
    blocks spilled r r.instrs ⟨supply, shielded, r.slots⟩ = .error e := by
  rw [spill] at h
  split at h
  · rw [Logged.outcome_bind, Logged.outcome_ofExcept, StateT.run] at h
    cases hblocks : blocks spilled r r.instrs ⟨supply, shielded, r.slots⟩ with
    | error e' =>
        rw [hblocks] at h
        cases h
        rfl
    | ok p =>
        rw [hblocks] at h
        cases h
  · cases h

/-- A round asks for the slots of the spilled temporaries that are operands. It draws no more
temporaries than its instructions may take. -/
theorem places_of_spill {result : SpilledRoutine}
    (h : (r.spill spilled supply shielded).outcome = .ok result) :
    result.routine.frame = r.frame ∧
      r.slots.Places r.frame.localsSize
        (r.instrs.flatMap fun i => slotted r.frame spilled (leaves spilled r i) i)
        result.routine.slots ∧
      result.supply.next ≤ supply.next + demand r.instrs := by
  rcases r.spill_blocks spilled supply shielded with ⟨e, he, -⟩ | ⟨result', bs, st, hok, hblocks,
    hroutine, hsupply, -⟩
  · rw [he] at h
    cases h
  · rw [hok] at h
    cases h
    rw [hroutine, hsupply]
    exact ⟨rfl, (takes_blocks spilled r r.instrs).places hblocks⟩

/-- A round that succeeds adds a slot for each spilled operand without one. If it fails, then
there are not enough temporaries, or the slots that it has to add do not fit. -/
theorem spill_counts (hfilled : r.slots.Filled r.frame.localsSize) (spilled shielded : TempSet)
    (supply : Supply) :
    (∃ result, (r.spill spilled supply shielded).outcome = .ok result ∧
      result.added = (r.unplaced spilled).size) ∨
    ((r.spill spilled supply shielded).outcome = .error .temporariesExhausted ∧
      Supply.limit < supply.next + demand r.instrs) ∨
    ((r.spill spilled supply shielded).outcome = .error .slotOffsetTooLarge ∧
      SlotTable.maxOffset < r.frame.localsSize + SlotTable.savedArea +
        SlotTable.slotSize * ((r.slots.offsets.size + (r.unplaced spilled).size : Nat) : Int)) := by
  cases hspill : (r.spill spilled supply shielded).outcome with
  | ok result =>
      refine .inl ⟨result, rfl, ?_⟩
      rw [added_of_spill hspill, (places_of_spill hspill).2.1.size_offsets,
        card_slotted_sdiff_placed, Nat.add_sub_cancel_left]
  | error e =>
      right
      rcases (takes_blocks spilled r r.instrs).fails (blocks_of_spill_eq_error hspill) with
        ⟨rfl, hlimit⟩ | ⟨rfl, hover⟩
      · exact .inl ⟨rfl, hlimit⟩
      · have hlarge := hover.lt hfilled
        rw [card_slotted_sdiff_placed] at hlarge
        exact .inr ⟨rfl, hlarge⟩

end Routine

/-- What a caller of spilling brings along: what to spill, where fresh temporaries come from, and
what is shielded. -/
structure Spill.Call where
  spilled : TempSet
  supply : Supply
  shielded : TempSet

namespace Routine

open Spill

/-- One round of spilling. -/
def answer (r : Routine) (call : Call) : Except Failure SpilledRoutine :=
  (r.spill call.spilled call.supply call.shielded).outcome

/-- Rounds of spilling from a routine, one after the other. A round that fails is the last. -/
def respill (r : Routine) : List Call → Except Failure Routine
  | [] => .ok r
  | call :: calls =>
      match r.answer call with
      | .ok result => result.routine.respill calls
      | .error e => .error e

/-- What any number of rounds leaves as it is. -/
theorem filled_of_respill {r last : Routine} {calls : List Call}
    (h : r.respill calls = .ok last) (hfilled : r.slots.Filled r.frame.localsSize) :
    last.frame = r.frame ∧ last.slots.Filled r.frame.localsSize ∧ r.slots.Extends last.slots := by
  induction calls generalizing r with
  | nil =>
      cases h
      exact ⟨rfl, hfilled, fun _ _ ht => ht⟩
  | cons call calls ih =>
      rw [respill] at h
      split at h
      · next result hresult =>
          obtain ⟨hframe, hplaces, -⟩ := places_of_spill hresult
          -- The frame stays the same, so the next round counts from the same place.
          obtain ⟨hlast, hfilled', hextends⟩ := ih h (hframe ▸ hplaces.filled hfilled)
          rw [hframe] at hlast hfilled'
          exact ⟨hlast, hfilled', hplaces.extends.trans hextends⟩
      · cases h

/-- The slots of a routine that started without any, after some rounds of spilling. They take
eight bytes each and lie one below the other, from sixteen bytes below the locals on, and later
rounds leave them where they are. Another round adds a slot for each spilled temporary that is an
operand and has none, and says how many these are. It fails only if it runs out of temporaries, or
if the last of these slots would be out of range. -/
theorem respill_slots (frame : Frame) (entry exit : Label) (instrs : List Instr)
    (calls : List Call) (r : Routine)
    (h : (⟨frame, entry, exit, instrs, .empty⟩ : Routine).respill calls = .ok r) :
    r.slots.size = 8 * r.slots.offsets.size ∧
    (∀ (t u : Temp) (offset : Int), r.slots.offsets[t]? = some offset →
      r.slots.offsets[u]? = some offset → t = u) ∧
    (∀ offset, (∃ t : Temp, r.slots.offsets[t]? = some offset) ↔
      ∃ j : Nat, 1 ≤ j ∧ j ≤ r.slots.offsets.size ∧ offset = frame.localsSize + 16 + 8 * j) ∧
    (∀ later last, r.respill later = .ok last → ∀ (t : Temp) (offset : Int),
      r.slots.offsets[t]? = some offset → last.slots.offsets[t]? = some offset) ∧
    ∀ call,
      (∃ result, r.answer call = .ok result ∧ result.added = (r.unplaced call.spilled).size) ∨
      (r.answer call = .error .temporariesExhausted ∧
        Supply.limit < call.supply.next + demand r.instrs) ∨
      (r.answer call = .error .slotOffsetTooLarge ∧
        Int64.maxValue.toInt < frame.localsSize + 16 +
          8 * ((r.slots.offsets.size + (r.unplaced call.spilled).size : Nat) : Int)) := by
  obtain ⟨hframe, hfilled, -⟩ := filled_of_respill h (SlotTable.filled_empty frame.localsSize)
  replace hframe : r.frame = frame := hframe
  replace hfilled : r.slots.Filled frame.localsSize := hfilled
  subst hframe
  refine ⟨hfilled.bytes, ?_, ?_, ?_, ?_⟩
  · exact fun t u offset ht hu => hfilled.injective ht hu
  · exact fun offset => hfilled.exists_offset_iff
  · exact fun later last hlater t offset ht => (filled_of_respill hlater hfilled).2.2 ht
  · exact fun call => spill_counts hfilled call.spilled call.shielded call.supply

/-- The return value and what the loop adds are spilled, and in another round the sum. The return
value is spilled again, since it is still loaded at the exit, but then it has its slot. -/
theorem accumulate_respill_slots :
    let first : Call := ⟨TempSet.ofList [⟨1⟩, ⟨3⟩], ⟨4⟩, ∅⟩
    let second : Call := ⟨TempSet.ofList [⟨1⟩, ⟨2⟩], ⟨100⟩, ∅⟩
    ∃ r result, accumulate.respill [first] = .ok r ∧ r.slots.size = 8 * r.slots.offsets.size ∧
      r.slots.offsets.size = 2 ∧ r.answer second = .ok result ∧ result.added = 1 := by
  intro first second
  have hcounts : (accumulate.respill [first]).toOption.map (fun r =>
      (r.slots.offsets.size, (r.unplaced second.spilled).size, (r.answer second).isOk)) =
        some (2, 1, true) := by decide +kernel
  cases hr : accumulate.respill [first] with
  | error e =>
      rw [hr] at hcounts
      cases hcounts
  | ok r =>
      rw [hr] at hcounts
      obtain ⟨hsize, hrest⟩ := Prod.mk.inj (Option.some.inj hcounts)
      obtain ⟨hunplaced, hok⟩ := Prod.mk.inj hrest
      obtain ⟨hbytes, -, -, -, hanswer⟩ := respill_slots accumulate.frame accumulate.entry
        accumulate.exit accumulate.instrs [first] r hr
      rcases hanswer second with ⟨result, hresult, hadded⟩ | ⟨hfails, -⟩ | ⟨hfails, -⟩
      · exact ⟨r, result, rfl, hbytes, hsize, hresult, hadded.trans hunplaced⟩
      · rw [hfails] at hok
        cases hok
      · rw [hfails] at hok
        cases hok

end Routine

/-! ### Rounds over programs -/

namespace Program

open Spill

/-- Why a round of spilling fails: there are fewer temporaries left than its instructions may
take, or the last slot that some routine needs would be out of range. -/
def LacksRoom (p : Program) (spilled : TempSet) (e : Failure) : Prop :=
  (e = .temporariesExhausted ∧
      Supply.limit < p.supply.next + demand (p.routines.flatMap Routine.instrs)) ∨
    (e = .slotOffsetTooLarge ∧ ∃ r ∈ p.routines,
      Int64.maxValue.toInt < r.frame.localsSize + 16 +
        8 * ((r.slots.offsets.size + (r.unplaced spilled).size : Nat) : Int))

/-- What lacks room is exhausted. -/
theorem LacksRoom.exhausted {p : Program} {spilled : TempSet} {e : Failure}
    (h : p.LacksRoom spilled e) : e.Exhausted :=
  h.imp And.left And.left

/-- What routines may take adds up. -/
theorem demand_cons (r : Routine) (rs : List Routine) :
    demand ((r :: rs).flatMap Routine.instrs) =
      demand r.instrs + demand (rs.flatMap Routine.instrs) := by
  simp only [demand, List.flatMap_cons, List.flatMap_append, List.length_append]
  omega

/-- Routines in front of others make room scarcer. -/
theorem LacksRoom.cons {r : Routine} {rs : List Routine} {supply mid : Supply} {spilled : TempSet}
    {e : Failure} (h : LacksRoom ⟨rs, mid⟩ spilled e)
    (hle : mid.next ≤ supply.next + demand r.instrs) : LacksRoom ⟨r :: rs, supply⟩ spilled e := by
  obtain ⟨he, hlimit⟩ | ⟨he, r', hr', hlarge⟩ := h
  · refine .inl ⟨he, ?_⟩
    dsimp only at hlimit ⊢
    rw [demand_cons]
    omega
  · exact .inr ⟨he, r', List.mem_cons_of_mem _ hr', hlarge⟩

/-- The slots of all routines lie one below the other. -/
def Filled (rs : List Routine) : Prop :=
  ∀ r ∈ rs, r.slots.Filled r.frame.localsSize

/-- A round leaves slots that lie one below the other, or it lacks room. -/
theorem spillRoutines_cases {rs : List Routine} (hfilled : Filled rs) (spilled : TempSet)
    (supply : Supply) (shielded : TempSet) :
    (∃ next, (spillRoutines spilled supply shielded rs).outcome = .ok next ∧
      Filled next.program.routines) ∨
    ∃ e, (spillRoutines spilled supply shielded rs).outcome = .error e ∧
      LacksRoom ⟨rs, supply⟩ spilled e := by
  induction rs generalizing supply shielded with
  | nil => exact .inl ⟨_, rfl, List.forall_mem_nil _⟩
  | cons r rs ih =>
      rw [Filled, List.forall_mem_cons] at hfilled
      rw [spillRoutines, Logged.outcome_bind]
      rcases r.spill_counts hfilled.1 spilled shielded supply with
        ⟨first, hfirst, -⟩ | ⟨hfails, hlimit⟩ | ⟨hfails, hlarge⟩
      · obtain ⟨hframe, hplaces, hsupply⟩ := Routine.places_of_spill hfirst
        rw [hfirst]
        show (∃ next, Logged.outcome (_ >>= _) = .ok next ∧ _) ∨
          ∃ e, Logged.outcome (_ >>= _) = .error e ∧ _
        rw [Logged.outcome_bind]
        rcases ih hfilled.2 first.supply first.shielded with ⟨rest, hrest, hothers⟩ |
          ⟨e, he, hlacks⟩
        · rw [hrest]
          refine .inl ⟨_, rfl, List.forall_mem_cons.mpr ⟨?_, hothers⟩⟩
          rw [hframe]
          exact hplaces.filled hfilled.1
        · rw [he]
          exact .inr ⟨e, rfl, hlacks.cons hsupply⟩
      · rw [hfails]
        refine .inr ⟨_, rfl, .inl ⟨rfl, ?_⟩⟩
        dsimp only
        rw [demand_cons]
        omega
      · rw [hfails]
        exact .inr ⟨_, rfl, .inr ⟨rfl, r, List.mem_cons_self, hlarge⟩⟩

/-- Spilling from a program fails only if it lacks room. -/
theorem lacksRoom_of_spill {p : Program} (hfilled : Filled p.routines) {spilled shielded : TempSet}
    {e : Failure} (h : (p.spill spilled shielded).outcome = .error e) : p.LacksRoom spilled e := by
  rcases spillRoutines_cases hfilled spilled p.supply shielded with ⟨next, hnext, -⟩ |
    ⟨e', he, hlacks⟩
  · rw [spill, hnext] at h
    cases h
  · rw [spill, he] at h
    cases h
    exact hlacks

/-- Spilling from a program leaves slots that lie one below the other. -/
theorem filled_of_spill {p : Program} (hfilled : Filled p.routines) {spilled shielded : TempSet}
    {next : SpilledProgram} (h : (p.spill spilled shielded).outcome = .ok next) :
    Filled next.program.routines := by
  rcases spillRoutines_cases hfilled spilled p.supply shielded with
    ⟨next', hnext, hnew⟩ | ⟨e, he, -⟩
  · rw [spill, hnext] at h
    cases h
    exact hnew
  · rw [spill, he] at h
    cases h

end Program

end MmixCodegen
