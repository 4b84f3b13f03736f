import MmixCodegen.Proofs.Mmix.Constant
import MmixCodegen.Proofs.Spill.Slots
import MmixCodegen.Proofs.TempSet
import MmixCodegen.Spill

/-!
# `MmixCodegen.Proofs.Spill.Cell`: what spilling makes of an instruction

An `Access` is a load from a slot or a store into it. What spilling makes of an
instruction is a `Cell`: some loads, the instruction over other operands, and some
stores. `Cell.Renders` says all about the cell of an instruction: which slots are
accessed, which temporaries take the place of which, and that all of those that are made
for it are different. `Advances` says what happens to the state of spilling meanwhile, and
`Affordable` how much room a step needs so as not to fail.

`block_renders` proves this of the code, from one lemma for each step of
`Spill.block`. `Rendered` joins the cells of the instructions of a routine, and
`Routine.spill_cases` is what spilling does to a routine: either there is no room for a
slot or no temporary left, or the code consists of cells. That includes routines that are
left alone, whose cells hold an instruction each.
-/

set_option autoImplicit false

namespace MmixCodegen

/-- There is no temporary left, or no room for a slot. -/
def Failure.Exhausted (e : Failure) : Prop :=
  e = .temporariesExhausted ∨ e = .slotOffsetTooLarge

/-! ### Instructions over other operands -/

namespace Instr

variable (i : Instr) (ρ : Temp → Temp)

/-- Other operands are read in the order of the old ones. -/
theorem uses_rename : (i.rename ρ).uses = i.uses.map ρ := by
  obtain ⟨kind, live⟩ := i
  cases kind <;> rfl

/-- Other operands are written in the order of the old ones. -/
theorem defs_rename : (i.rename ρ).defs = i.defs.map ρ := by
  obtain ⟨kind, live⟩ := i
  cases kind <;> rfl

/-- Other operands leave the template as it is. -/
theorem template_rename : (i.rename ρ).template = i.template := by
  obtain ⟨kind, live⟩ := i
  cases kind <;> rfl

/-- Other operands leave the jumps as they are. -/
theorem jumps_rename : (i.rename ρ).jumps = i.jumps := by
  obtain ⟨kind, live⟩ := i
  cases kind <;> rfl

/-- Other operands leave the label as it is. -/
theorem label?_rename : (i.rename ρ).label? = i.label? := by
  obtain ⟨kind, live⟩ := i
  cases kind <;> rfl

/-- Other operands leave the live sets as they are. -/
theorem live_rename : (i.rename ρ).live = i.live := by
  obtain ⟨kind, live⟩ := i
  cases kind <;> rfl

variable {i ρ}

/-- Nothing changes if no operand is replaced. -/
theorem rename_eq_self (h : ∀ t ∈ i.operands, ρ t = t) : i.rename ρ = i := by
  have hmap : ∀ ts : List Temp, (∀ t ∈ ts, t ∈ i.operands) → ts.map ρ = ts :=
    fun ts hts => (List.map_congr_left fun t ht => h t (hts t ht)).trans (List.map_id ts)
  obtain ⟨kind, live⟩ := i
  cases kind with
  | oper template uses defs jumps =>
      have huses := hmap uses fun t ht => List.mem_append_left _ ht
      have hdefs := hmap defs fun t ht => List.mem_append_right _ ht
      simp only [rename, huses, hdefs]
  | move template dst src =>
      have hdst := h dst (List.mem_cons_of_mem _ List.mem_cons_self)
      have hsrc := h src List.mem_cons_self
      simp only [rename, hdst, hsrc]
  | label l => rfl

end Instr

namespace Spill

/-! ### Steps that succeed -/

section Steps

variable {α β : Type} {st st' : State}

/-- A sequence succeeds just if both steps do, the second one from where the first one ends. -/
theorem bind_eq_ok {x : Step α} {f : α → Step β} {b : β} :
    (x >>= f) st = .ok (b, st') ↔ ∃ a mid, x st = .ok (a, mid) ∧ f a mid = .ok (b, st') := by
  show Except.bind (x st) (fun p => f p.1 p.2) = _ ↔ _
  cases x st with
  | error e => simp [Except.bind]
  | ok p => simp [Except.bind, Prod.ext_iff, and_assoc]

/-- A result by itself leaves the state alone. -/
theorem pure_eq_ok {a b : α} : (pure a : Step α) st = .ok (b, st') ↔ b = a ∧ st' = st := by
  show Except.ok (a, st) = _ ↔ _
  simp [eq_comm]

/-- A fresh temporary is the next one of the supply, and is shielded from then on. -/
theorem fresh_eq_ok {t : Temp} :
    fresh st = .ok (t, st') ↔ st.supply.next < Supply.limit ∧ t = ⟨st.supply.next⟩ ∧
      st' = ⟨⟨st.supply.next + 1⟩, st.shielded.insert ⟨st.supply.next⟩, st.slots⟩ := by
  rw [fresh, Supply.fresh?]
  by_cases h : st.supply.next < Supply.limit <;> simp [h, eq_comm]

/-- Asking for a slot changes the table of slots only. -/
theorem slot_eq_ok {frame : Frame} {t : Temp} {offset : Int} :
    slot frame t st = .ok (offset, st') ↔
      ∃ slots, st.slots.slotOf frame.localsSize t = .ok (offset, slots) ∧
        st' = { st with slots := slots } := by
  show Except.bind (st.slots.slotOf frame.localsSize t) _ = _ ↔ _
  cases st.slots.slotOf frame.localsSize t with
  | error e => simp [Except.bind]
  | ok p => simp [Except.bind, pure, Except.pure, eq_comm, and_assoc, Prod.ext_iff]

end Steps

/-! ### What steps cost -/

section Costs

variable {α β : Type} {frame : Frame} {cost cost' : Nat}

/-- There are `count` temporaries left, and there is room for `count` slots. -/
def Room (frame : Frame) (count : Nat) (st : State) : Prop :=
  st.supply.next + count ≤ Supply.limit ∧
    frame.localsSize + SlotTable.savedArea + st.slots.size + SlotTable.slotSize * count ≤
      SlotTable.maxOffset

/-- Where there is room for more, there is room for less. -/
theorem Room.mono {count count' : Nat} {st : State} (h : Room frame count st)
    (hle : count' ≤ count) : Room frame count' st := by
  obtain ⟨htemps, hslots⟩ := h
  rw [SlotTable.slotSize] at hslots
  refine ⟨by omega, ?_⟩
  rw [SlotTable.slotSize]
  omega

/-- A step fails for want of room only. If there is room for `cost` and more, then it does
not fail and leaves the rest of the room. -/
structure Affordable (frame : Frame) (cost : Nat) (x : Step α) : Prop where
  fails : ∀ ⦃st : State⦄ ⦃e : Failure⦄, x st = .error e → e.Exhausted
  succeeds : ∀ ⦃st : State⦄ (rest : Nat), Room frame (cost + rest) st →
    ∃ a st', x st = .ok (a, st') ∧ Room frame rest st'

/-- A step may need less than it is given. -/
theorem Affordable.mono {x : Step α} (h : Affordable frame cost x) (hle : cost ≤ cost') :
    Affordable frame cost' x :=
  ⟨h.fails, fun _ rest hroom => h.succeeds rest (hroom.mono (Nat.add_le_add_right hle rest))⟩

/-- Two steps need what each of them needs. -/
theorem Affordable.bind {x : Step α} {f : α → Step β} (hx : Affordable frame cost x)
    (hf : ∀ a, Affordable frame cost' (f a)) : Affordable frame (cost + cost') (x >>= f) := by
  refine ⟨fun st e h => ?_, fun st rest hroom => ?_⟩
  · replace h : Except.bind (x st) (fun p => f p.1 p.2) = .error e := h
    cases hst : x st with
    | error e' =>
        rw [hst] at h
        cases h
        exact hx.fails hst
    | ok p =>
        rw [hst] at h
        exact (hf p.1).fails h
  · rw [Nat.add_assoc] at hroom
    obtain ⟨a, mid, hok, hmid⟩ := hx.succeeds _ hroom
    obtain ⟨b, st', hok', hst'⟩ := (hf a).succeeds rest hmid
    exact ⟨b, st', bind_eq_ok.mpr ⟨a, mid, hok, hok'⟩, hst'⟩

/-- A result by itself needs nothing. -/
theorem affordable_pure (frame : Frame) (a : α) : Affordable frame 0 (pure a : Step α) :=
  ⟨(fun _ _ h => nomatch h), fun st _ hroom => ⟨a, st, rfl, hroom.mono (Nat.le_add_left _ _)⟩⟩

/-- A fresh temporary needs one from the supply. -/
theorem affordable_fresh (frame : Frame) : Affordable frame 1 fresh := by
  refine ⟨fun st e h => ?_, fun st rest hroom => ?_⟩
  · rw [fresh] at h
    split at h
    · cases h
    · cases h
      exact .inl rfl
  · obtain ⟨htemps, hslots⟩ := hroom.mono (Nat.le_add_left rest 1)
    obtain ⟨hleft, -⟩ := hroom
    refine ⟨_, _, fresh_eq_ok.mpr ⟨by omega, rfl, rfl⟩, ?_, hslots⟩
    show st.supply.next + 1 + rest ≤ Supply.limit
    omega

/-- A slot needs room for one. -/
theorem affordable_slot (frame : Frame) (t : Temp) : Affordable frame 1 (slot frame t) := by
  refine ⟨fun st e h => ?_, fun st rest hroom => ?_⟩
  · rw [slot, SlotTable.slotOf] at h
    dsimp only at h
    split at h
    · cases h
    · split at h
      · cases h
      · cases h
        exact .inr rfl
  · have hless := hroom.mono (Nat.le_add_left rest 1)
    obtain ⟨-, hfits⟩ := hroom
    rw [SlotTable.slotSize] at hfits
    -- A temporary that has a slot keeps it; a new slot takes the place reserved for it.
    cases hfound : st.slots.offsets[t]? with
    | some offset =>
        have hslot : st.slots.slotOf frame.localsSize t = .ok (offset, st.slots) := by
          rw [SlotTable.slotOf, hfound]
        exact ⟨offset, st, slot_eq_ok.mpr ⟨_, hslot, rfl⟩, hless⟩
    | none =>
        have hle : frame.localsSize + SlotTable.savedArea + (st.slots.size + SlotTable.slotSize) ≤
            SlotTable.maxOffset := by
          rw [SlotTable.slotSize]
          omega
        obtain ⟨offset, offsets, hslot⟩ : ∃ offset offsets, st.slots.slotOf frame.localsSize t =
            .ok (offset, ⟨st.slots.size + SlotTable.slotSize, offsets⟩) := by
          rw [SlotTable.slotOf, hfound]
          exact ⟨_, _, if_pos hle⟩
        refine ⟨offset, _, slot_eq_ok.mpr ⟨_, hslot, rfl⟩, hless.1, ?_⟩
        show frame.localsSize + SlotTable.savedArea + (st.slots.size + SlotTable.slotSize) +
          SlotTable.slotSize * rest ≤ SlotTable.maxOffset
        rw [SlotTable.slotSize]
        omega

/-- The address of a slot needs the slot and a temporary to hold it. -/
theorem affordable_slotAddress (frame : Frame) (t : Temp) :
    Affordable frame 2 (slotAddress frame t) :=
  (affordable_slot frame t).bind fun _ => (affordable_fresh frame).bind fun _ =>
    affordable_pure frame _

/-- A load needs what the address of its slot needs. -/
theorem affordable_reload (frame : Frame) (t dst : Temp) :
    Affordable frame 2 (reload frame t dst) :=
  (affordable_slotAddress frame t).bind fun _ => affordable_pure frame _

/-- A store needs what the address of its slot needs. -/
theorem affordable_save (frame : Frame) (t src : Temp) : Affordable frame 2 (save frame t src) :=
  (affordable_slotAddress frame t).bind fun _ => affordable_pure frame _

/-- Replacements need one temporary each. -/
theorem affordable_replacements (frame : Frame) (ts : List Temp) :
    Affordable frame ts.length (replacements ts) := by
  induction ts with
  | nil => exact affordable_pure frame _
  | cons t ts ih =>
      refine Affordable.mono ((affordable_fresh frame).bind fun _ => ih.bind fun _ =>
        affordable_pure frame _) ?_
      rw [List.length_cons]
      omega

/-- Several loads need what each of them needs. -/
theorem affordable_reloadAll (frame : Frame) (pairs : List (Temp × Temp)) (ts : List Temp) :
    Affordable frame (2 * ts.length) (reloadAll frame pairs ts) := by
  induction ts with
  | nil => exact affordable_pure frame _
  | cons t ts ih =>
      refine Affordable.mono ((affordable_reload frame t _).bind fun _ => ih.bind fun _ =>
        affordable_pure frame _) ?_
      rw [List.length_cons]
      omega

/-- Several stores need what each of them needs. -/
theorem affordable_saveAll (frame : Frame) (pairs : List (Temp × Temp)) (ts : List Temp) :
    Affordable frame (2 * ts.length) (saveAll frame pairs ts) := by
  induction ts with
  | nil => exact affordable_pure frame _
  | cons t ts ih =>
      refine Affordable.mono ((affordable_save frame t _).bind fun _ => ih.bind fun _ =>
        affordable_pure frame _) ?_
      rw [List.length_cons]
      omega

/-- Reserving slots needs room for each of them. -/
theorem affordable_reserve (frame : Frame) (ts : List Temp) :
    Affordable frame ts.length (reserve frame ts) := by
  induction ts with
  | nil => exact affordable_pure frame _
  | cons t ts ih =>
      refine Affordable.mono ((affordable_slot frame t).bind fun _ => ih) ?_
      rw [List.length_cons]
      omega

/-- Shielding a temporary needs nothing. -/
theorem affordable_shield (frame : Frame) (t : Temp) : Affordable frame 0 (shield t) :=
  ⟨(fun _ _ h => nomatch h), fun _ rest hroom => ⟨(), _, rfl, hroom.mono (Nat.le_add_left rest 0)⟩⟩

/-- Loading the return value needs what a load needs. -/
theorem affordable_reloadResult (frame : Frame) : Affordable frame 2 (reloadResult frame) :=
  (affordable_reload frame _ _).bind fun _ => (affordable_shield frame _).bind fun _ =>
    affordable_pure frame _

/-- The load of the return value is one step of several. -/
theorem block_eq (frame : Frame) (spilled : TempSet) (leaving : Bool) (i : Instr) :
    block frame spilled leaving i = (do
      let pairs ← replacements (spilledOf spilled i.operands)
      let loads ← reloadAll frame pairs (spilledOf spilled i.uses)
      reserve frame (spilledOf spilled i.defs)
      let result ← (if leaving then reloadResult frame else pure [] : Step (List Instr))
      let stores ← saveAll frame pairs (spilledOf spilled i.defs)
      return ⟨loads, result, i.rename (replacement pairs), stores⟩) := by
  cases leaving <;> rfl

/-- Erasing repetitions makes no list longer. -/
theorem length_eraseDups_le (ts : List Temp) : ts.eraseDups.length ≤ ts.length := by
  cases ts with
  | nil => exact Nat.le_refl _
  | cons t ts =>
      rw [List.eraseDups_cons, List.length_cons, List.length_cons]
      exact Nat.succ_le_succ (Nat.le_trans (length_eraseDups_le _) (List.length_filter_le _ _))
termination_by ts.length
decreasing_by exact Nat.lt_succ_of_le (List.length_filter_le _ _)

/-- No more temporaries of a list are spilled than there are in it. -/
theorem length_spilledOf_le (spilled : TempSet) (ts : List Temp) :
    (spilledOf spilled ts).length ≤ ts.length :=
  Nat.le_trans (length_eraseDups_le _) (List.length_filter_le _ _)

/-- A block needs room for the replacements, the loads and the stores of its operands, and for a
return value. -/
theorem affordable_block (frame : Frame) (spilled : TempSet) (leaving : Bool) (i : Instr) :
    Affordable frame (4 * i.operands.length + 2) (block frame spilled leaving i) := by
  have hresult : Affordable frame 2 (if leaving then reloadResult frame else pure []) := by
    cases leaving with
    | true => exact affordable_reloadResult frame
    | false => exact (affordable_pure frame _).mono (Nat.zero_le 2)
  rw [block_eq]
  refine Affordable.mono ((affordable_replacements frame _).bind fun pairs =>
    (affordable_reloadAll frame pairs _).bind fun _ => (affordable_reserve frame _).bind fun _ =>
      hresult.bind fun _ => (affordable_saveAll frame pairs _).bind fun _ =>
        affordable_pure frame _) ?_
  have huses := length_spilledOf_le spilled i.uses
  have hdefs := length_spilledOf_le spilled i.defs
  have hoperands := length_spilledOf_le spilled i.operands
  have hlength : i.operands.length = i.uses.length + i.defs.length := List.length_append
  omega

/-- What the blocks of some instructions take of the room at most. -/
def demand (is : List Instr) : Nat :=
  4 * (is.flatMap Instr.operands).length + 2 * is.length

/-- The blocks of a routine need what each of them needs. -/
theorem affordable_blocks (spilled : TempSet) (r : Routine) (is : List Instr) :
    Affordable r.frame (demand is) (blocks spilled r is) := by
  induction is with
  | nil => exact affordable_pure r.frame _
  | cons i is ih =>
      refine Affordable.mono ((affordable_block _ _ _ _).bind fun _ => ih.bind fun _ =>
        affordable_pure r.frame _) ?_
      rw [demand, demand, List.flatMap_cons, List.length_append, List.length_cons]
      omega

end Costs

/-! ### What happens to the state -/

/-- The state of spilling goes on from one instruction to the next: numbers are handed
out, and what is made is shielded, together with `others`. -/
structure Advances (frame : Frame) (others : List Temp) (st st' : State) : Prop where
  supply : st.supply.next ≤ st'.supply.next
  shielded : ∀ t, t ∈ st'.shielded ↔ t ∈ st.shielded ∨
    (st.supply.next ≤ t.number ∧ t.number < st'.supply.next) ∨ t ∈ others
  slots : st.slots.Extends st'.slots
  laid : st.slots.Laid frame.localsSize → st'.slots.Laid frame.localsSize

namespace Advances

variable {frame : Frame} {others others' : List Temp} {st mid st' : State}

/-- Nothing happens if nothing is done. -/
theorem refl (frame : Frame) (st : State) : Advances frame [] st st where
  supply := Nat.le_refl _
  shielded := by
    intro t
    refine ⟨.inl, ?_⟩
    rintro (ht | ⟨hle, hlt⟩ | ht)
    · exact ht
    · omega
    · cases ht
  slots := fun _ _ ht => ht
  laid := id

/-- What happens in two stretches happens in both together. -/
theorem trans (h : Advances frame others st mid) (h' : Advances frame others' mid st') :
    Advances frame (others ++ others') st st' where
  supply := Nat.le_trans h.supply h'.supply
  shielded := by
    intro t
    have hle := h.supply
    have hle' := h'.supply
    rw [h'.shielded, h.shielded, List.mem_append]
    by_cases ht : t ∈ st.shielded
    · simp [ht]
    · by_cases ho : t ∈ others ∨ t ∈ others'
      · rcases ho with ho | ho <;> simp [ho]
      · obtain ⟨ho, ho'⟩ := not_or.mp ho
        simp only [ht, ho, ho', false_or, or_false]
        omega
  slots := h.slots.trans h'.slots
  laid := fun hlaid => h'.laid (h.laid hlaid)

/-- A fresh temporary is handed out and shielded. -/
theorem fresh {t : Temp} (frame : Frame) (h : Spill.fresh st = .ok (t, st')) :
    Advances frame [] st st' := by
  obtain ⟨-, -, rfl⟩ := fresh_eq_ok.mp h
  refine ⟨Nat.le_succ _, fun u => ?_, fun _ _ hu => hu, id⟩
  have hu : u = ⟨st.supply.next⟩ ↔ st.supply.next ≤ u.number ∧ u.number < st.supply.next + 1 := by
    rw [Temp.ext_iff]
    show u.number = st.supply.next ↔ _
    omega
  rw [TempSet.mem_insert_iff, or_comm, hu]
  simp

/-- Asking for a slot keeps the ones that are there. -/
theorem slot {t : Temp} {offset : Int} (h : Spill.slot frame t st = .ok (offset, st')) :
    Advances frame [] st st' := by
  obtain ⟨slots, hslots, rfl⟩ := slot_eq_ok.mp h
  exact ⟨Nat.le_refl _, (refl frame st).shielded, SlotTable.extends_slotOf hslots,
    fun hlaid => SlotTable.laid_slotOf hlaid hslots⟩

/-- Reserving slots keeps the ones that are there. -/
theorem reserve {ts : List Temp} (h : Spill.reserve frame ts st = .ok ((), st')) :
    Advances frame [] st st' := by
  induction ts generalizing st with
  | nil =>
      obtain ⟨-, rfl⟩ := pure_eq_ok.mp h
      exact refl frame st'
  | cons t ts ih =>
      obtain ⟨offset, mid, hslot, h⟩ := bind_eq_ok.mp h
      exact (slot hslot).trans (ih h)

/-- A temporary may be shielded that was not made on the way. -/
theorem shield {t : Temp} (frame : Frame) (h : Spill.shield t st = .ok ((), st')) :
    Advances frame [t] st st' := by
  cases h
  refine ⟨Nat.le_refl _, fun u => ?_, fun _ _ hu => hu, id⟩
  have hnone : ¬(st.supply.next ≤ u.number ∧ u.number < st.supply.next) := by omega
  rw [TempSet.mem_insert_iff, List.mem_singleton, or_comm, or_iff_right hnone]

end Advances

/-! ### Accesses -/

/-- An access to the slot of `temp`: `place` is what is loaded from it or stored into it,
and `address` holds its address. -/
structure Access where
  temp : Temp
  place : Temp
  address : Temp
  offset : Int

namespace Access

/-- Compute the address of the slot. -/
def locate (a : Access) : List Operation :=
  Operation.loadConstant a.address (UInt64.ofNat a.offset.natAbs) ++
    [.belowFramePointer a.address a.address]

/-- The operations of a load. -/
def loading (a : Access) : List Operation :=
  a.locate ++ [.load a.place a.address 0]

/-- The operations of a store. -/
def storing (a : Access) : List Operation :=
  a.locate ++ [.store a.place a.address 0]

/-- Load from the slot. -/
def load (a : Access) : List Instr :=
  a.loading.map Operation.instr

/-- Store into the slot. -/
def store (a : Access) : List Instr :=
  a.storing.map Operation.instr

variable {a : Access} {o : Operation}

/-- The address of a slot is loaded as a constant, and subtracted from the frame pointer. -/
theorem mem_locate (h : o ∈ a.locate) :
    o.Packs a.address ∨ o = .belowFramePointer a.address a.address := by
  rcases List.mem_append.mp h with h | h
  · exact .inl (Operation.packs_of_mem_loadConstant _ h)
  · exact .inr (List.mem_singleton.mp h)

/-- The address is computed, and then there is one load or one store. -/
theorem mem_operations (h : o ∈ a.loading ∨ o ∈ a.storing) :
    o ∈ a.locate ∨ o = .load a.place a.address 0 ∨ o = .store a.place a.address 0 := by
  rcases h with h | h <;> rcases List.mem_append.mp h with h | h
  · exact .inl h
  · exact .inr (.inl (List.mem_singleton.mp h))
  · exact .inl h
  · exact .inr (.inr (List.mem_singleton.mp h))

/-- The instructions of an access are those of its operations. -/
theorem mem_code {i : Instr} (h : i ∈ a.load ∨ i ∈ a.store) :
    ∃ o, (o ∈ a.loading ∨ o ∈ a.storing) ∧ i = o.instr := by
  rcases h with h | h <;> obtain ⟨o, ho, rfl⟩ := List.mem_map.mp h
  · exact ⟨o, .inl ho, rfl⟩
  · exact ⟨o, .inr ho, rfl⟩

end Access

/-- Accesses for which the state went from `st` to `st'`: they are to the slots of the
temporaries in `pairs`, for those that take their places. -/
structure Accesses (frame : Frame) (pairs : List (Temp × Temp)) (st st' : State)
    (as : List Access) : Prop extends Advances frame [] st st' where
  pairs : as.map (fun a => (a.temp, a.place)) = pairs
  address : ∀ a ∈ as, st.supply.next ≤ a.address.number ∧ a.address.number < st'.supply.next
  nodup : (as.map Access.address).Nodup
  offset : ∀ a ∈ as, st'.slots.offsets[a.temp]? = some a.offset

namespace Accesses

variable {frame : Frame} {pairs pairs' : List (Temp × Temp)} {st mid st' : State}
  {as bs : List Access}

/-- No accesses are made if nothing is done. -/
theorem nil (frame : Frame) (st : State) : Accesses frame [] st st [] where
  toAdvances := .refl frame st
  pairs := rfl
  address := nofun
  nodup := .nil
  offset := nofun

/-- Accesses in two stretches use different temporaries for their addresses. -/
theorem append (has : Accesses frame pairs st mid as) (hbs : Accesses frame pairs' mid st' bs) :
    Accesses frame (pairs ++ pairs') st st' (as ++ bs) where
  toAdvances := has.toAdvances.trans hbs.toAdvances
  pairs := by rw [List.map_append, has.pairs, hbs.pairs]
  address := by
    intro a ha
    rcases List.mem_append.mp ha with ha | ha
    · exact ⟨(has.address a ha).1, Nat.lt_of_lt_of_le (has.address a ha).2 hbs.supply⟩
    · exact ⟨Nat.le_trans has.supply (hbs.address a ha).1, (hbs.address a ha).2⟩
  nodup := by
    rw [List.map_append, List.nodup_append]
    refine ⟨has.nodup, hbs.nodup, ?_⟩
    rintro _ ha _ hb rfl
    -- The second addresses come from the supply that the first ones left.
    obtain ⟨a, ha, haddr⟩ := List.mem_map.mp ha
    obtain ⟨b, hb, hbddr⟩ := List.mem_map.mp hb
    have hlt := (has.address a ha).2
    have hle := (hbs.address b hb).1
    rw [hbddr, ← haddr] at hle
    omega
  offset := by
    intro a ha
    rcases List.mem_append.mp ha with ha | ha
    · exact hbs.slots (has.offset a ha)
    · exact hbs.offset a ha

/-- Steps without an access may come behind. -/
theorem advance (h : Accesses frame pairs st mid as) (h' : Advances frame [] mid st') :
    Accesses frame pairs st st' as where
  toAdvances := h.toAdvances.trans h'
  pairs := h.pairs
  address := fun a ha => ⟨(h.address a ha).1, Nat.lt_of_lt_of_le (h.address a ha).2 h'.supply⟩
  nodup := h.nodup
  offset := fun a ha => h'.slots (h.offset a ha)

end Accesses

variable {frame : Frame} {st st' : State} {is : List Instr}

/-- Computing the address of a slot is the first half of an access. -/
theorem slotAddress_accesses {t addr : Temp} (place : Temp)
    (h : slotAddress frame t st = .ok ((is, addr), st')) :
    ∃ a, Accesses frame [(t, place)] st st' [a] ∧ a.place = place ∧ a.address = addr ∧
      is = a.locate.map Operation.instr := by
  obtain ⟨offset, mid, hslot, h⟩ := bind_eq_ok.mp h
  replace h := bind_eq_ok.mp h
  obtain ⟨new, last, hfresh, h⟩ := h
  obtain ⟨h, rfl⟩ := pure_eq_ok.mp h
  cases h
  have hadvances := (Advances.slot hslot).trans (Advances.fresh frame hfresh)
  obtain ⟨slots, hslots, hmid⟩ := slot_eq_ok.mp hslot
  obtain ⟨-, rfl, rfl⟩ := fresh_eq_ok.mp hfresh
  have hnext : mid.supply.next = st.supply.next := by rw [hmid]
  have hoffset : mid.slots.offsets[t]? = some offset := by
    rw [hmid]
    exact SlotTable.getElem?_slotOf hslots
  refine ⟨⟨t, place, ⟨mid.supply.next⟩, offset⟩, ⟨hadvances, rfl, ?_, List.nodup_singleton _, ?_⟩,
    rfl, rfl, rfl⟩
  · simp [hnext]
  · simpa using hoffset

/-- A load is one access. -/
theorem reload_accesses {t dst : Temp} (h : reload frame t dst st = .ok (is, st')) :
    ∃ a, Accesses frame [(t, dst)] st st' [a] ∧ is = a.load := by
  obtain ⟨⟨js, addr⟩, mid, haddr, h⟩ := bind_eq_ok.mp h
  obtain ⟨rfl, rfl⟩ := pure_eq_ok.mp h
  obtain ⟨a, ha, rfl, rfl, rfl⟩ := slotAddress_accesses dst haddr
  exact ⟨a, ha, by simp [Access.load, Access.loading]⟩

/-- A store is one access. -/
theorem save_accesses {t src : Temp} (h : save frame t src st = .ok (is, st')) :
    ∃ a, Accesses frame [(t, src)] st st' [a] ∧ is = a.store := by
  obtain ⟨⟨js, addr⟩, mid, haddr, h⟩ := bind_eq_ok.mp h
  obtain ⟨rfl, rfl⟩ := pure_eq_ok.mp h
  obtain ⟨a, ha, rfl, rfl, rfl⟩ := slotAddress_accesses src haddr
  exact ⟨a, ha, by simp [Access.store, Access.storing]⟩

/-- Several loads are accesses for the temporaries of the list, in order. -/
theorem reloadAll_accesses {pairs : List (Temp × Temp)} {ts : List Temp}
    (h : reloadAll frame pairs ts st = .ok (is, st')) :
    ∃ as, Accesses frame (ts.map fun t => (t, replacement pairs t)) st st' as ∧
      is = as.flatMap Access.load := by
  induction ts generalizing st is with
  | nil =>
      obtain ⟨rfl, rfl⟩ := pure_eq_ok.mp h
      exact ⟨[], .nil frame st', rfl⟩
  | cons t ts ih =>
      obtain ⟨js, mid, hjs, h⟩ := bind_eq_ok.mp h
      replace h := bind_eq_ok.mp h
      obtain ⟨ks, last, hks, h⟩ := h
      obtain ⟨rfl, rfl⟩ := pure_eq_ok.mp h
      obtain ⟨a, ha, rfl⟩ := reload_accesses hjs
      obtain ⟨as, has, rfl⟩ := ih hks
      exact ⟨a :: as, ha.append has, rfl⟩

/-- Several stores are accesses for the temporaries of the list, in order. -/
theorem saveAll_accesses {pairs : List (Temp × Temp)} {ts : List Temp}
    (h : saveAll frame pairs ts st = .ok (is, st')) :
    ∃ as, Accesses frame (ts.map fun t => (t, replacement pairs t)) st st' as ∧
      is = as.flatMap Access.store := by
  induction ts generalizing st is with
  | nil =>
      obtain ⟨rfl, rfl⟩ := pure_eq_ok.mp h
      exact ⟨[], .nil frame st', rfl⟩
  | cons t ts ih =>
      obtain ⟨js, mid, hjs, h⟩ := bind_eq_ok.mp h
      replace h := bind_eq_ok.mp h
      obtain ⟨ks, last, hks, h⟩ := h
      obtain ⟨rfl, rfl⟩ := pure_eq_ok.mp h
      obtain ⟨a, ha, rfl⟩ := save_accesses hjs
      obtain ⟨as, has, rfl⟩ := ih hks
      exact ⟨a :: as, ha.append has, rfl⟩

/-! ### Replacements -/

/-- Fresh temporaries take the places of those in `ts`, and no others are replaced. -/
structure Replaces (first last : Nat) (ts : List Temp) (ρ : Temp → Temp) : Prop where
  kept : ∀ t ∉ ts, ρ t = t
  made : ∀ t ∈ ts, first ≤ (ρ t).number ∧ (ρ t).number < last
  injective : ∀ t ∈ ts, ∀ u ∈ ts, ρ t = ρ u → t = u

/-- Each temporary of a list gets a replacement of its own. -/
theorem replacements_replaces (frame : Frame) {ts : List Temp} {pairs : List (Temp × Temp)}
    (h : replacements ts st = .ok (pairs, st')) :
    Replaces st.supply.next st'.supply.next ts (replacement pairs) ∧ Advances frame [] st st' := by
  induction ts generalizing st pairs with
  | nil =>
      obtain ⟨rfl, rfl⟩ := pure_eq_ok.mp h
      exact ⟨⟨fun _ _ => rfl, nofun, nofun⟩, .refl frame st'⟩
  | cons t ts ih =>
      obtain ⟨new, mid, hfresh, h⟩ := bind_eq_ok.mp h
      replace h := bind_eq_ok.mp h
      obtain ⟨rest, last, hrest, h⟩ := h
      obtain ⟨rfl, rfl⟩ := pure_eq_ok.mp h
      obtain ⟨hreplaces, hadvances⟩ := ih hrest
      refine ⟨?_, (Advances.fresh frame hfresh).trans hadvances⟩
      obtain ⟨-, rfl, rfl⟩ := fresh_eq_ok.mp hfresh
      have hhead : replacement ((t, ⟨st.supply.next⟩) :: rest) t = ⟨st.supply.next⟩ := by
        simp [replacement]
      have htail : ∀ u, u ≠ t → replacement ((t, ⟨st.supply.next⟩) :: rest) u =
          replacement rest u := by
        intro u hu
        simp [replacement, List.lookup_cons, beq_eq_false_iff_ne.mpr hu]
      have hlast : st.supply.next + 1 ≤ st'.supply.next := hadvances.supply
      -- Later replacements have larger numbers.
      have hlater : ∀ u ∈ ts, st.supply.next + 1 ≤ (replacement rest u).number :=
        fun u hu => (hreplaces.made u hu).1
      refine ⟨fun u hu => ?_, fun u hu => ?_, fun u hu v hv heq => ?_⟩
      · rw [List.mem_cons, not_or] at hu
        rw [htail u hu.1]
        exact hreplaces.kept u hu.2
      · by_cases hut : u = t
        · rw [hut, hhead]
          exact ⟨Nat.le_refl _, hlast⟩
        · have humem := (List.mem_cons.mp hu).resolve_left hut
          rw [htail u hut]
          exact ⟨Nat.le_of_succ_le (hlater u humem), (hreplaces.made u humem).2⟩
      · by_cases hut : u = t <;> by_cases hvt : v = t
        · rw [hut, hvt]
        · have hle := hlater v ((List.mem_cons.mp hv).resolve_left hvt)
          rw [hut, hhead, htail v hvt] at heq
          rw [← heq] at hle
          exact absurd hle (Nat.not_succ_le_self _)
        · have hle := hlater u ((List.mem_cons.mp hu).resolve_left hut)
          rw [hvt, hhead, htail u hut] at heq
          rw [heq] at hle
          exact absurd hle (Nat.not_succ_le_self _)
        · rw [htail u hut, htail v hvt] at heq
          exact hreplaces.injective u ((List.mem_cons.mp hu).resolve_left hut) v
            ((List.mem_cons.mp hv).resolve_left hvt) heq

/-- Of a list, those are spilled that are among the spilled ones. -/
theorem mem_spilledOf {spilled : TempSet} {ts : List Temp} {t : Temp} :
    t ∈ spilledOf spilled ts ↔ t ∈ ts ∧ t ∈ spilled := by
  simp [spilledOf]

/-! ### Cells -/

/-- What spilling makes of an instruction. -/
structure Cell where
  loads : List Access
  body : Instr
  stores : List Access

namespace Cell

/-- The instructions of a cell in order. -/
def toList (c : Cell) : List Instr :=
  c.loads.flatMap Access.load ++ c.body :: c.stores.flatMap Access.store

/-- The cell is what an instruction turns into, with `ρ` to replace its spilled
operands. The numbers from `first` up to `last` are handed out for it, and its slots are
in `slots`. The return value is loaded if `leaving` says so. -/
structure Renders (frame : Frame) (spilled : TempSet) (leaving : Bool) (i : Instr)
    (first last : Nat) (slots : SlotTable) (ρ : Temp → Temp) (c : Cell) : Prop where
  replaces : Replaces first last (spilledOf spilled i.operands) ρ
  body : c.body = i.rename ρ
  loads : c.loads.map (fun a => (a.temp, a.place)) =
    (spilledOf spilled i.uses).map (fun t => (t, ρ t)) ++
      if leaving then [(frame.rv, frame.rv)] else []
  stores : c.stores.map (fun a => (a.temp, a.place)) =
    (spilledOf spilled i.defs).map fun t => (t, ρ t)
  address : ∀ a ∈ c.loads ++ c.stores, first ≤ a.address.number ∧ a.address.number < last
  /-- Addresses are not among the replacements. -/
  address_ne : ∀ a ∈ c.loads ++ c.stores, ∀ t ∈ spilledOf spilled i.operands, ρ t ≠ a.address
  nodup : ((c.loads ++ c.stores).map Access.address).Nodup
  offset : ∀ a ∈ c.loads ++ c.stores, slots.offsets[a.temp]? = some a.offset

namespace Renders

variable {frame : Frame} {spilled : TempSet} {leaving : Bool} {i : Instr} {first last : Nat}
  {slots : SlotTable} {ρ : Temp → Temp} {c : Cell} {a : Access} {t : Temp}

/-- A cell among others. -/
theorem mono (h : c.Renders frame spilled leaving i first last slots ρ) {first' last' : Nat}
    {slots' : SlotTable} (hfirst : first' ≤ first) (hlast : last ≤ last')
    (hslots : slots.Extends slots') : c.Renders frame spilled leaving i first' last' slots' ρ where
  replaces := ⟨h.replaces.kept, fun t ht => ⟨Nat.le_trans hfirst (h.replaces.made t ht).1,
    Nat.lt_of_lt_of_le (h.replaces.made t ht).2 hlast⟩, h.replaces.injective⟩
  body := h.body
  loads := h.loads
  stores := h.stores
  address := fun a ha => ⟨Nat.le_trans hfirst (h.address a ha).1,
    Nat.lt_of_lt_of_le (h.address a ha).2 hlast⟩
  address_ne := h.address_ne
  nodup := h.nodup
  offset := fun a ha => hslots (h.offset a ha)

/-- A load is for an operand that is read, or for the return value. -/
theorem mem_loads (h : c.Renders frame spilled leaving i first last slots ρ) (ha : a ∈ c.loads) :
    (a.temp ∈ spilledOf spilled i.uses ∧ a.place = ρ a.temp) ∨
      (leaving = true ∧ a.temp = frame.rv ∧ a.place = frame.rv) := by
  have hmem : (a.temp, a.place) ∈ c.loads.map fun a => (a.temp, a.place) := List.mem_map_of_mem ha
  rw [h.loads] at hmem
  rcases List.mem_append.mp hmem with hmem | hmem
  · obtain ⟨t, ht, heq⟩ := List.mem_map.mp hmem
    obtain ⟨htemp, hplace⟩ := Prod.ext_iff.mp heq
    dsimp only at htemp hplace
    rw [← hplace, ← htemp]
    exact .inl ⟨ht, rfl⟩
  · cases leaving with
    | true => exact .inr ⟨rfl, Prod.ext_iff.mp (List.mem_singleton.mp hmem)⟩
    | false => cases hmem

/-- A store is for an operand that is written. -/
theorem mem_stores (h : c.Renders frame spilled leaving i first last slots ρ) (ha : a ∈ c.stores) :
    a.temp ∈ spilledOf spilled i.defs ∧ a.place = ρ a.temp := by
  have hmem : (a.temp, a.place) ∈ c.stores.map fun a => (a.temp, a.place) :=
    List.mem_map_of_mem ha
  rw [h.stores] at hmem
  obtain ⟨t, ht, heq⟩ := List.mem_map.mp hmem
  obtain ⟨htemp, hplace⟩ := Prod.ext_iff.mp heq
  dsimp only at htemp hplace
  rw [← hplace, ← htemp]
  exact ⟨ht, rfl⟩

/-- Each spilled operand that is read is loaded into its replacement. -/
theorem exists_load (h : c.Renders frame spilled leaving i first last slots ρ)
    (ht : t ∈ spilledOf spilled i.uses) : ∃ a ∈ c.loads, a.temp = t ∧ a.place = ρ t := by
  have hmem : (t, ρ t) ∈ c.loads.map fun a => (a.temp, a.place) := by
    rw [h.loads]
    exact List.mem_append_left _ (List.mem_map_of_mem ht)
  obtain ⟨a, ha, heq⟩ := List.mem_map.mp hmem
  exact ⟨a, ha, (Prod.ext_iff.mp heq).1, (Prod.ext_iff.mp heq).2⟩

/-- The return value is loaded into its own temporary if control leaves. -/
theorem exists_result (h : c.Renders frame spilled leaving i first last slots ρ)
    (hleaving : leaving = true) : ∃ a ∈ c.loads, a.temp = frame.rv ∧ a.place = frame.rv := by
  have hmem : (frame.rv, frame.rv) ∈ c.loads.map fun a => (a.temp, a.place) := by
    rw [h.loads, if_pos hleaving]
    exact List.mem_append_right _ (List.mem_singleton_self _)
  obtain ⟨a, ha, heq⟩ := List.mem_map.mp hmem
  exact ⟨a, ha, (Prod.ext_iff.mp heq).1, (Prod.ext_iff.mp heq).2⟩

/-- Each spilled operand that is written is stored from its replacement. -/
theorem exists_store (h : c.Renders frame spilled leaving i first last slots ρ)
    (ht : t ∈ spilledOf spilled i.defs) : ∃ a ∈ c.stores, a.temp = t ∧ a.place = ρ t := by
  have hmem : (t, ρ t) ∈ c.stores.map fun a => (a.temp, a.place) := by
    rw [h.stores]
    exact List.mem_map_of_mem ht
  obtain ⟨a, ha, heq⟩ := List.mem_map.mp hmem
  exact ⟨a, ha, (Prod.ext_iff.mp heq).1, (Prod.ext_iff.mp heq).2⟩

end Renders

end Cell

/-- What else is shielded for an instruction. -/
def kept (frame : Frame) (leaving : Bool) : List Temp :=
  if leaving then [frame.rv] else []

/-- The load of the return value. -/
theorem result_accesses {leaving : Bool}
    (h : (if leaving then reloadResult frame else pure [] : Step (List Instr)) st =
      .ok (is, st')) :
    ∃ mid as, Accesses frame (if leaving then [(frame.rv, frame.rv)] else []) st mid as ∧
      is = as.flatMap Access.load ∧ Advances frame (kept frame leaving) mid st' := by
  cases leaving with
  | false =>
      obtain ⟨rfl, rfl⟩ := pure_eq_ok.mp h
      exact ⟨st', [], .nil frame st', rfl, .refl frame st'⟩
  | true =>
      obtain ⟨js, mid, hjs, h⟩ := bind_eq_ok.mp h
      replace h := bind_eq_ok.mp h
      obtain ⟨⟨⟩, last, hshield, h⟩ := h
      obtain ⟨rfl, rfl⟩ := pure_eq_ok.mp h
      obtain ⟨a, ha, rfl⟩ := reload_accesses hjs
      exact ⟨mid, [a], ha, by simp, .shield frame hshield⟩

/-- The block of an instruction is a cell that renders it. -/
theorem block_renders {spilled : TempSet} {leaving : Bool} {i : Instr} {b : Block}
    (h : block frame spilled leaving i st = .ok (b, st')) :
    ∃ ρ c, b.toList = c.toList ∧
      Cell.Renders frame spilled leaving i st.supply.next st'.supply.next st'.slots ρ c ∧
        Advances frame (kept frame leaving) st st' := by
  rw [block_eq] at h
  replace h := bind_eq_ok.mp h
  obtain ⟨pairs, one, hpairs, h⟩ := h
  replace h := bind_eq_ok.mp h
  obtain ⟨loads, two, hloads, h⟩ := h
  replace h := bind_eq_ok.mp h
  obtain ⟨⟨⟩, three, hreserve, h⟩ := h
  replace h := bind_eq_ok.mp h
  obtain ⟨result, four, hresult, h⟩ := h
  replace h := bind_eq_ok.mp h
  obtain ⟨stores, five, hstores, h⟩ := h
  obtain ⟨rfl, rfl⟩ := pure_eq_ok.mp h
  obtain ⟨hreplaces, hone⟩ := replacements_replaces frame hpairs
  obtain ⟨as, has, rfl⟩ := reloadAll_accesses hloads
  obtain ⟨mid, rs, hrs, rfl, hkept⟩ := result_accesses hresult
  obtain ⟨bs, hbs, rfl⟩ := saveAll_accesses hstores
  have hread := (has.advance (Advances.reserve hreserve)).append hrs
  have hlast : one.supply.next ≤ st'.supply.next :=
    Nat.le_trans hread.supply (Nat.le_trans hkept.supply hbs.supply)
  -- All addresses come from the supply that the replacements left.
  have haddress : ∀ a ∈ (as ++ rs) ++ bs,
      one.supply.next ≤ a.address.number ∧ a.address.number < st'.supply.next := by
    intro a ha
    rcases List.mem_append.mp ha with ha | ha
    · exact ⟨(hread.address a ha).1,
        Nat.lt_of_lt_of_le (hread.address a ha).2 (Nat.le_trans hkept.supply hbs.supply)⟩
    · exact ⟨Nat.le_trans hread.supply (Nat.le_trans hkept.supply (hbs.address a ha).1),
        (hbs.address a ha).2⟩
  refine ⟨replacement pairs, ⟨as ++ rs, i.rename (replacement pairs), bs⟩, ?_, ?_, ?_⟩
  · simp [Block.toList, Cell.toList]
  · refine ⟨⟨hreplaces.kept, fun t ht => ?_, hreplaces.injective⟩, rfl, hread.pairs, hbs.pairs,
      fun a ha => ⟨Nat.le_trans hone.supply (haddress a ha).1, (haddress a ha).2⟩,
      fun a ha t ht heq => ?_, ?_, ?_⟩
    · exact ⟨(hreplaces.made t ht).1, Nat.lt_of_lt_of_le (hreplaces.made t ht).2 hlast⟩
    · have hlt := (hreplaces.made t ht).2
      rw [heq] at hlt
      exact absurd (haddress a ha).1 (Nat.not_le_of_lt hlt)
    · rw [List.map_append, List.nodup_append]
      refine ⟨hread.nodup, hbs.nodup, ?_⟩
      rintro _ ha _ hb rfl
      obtain ⟨a, ha, haddr⟩ := List.mem_map.mp ha
      obtain ⟨b, hb, hbddr⟩ := List.mem_map.mp hb
      have hlt := Nat.lt_of_lt_of_le (hread.address a ha).2 hkept.supply
      have hle := (hbs.address b hb).1
      rw [hbddr, ← haddr] at hle
      omega
    · intro a ha
      rcases List.mem_append.mp ha with ha | ha
      · exact hbs.slots (hkept.slots (hread.offset a ha))
      · exact hbs.offset a ha
  · have hall := (hone.trans hread.toAdvances).trans (hkept.trans hbs.toAdvances)
    simpa using hall

/-! ### Routines -/

/-- Whether the return value is loaded in front of an instruction. -/
def leaves (spilled : TempSet) (r : Routine) (i : Instr) : Bool :=
  reloadsResult spilled r && i.jumps.contains r.exit

/-- The return value is loaded in front of jumps to the exit, if it is spilled
and written at all. -/
theorem leaves_eq_true {spilled : TempSet} {r : Routine} {i : Instr} :
    leaves spilled r i = true ↔
      (r.frame.rv ∈ spilled ∧ r.definesResult = true) ∧ r.exit ∈ i.jumps := by
  rw [leaves, Bool.and_eq_true, reloadsResult, Bool.and_eq_true, ← Std.ExtTreeSet.mem_iff_contains,
    List.contains_iff_mem]

/-- The cells of some instructions of a routine, while the state goes from `st` to `st'`. -/
inductive Rendered (spilled : TempSet) (r : Routine) :
    List Instr → List Cell → State → State → Prop
  | nil (st : State) : Rendered spilled r [] [] st st
  | cons {i : Instr} {is : List Instr} {c : Cell} {cs : List Cell} {st mid st' : State}
      {ρ : Temp → Temp} (renders : c.Renders r.frame spilled (leaves spilled r i) i
        st.supply.next mid.supply.next mid.slots ρ)
      (advances : Advances r.frame (kept r.frame (leaves spilled r i)) st mid)
      (rest : Rendered spilled r is cs mid st') : Rendered spilled r (i :: is) (c :: cs) st st'

/-- Along the cells of a routine the state goes on, and return values are shielded. -/
theorem Rendered.advances {spilled : TempSet} {r : Routine} {cs : List Cell}
    (h : Rendered spilled r is cs st st') :
    Advances r.frame (is.flatMap fun i => kept r.frame (leaves spilled r i)) st st' := by
  induction h with
  | nil st => exact .refl r.frame st
  | cons _ hadvances _ ih => exact hadvances.trans ih

/-- The blocks of a routine are cells that render its instructions. -/
theorem rendered_of_blocks {spilled : TempSet} {r : Routine} {bs : List Block}
    (h : blocks spilled r is st = .ok (bs, st')) :
    ∃ cs, bs.map Block.toList = cs.map Cell.toList ∧ Rendered spilled r is cs st st' := by
  induction is generalizing st bs with
  | nil =>
      obtain ⟨rfl, rfl⟩ := pure_eq_ok.mp h
      exact ⟨[], rfl, .nil st'⟩
  | cons i is ih =>
      obtain ⟨b, mid, hb, h⟩ := bind_eq_ok.mp h
      replace h := bind_eq_ok.mp h
      obtain ⟨bs, last, hbs, h⟩ := h
      obtain ⟨rfl, rfl⟩ := pure_eq_ok.mp h
      obtain ⟨ρ, c, hc, hrenders, hadvances⟩ := block_renders hb
      obtain ⟨cs, hcs, hrendered⟩ := ih hbs
      refine ⟨c :: cs, ?_, .cons hrenders hadvances hrendered⟩
      rw [List.map_cons, List.map_cons, hc, hcs]

/-- Nothing happens to instructions that touch no spilled temporary. -/
theorem blocks_of_untouched {spilled : TempSet} {r : Routine} (st : State)
    (h : ∀ i ∈ is, ∀ t ∈ i.operands, t ∉ spilled) (hleaves : ∀ i ∈ is, leaves spilled r i = false) :
    blocks spilled r is st = .ok (is.map fun i => ⟨[], [], i, []⟩, st) := by
  have hnone : ∀ ts : List Temp, (∀ t ∈ ts, t ∉ spilled) → spilledOf spilled ts = [] := by
    intro ts hts
    refine List.eq_nil_iff_forall_not_mem.mpr fun t ht => ?_
    exact hts t (mem_spilledOf.mp ht).1 (mem_spilledOf.mp ht).2
  induction is with
  | nil => rfl
  | cons i is ih =>
      rw [List.forall_mem_cons] at h hleaves
      have huses := hnone i.uses fun t ht => h.1 t (List.mem_append_left _ ht)
      have hdefs := hnone i.defs fun t ht => h.1 t (List.mem_append_right _ ht)
      have hrename : i.rename (replacement []) = i := Instr.rename_eq_self fun _ _ => rfl
      have hblock :
          block r.frame spilled (leaves spilled r i) i st = .ok (⟨[], [], i, []⟩, st) := by
        rw [hleaves.1, block_eq, hnone i.operands h.1, huses, hdefs]
        show Except.ok ((⟨[], [], i.rename (replacement []), []⟩ : Block), st) = _
        rw [hrename]
      refine bind_eq_ok.mpr ⟨_, st, hblock, bind_eq_ok.mpr ⟨_, st, ih h.2 hleaves.2, rfl⟩⟩

end Spill

/-- Spilling from a routine fails for want of room, or the code of the result consists of the
blocks of its instructions, also if none of them is touched. -/
theorem Routine.spill_blocks (spilled : TempSet) (supply : Supply) (shielded : TempSet)
    (r : Routine) :
    (∃ e, (r.spill spilled supply shielded).outcome = .error e ∧ e.Exhausted ∧
      ¬Spill.Room r.frame (Spill.demand r.instrs) ⟨supply, shielded, r.slots⟩) ∨
      ∃ result bs st, (r.spill spilled supply shielded).outcome = .ok result ∧
        Spill.blocks spilled r r.instrs ⟨supply, shielded, r.slots⟩ = .ok (bs, st) ∧
        result.routine = { r with instrs := bs.flatMap Spill.Block.toList, slots := st.slots } ∧
        result.supply = st.supply ∧ result.shielded = st.shielded := by
  rw [spill]
  split
  · next htouches =>
      rw [Logged.outcome_bind, Logged.outcome_ofExcept, StateT.run]
      cases hblocks : Spill.blocks spilled r r.instrs ⟨supply, shielded, r.slots⟩ with
      | error e =>
          have haffordable := Spill.affordable_blocks spilled r r.instrs
          refine .inl ⟨e, rfl, haffordable.fails hblocks, fun hroom => ?_⟩
          obtain ⟨bs, st, hok, -⟩ := haffordable.succeeds 0 hroom
          rw [hblocks] at hok
          cases hok
      | ok p => exact .inr ⟨_, p.1, p.2, rfl, rfl, rfl, rfl, rfl⟩
  · next htouches =>
      have huntouched : ∀ i ∈ r.instrs, ∀ t ∈ i.operands, t ∉ spilled := by
        simpa [Spill.touches] using htouches
      have hleaves : ∀ i ∈ r.instrs, Spill.leaves spilled r i = false := by
        intro i hi
        -- A return value that some instruction writes is not spilled.
        have hresult : Spill.reloadsResult spilled r = false := by
          rw [Spill.reloadsResult, Bool.and_eq_false_iff, or_iff_not_imp_right]
          intro hdefines
          obtain ⟨j, hj, hrv⟩ := List.any_eq_true.mp (Bool.of_not_eq_false hdefines)
          have hmem : r.frame.rv ∈ j.defs := by simpa using hrv
          have hnot := huntouched j hj _ (List.mem_append_right _ hmem)
          rwa [Std.ExtTreeSet.mem_iff_contains, Bool.not_eq_true] at hnot
        rw [Spill.leaves, hresult, Bool.false_and]
      have hblocks := Spill.blocks_of_untouched ⟨supply, shielded, r.slots⟩ huntouched hleaves
      refine .inr ⟨_, _, _, rfl, hblocks, ?_, rfl, rfl⟩
      simp [List.flatMap_map, Spill.Block.toList]

/-- Spilling from a routine fails for want of room, or the code of the result consists of
cells for the instructions of the routine. -/
theorem Routine.spill_cases (spilled : TempSet) (supply : Supply) (shielded : TempSet)
    (r : Routine) :
    (∃ e, (r.spill spilled supply shielded).outcome = .error e ∧ e.Exhausted) ∨
      ∃ result cs st, (r.spill spilled supply shielded).outcome = .ok result ∧
        Spill.Rendered spilled r r.instrs cs ⟨supply, shielded, r.slots⟩ st ∧
        result.routine = { r with instrs := cs.flatMap Spill.Cell.toList, slots := st.slots } ∧
        result.supply = st.supply ∧ result.shielded = st.shielded := by
  rcases r.spill_blocks spilled supply shielded with ⟨e, hfails, hroom, -⟩ | ⟨result, bs, st, hok,
    hblocks, hroutine, hkept⟩
  · exact .inl ⟨e, hfails, hroom⟩
  · obtain ⟨cs, hcs, hrendered⟩ := Spill.rendered_of_blocks hblocks
    refine .inr ⟨result, cs, st, hok, hrendered, ?_, hkept⟩
    rw [hroutine, List.flatMap_def, hcs, ← List.flatMap_def]

end MmixCodegen
