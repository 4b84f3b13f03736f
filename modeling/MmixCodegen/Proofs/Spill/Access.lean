import MmixCodegen.Proofs.Spill.Cell

/-!
# `MmixCodegen.Proofs.Spill.Access`: what the code of an access does

A machine may give any meaning to the code of a program, but the operations that spilling
adds are MMIX: `Meaning.ServesSlots` says that they do what they do there. They do not
jump, so `Machine.run_inserted` runs through a list of them.

`Spill.loads_loaded` and `Spill.stores_stored` say what a list of accesses leaves
behind. Loads change the temporaries that they load and those for addresses, and stores
change the octabytes of their slots and the temporaries for addresses.
-/

set_option autoImplicit false

namespace MmixCodegen

/-- An operation that spilling adds. -/
def Spill.Inserted (o : Operation) : Prop :=
  ∃ a : Access, o ∈ a.loading ∨ o ∈ a.storing

/-- The operations that spilling adds do what they do on MMIX. -/
def Meaning.ServesSlots {E : Type} (m : Meaning Word (Mmix.Hidden E)) (w : Mmix.World E) : Prop :=
  ∀ o, Spill.Inserted o → ∀ reads h,
    m.values o.template reads h 0 = Mmix.result w o.template reads h ∧
      m.hidden o.template reads h = Mmix.outcome w o.template reads h

/-- The machine itself gives the operations that spilling adds their meaning. -/
theorem Mmix.servesSlots_meaning {E : Type} (w : World E) : (meaning w).ServesSlots w :=
  fun _ _ _ _ => ⟨rfl, rfl⟩

/-! ### Runs through inserted operations -/

namespace Spill.Inserted

variable {o : Operation}

/-- An operation that spilling adds does not jump. -/
theorem targets_eq_nil (h : Inserted o) : o.targets = [] := by
  obtain ⟨a, h⟩ := h
  rcases Access.mem_operations h with h | rfl | rfl
  · rcases Access.mem_locate h with ⟨group, n, -, rfl | rfl⟩ | rfl <;> rfl
  · rfl
  · rfl

/-- An operation that spilling adds writes one temporary at most. -/
theorem defs_cases (h : Inserted o) : o.defs = [] ∨ ∃ d, o.defs = [d] := by
  obtain ⟨a, h⟩ := h
  rcases Access.mem_operations h with h | rfl | rfl
  · rcases Access.mem_locate h with ⟨group, n, -, rfl | rfl⟩ | rfl <;> exact .inr ⟨_, rfl⟩
  · exact .inr ⟨_, rfl⟩
  · exact .inl rfl

end Spill.Inserted

namespace Spill

/-- The code of several loads is that of their operations. -/
theorem Access.flatMap_load (as : List Access) :
    as.flatMap load = (as.flatMap loading).map Operation.instr := by
  rw [List.map_flatMap]
  rfl

/-- The code of several stores is that of their operations. -/
theorem Access.flatMap_store (as : List Access) :
    as.flatMap store = (as.flatMap storing).map Operation.instr := by
  rw [List.map_flatMap]
  rfl

/-- The operations of loads are added by spilling. -/
theorem inserted_of_mem_loading {as : List Access} :
    ∀ o ∈ as.flatMap Access.loading, Inserted o := by
  intro o ho
  obtain ⟨a, -, ho⟩ := List.mem_flatMap.mp ho
  exact ⟨a, .inl ho⟩

/-- The operations of stores are added by spilling. -/
theorem inserted_of_mem_storing {as : List Access} :
    ∀ o ∈ as.flatMap Access.storing, Inserted o := by
  intro o ho
  obtain ⟨a, -, ho⟩ := List.mem_flatMap.mp ho
  exact ⟨a, .inr ho⟩

end Spill

namespace Machine

variable {E : Type} {m : Meaning Word (Mmix.Hidden E)} {w : Mmix.World E}

/-- The machine does an inserted operation like MMIX. -/
theorem step_inserted (hm : m.ServesSlots w) {o : Operation} (ho : Spill.Inserted o)
    {code : List (Effect Temp)} {index : Nat} (hcode : code[index]? = some o.instr.effect)
    (c : Mmix.Core E) :
    let d := Mmix.perform w o.instr c
    (step m code ⟨.line index, c.store, c.hidden⟩).1 = ⟨.line (index + 1), d.store, d.hidden⟩ := by
  have heffect : o.instr.effect = .oper o.template o.uses o.defs [] := by
    rw [← ho.targets_eq_nil]
    rfl
  rw [heffect] at hcode
  obtain ⟨hvalue, hhidden⟩ := hm o ho (o.uses.map c.store) c.hidden
  -- At most one temporary is written, so the value at number 0 is the only one needed.
  have hstore : write (m.values o.template (o.uses.map c.store) c.hidden) 0 o.defs c.store =
      (Mmix.perform w o.instr c).store := by
    show _ = o.defs.foldl _ c.store
    rcases ho.defs_cases with hdefs | ⟨d, hdefs⟩
    · rw [hdefs]
      rfl
    · rw [hdefs]
      show Function.update c.store d _ = Function.update c.store d _
      rw [hvalue]
      rfl
  simp only [step, hcode, perform, List.getElem?_nil, Option.elim_none, hstore, hhidden]
  rfl

/-- A run through added operations, anywhere in the code, does what they do in order. -/
theorem run_inserted (hm : m.ServesSlots w) {os : List Operation}
    (hos : ∀ o ∈ os, Spill.Inserted o) (before after : List (Effect Temp)) (c : Mmix.Core E) :
    let d := Mmix.performAll w (os.map Operation.instr) c
    (run m (before ++ (os.map Operation.instr).map Instr.effect ++ after)
      ⟨.line before.length, c.store, c.hidden⟩ os.length).1 =
        ⟨.line (before.length + os.length), d.store, d.hidden⟩ := by
  induction os generalizing before c with
  | nil => rfl
  | cons o os ih =>
      rw [List.forall_mem_cons] at hos
      have hget :
        (before ++ ((o :: os).map Operation.instr).map Instr.effect ++ after)[before.length]?
          = some o.instr.effect := by simp
      -- The operation just carried out joins the code before.
      have hrest := ih hos.2 (before ++ [o.instr.effect]) (Mmix.perform w o.instr c)
      have hcode :
        before ++ [o.instr.effect] ++ (os.map Operation.instr).map Instr.effect ++ after =
          before ++ ((o :: os).map Operation.instr).map Instr.effect ++ after := by simp
      rw [hcode, List.length_append, List.length_singleton] at hrest
      rw [List.length_cons, Nat.add_comm os.length, run_add]
      simp only [run]
      rw [step_inserted hm hos.1 hget, hrest, ← Nat.add_assoc]
      rfl

end Machine

/-! ### What accesses leave behind -/

namespace Spill

open Mmix (Core)

variable {E : Type} (w : Mmix.World E) (a : Access) (c : Core E) {as : List Access}

/-- What an access loads for the distance of its slot is its offset. -/
def Access.Reaches (a : Access) : Prop :=
  UInt64.ofNat a.offset.natAbs = UInt64.ofInt a.offset

variable {a}

/-- Locating a slot leaves its address in a temporary, and changes nothing else. -/
theorem performAll_locate (ha : a.Reaches) :
    Mmix.performAll w (a.locate.map Operation.instr) c =
      ⟨Function.update c.store a.address (c.hidden.slotAddress a.offset), c.hidden⟩ := by
  rw [Access.locate, List.map_append, Mmix.performAll_append, Operation.performAll_loadConstant, ha]
  show Mmix.perform w (Operation.belowFramePointer a.address a.address).instr _ = _
  rw [Operation.perform_instr Operation.proper_belowFramePointer.toReadable]
  show Core.mk (Function.update _ a.address
    (c.hidden.global .framePointer - Function.update c.store a.address _ a.address)) _ = _
  rw [Function.update_self, Function.update_idem]
  rfl

/-- A load gives its temporary what the slot holds. -/
theorem performAll_load (ha : a.Reaches) :
    Mmix.performAll w a.load c =
      ⟨Function.update (Function.update c.store a.address (c.hidden.slotAddress a.offset)) a.place
        (c.hidden.memory.load (c.hidden.slotAddress a.offset)), c.hidden⟩ := by
  rw [Access.load, Access.loading, List.map_append, Mmix.performAll_append,
    performAll_locate w c ha]
  show Mmix.perform w (Operation.load a.place a.address 0).instr _ = _
  rw [Operation.perform_instr (Operation.proper_load (by decide)).toReadable]
  show Core.mk (Function.update _ a.place
    (c.hidden.memory.load (Function.update c.store a.address _ a.address + 0))) _ = _
  rw [Function.update_self, UInt64.add_zero]
  rfl

/-- A store gives the slot what its temporary holds. -/
theorem performAll_store (ha : a.Reaches) (hne : a.place ≠ a.address) :
    Mmix.performAll w a.store c =
      ⟨Function.update c.store a.address (c.hidden.slotAddress a.offset), { c.hidden with
        memory := c.hidden.memory.store (c.hidden.slotAddress a.offset) (c.store a.place) }⟩ := by
  rw [Access.store, Access.storing, List.map_append, Mmix.performAll_append,
    performAll_locate w c ha]
  show Mmix.perform w (Operation.store a.place a.address 0).instr _ = _
  rw [Operation.perform_instr (Operation.proper_store (by decide)).toReadable]
  show Core.mk (Function.update c.store a.address _) { c.hidden with
    memory := Memory.store c.hidden.memory (Function.update c.store a.address _ a.address + 0)
      (Function.update c.store a.address _ a.place) } = _
  rw [Function.update_self, Function.update_of_ne hne, UInt64.add_zero]

/-- Some loads were carried out. -/
structure Loaded (as : List Access) (c d : Core E) : Prop where
  hidden : d.hidden = c.hidden
  kept : ∀ t, (∀ a ∈ as, t ≠ a.place ∧ t ≠ a.address) → d.store t = c.store t
  place : ∀ a ∈ as, d.store a.place = c.hidden.memory.load (c.hidden.slotAddress a.offset)

/-- Loads into different temporaries, none of them for an address, all take effect. -/
theorem loads_loaded (hreaches : ∀ a ∈ as, a.Reaches)
    (haddress : ∀ a ∈ as, ∀ b ∈ as, a.place ≠ b.address)
    (hplace : ∀ a ∈ as, ∀ b ∈ as, a.place = b.place → a.offset = b.offset) :
    Loaded as c (Mmix.performAll w (as.flatMap Access.load) c) := by
  induction as generalizing c with
  | nil => exact ⟨rfl, fun _ _ => rfl, nofun⟩
  | cons a as ih =>
      have hrest := ih (Mmix.performAll w a.load c) (fun b hb => hreaches b (.tail _ hb))
        (fun b hb d hd => haddress b (.tail _ hb) d (.tail _ hd))
        (fun b hb d hd => hplace b (.tail _ hb) d (.tail _ hd))
      rw [List.flatMap_cons, Mmix.performAll_append]
      rw [performAll_load w c (hreaches a List.mem_cons_self)] at hrest ⊢
      generalize Mmix.performAll w (as.flatMap Access.load) _ = d at hrest ⊢
      refine ⟨hrest.hidden, fun t ht => ?_, fun b hb => ?_⟩
      · obtain ⟨⟨hne, hne'⟩, ht⟩ := List.forall_mem_cons.mp ht
        exact (hrest.kept t ht).trans
          ((Function.update_of_ne hne ..).trans (Function.update_of_ne hne' ..))
      · rcases List.mem_cons.mp hb with rfl | hb
        · -- What is loaded stays, or the same is loaded into it again.
          by_cases hagain : ∃ e ∈ as, b.place = e.place
          · obtain ⟨e, he, heq⟩ := hagain
            rw [hplace b List.mem_cons_self e (.tail _ he) heq, heq]
            exact hrest.place e he
          · rw [hrest.kept b.place fun e he =>
              ⟨fun heq => hagain ⟨e, he, heq⟩, haddress b List.mem_cons_self e (.tail _ he)⟩]
            exact Function.update_self ..
        · exact hrest.place b hb

/-- Some stores were carried out. -/
structure Stored (as : List Access) (c d : Core E) : Prop where
  hidden : d.hidden = { c.hidden with memory := d.hidden.memory }
  kept : ∀ t, (∀ a ∈ as, t ≠ a.address) → d.store t = c.store t
  memory : ∀ x, (∀ a ∈ as, x ≠ c.hidden.slotAddress a.offset / 8) →
    d.hidden.memory x = c.hidden.memory x
  slot : ∀ a ∈ as, d.hidden.memory.load (c.hidden.slotAddress a.offset) = c.store a.place

/-- Stores into different slots all take effect. -/
theorem stores_stored (hreaches : ∀ a ∈ as, a.Reaches)
    (haddress : ∀ a ∈ as, ∀ b ∈ as, a.place ≠ b.address)
    (hplace : ∀ a ∈ as, ∀ b ∈ as,
      c.hidden.slotAddress a.offset / 8 = c.hidden.slotAddress b.offset / 8 → a.place = b.place) :
    Stored as c (Mmix.performAll w (as.flatMap Access.store) c) := by
  induction as generalizing c with
  | nil => exact ⟨rfl, fun _ _ => rfl, fun _ _ => rfl, nofun⟩
  | cons a as ih =>
      have hne : a.place ≠ a.address := haddress a List.mem_cons_self a List.mem_cons_self
      have hrest := ih (Mmix.performAll w a.store c) (fun b hb => hreaches b (.tail _ hb))
        (fun b hb d hd => haddress b (.tail _ hb) d (.tail _ hd))
      rw [List.flatMap_cons, Mmix.performAll_append]
      rw [performAll_store w c (hreaches a List.mem_cons_self) hne] at hrest ⊢
      replace hrest := hrest fun b hb d hd => hplace b (.tail _ hb) d (.tail _ hd)
      generalize Mmix.performAll w (as.flatMap Access.store) _ = d at hrest ⊢
      -- What is stored later is not the address of this store.
      have hslot : ∀ b ∈ as,
          d.hidden.memory.load (c.hidden.slotAddress b.offset) = c.store b.place := by
        intro b hb
        exact (hrest.slot b hb).trans
          (Function.update_of_ne (haddress b (.tail _ hb) a List.mem_cons_self) ..)
      refine ⟨hrest.hidden, fun t ht => ?_, fun x hx => ?_, fun b hb => ?_⟩
      · obtain ⟨hne, ht⟩ := List.forall_mem_cons.mp ht
        exact (hrest.kept t ht).trans (Function.update_of_ne hne ..)
      · obtain ⟨hne, hx⟩ := List.forall_mem_cons.mp hx
        rw [hrest.memory x hx]
        exact Function.update_of_ne hne ..
      · rcases List.mem_cons.mp hb with rfl | hb
        · -- It stays, or the same is stored over it.
          by_cases hagain : ∃ e ∈ as,
              c.hidden.slotAddress b.offset / 8 = c.hidden.slotAddress e.offset / 8
          · obtain ⟨e, he, heq⟩ := hagain
            rw [hplace b List.mem_cons_self e (.tail _ he) heq, Memory.load, heq]
            exact hslot e he
          · rw [Memory.load, hrest.memory _ fun e he heq => hagain ⟨e, he, heq⟩]
            exact Function.update_self ..
        · exact hslot b hb

end Spill

end MmixCodegen
