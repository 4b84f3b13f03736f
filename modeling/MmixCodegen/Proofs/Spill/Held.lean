import MmixCodegen.Proofs.Spill.Cell
import Mathlib.Data.List.Nodup

/-!
# `MmixCodegen.Proofs.Spill.Held`: what a cell holds at the same time

What spilling makes is read and written within one cell, and so is a return value that is
loaded in front of a jump to the exit. `Cell.Confines` states this of a cell and the
temporaries that are shielded.

`Needs t is` says that `t` is needed before the instructions `is` of a cell, and
`Clash u v is` that two temporaries are held together by one of them. In a cell that
confines the shielded temporaries none of them is needed at the start
(`Confines.not_needs`), and there are few pairs of them that are held together: they are
listed by `Cell.Couples`. An address is in one of them at most.
-/

set_option autoImplicit false

namespace MmixCodegen

namespace Instr

variable {i j : Instr}

/-- What an instruction reads does not depend on its live sets. -/
theorem uses_congr (h : i.kind = j.kind) : i.uses = j.uses := by
  rw [uses, uses, h]

/-- What an instruction writes does not depend on its live sets. -/
theorem defs_congr (h : i.kind = j.kind) : i.defs = j.defs := by
  rw [defs, defs, h]

/-- Where an instruction jumps does not depend on its live sets. -/
theorem jumps_congr (h : i.kind = j.kind) : i.jumps = j.jumps := by
  rw [jumps, jumps, h]

/-- Which label an instruction sets does not depend on its live sets. -/
theorem label?_congr (h : i.kind = j.kind) : i.label? = j.label? := by
  rw [label?, label?, h]

/-- An instruction with as few operands as those that are selected. -/
structure Modest (i : Instr) : Prop where
  uses : i.uses.length ≤ 2
  defs : i.defs.length ≤ 1
  jump : i.jumps ≠ [] → i.defs = [] ∧ i.uses.length ≤ 1

/-- Whether an instruction is modest does not depend on its live sets. -/
theorem Modest.congr (h : j.Modest) (hkind : i.kind = j.kind) : i.Modest where
  uses := uses_congr hkind ▸ h.uses
  defs := defs_congr hkind ▸ h.defs
  jump := by
    rw [jumps_congr hkind, defs_congr hkind, uses_congr hkind]
    exact h.jump

/-- Other operands leave an instruction modest. -/
theorem Modest.rename (h : i.Modest) (ρ : Temp → Temp) : (i.rename ρ).Modest where
  uses := by
    rw [uses_rename, List.length_map]
    exact h.uses
  defs := by
    rw [defs_rename, List.length_map]
    exact h.defs
  jump := by
    intro hjumps
    rw [jumps_rename] at hjumps
    rw [defs_rename, uses_rename, List.map_eq_nil_iff, List.length_map]
    exact h.jump hjumps

/-- An instruction that does not jump and has no other operand than `x`. -/
structure Only (x : Temp) (i : Instr) : Prop where
  uses : ∀ t ∈ i.uses, t = x
  defs : ∀ t ∈ i.defs, t = x
  jumps : i.jumps = []

end Instr

namespace Spill

/-! ### Straight code -/

section Straight

variable (exit : Label) (result : Option Temp)

/-- Some instruction reads `t` before another one writes it. What `result` says is also
read where control may leave to `exit`. -/
def Needs (t : Temp) : List Instr → Prop
  | [] => False
  | i :: is => t ∈ i.uses ∨ (t ∉ i.defs ∧ ((exit ∈ i.jumps ∧ result = some t) ∨ Needs t is))

/-- Behind some instruction both temporaries are held: each of them is needed there, or has
just been written. -/
def Clash (u v : Temp) : List Instr → Prop
  | [] => False
  | i :: is => ((u ∈ i.defs ∨ Needs exit result u is) ∧ (v ∈ i.defs ∨ Needs exit result v is)) ∨
      Clash u v is

variable {exit result} {t u v x : Temp} {i : Instr} {is rest : List Instr}

/-- Two temporaries clash if behind some instruction both are held. -/
theorem clash_of_getElem? {index : Nat} (hi : is[index]? = some i)
    (hu : u ∈ i.defs ∨ Needs exit result u (is.drop (index + 1)))
    (hv : v ∈ i.defs ∨ Needs exit result v (is.drop (index + 1))) : Clash exit result u v is := by
  induction is generalizing index with
  | nil => cases hi
  | cons j is ih =>
      cases index with
      | zero =>
          cases hi
          exact .inl ⟨hu, hv⟩
      | succ index => exact .inr (ih hi hu hv)

/-- Code with no other operand than `x` needs `x` at most, apart from what is needed behind it. -/
theorem eq_or_needs_of_only (h : ∀ i ∈ is, i.Only x) (ht : Needs exit result t (is ++ rest)) :
    t = x ∨ Needs exit result t rest := by
  induction is with
  | nil => exact .inr ht
  | cons i is ih =>
      rw [List.forall_mem_cons] at h
      rcases ht with huse | ⟨-, ⟨hexit, -⟩ | ht⟩
      · exact .inl (h.1.uses t huse)
      · rw [h.1.jumps] at hexit
        cases hexit
      · exact ih h.2 ht

/-- In such code, a clash is one of `x` with something that is needed behind it, or comes later. -/
theorem clash_of_only (h : ∀ i ∈ is, i.Only x) (hclash : Clash exit result u v (is ++ rest)) :
    ((u = x ∨ Needs exit result u rest) ∧ (v = x ∨ Needs exit result v rest)) ∨
      Clash exit result u v rest := by
  induction is with
  | nil => exact .inr hclash
  | cons i is ih =>
      rw [List.forall_mem_cons] at h
      have hheld : ∀ t, t ∈ i.defs ∨ Needs exit result t (is ++ rest) →
          t = x ∨ Needs exit result t rest := by
        rintro t (hdef | ht)
        · exact .inl (h.1.defs t hdef)
        · exact eq_or_needs_of_only h.2 ht
      rcases hclash with ⟨hu, hv⟩ | hclash
      · exact .inl ⟨hheld u hu, hheld v hv⟩
      · exact ih h.2 hclash

end Straight

/-! ### Accesses -/

namespace Access

variable {a : Access} {exit : Label} {result : Option Temp} {t u v : Temp} {rest : List Instr}

/-- The address is set before anything else. -/
theorem locate_eq_cons (a : Access) :
    ∃ group n os, a.locate = Operation.set group a.address n :: os := by
  obtain ⟨group, n, os, heq, -⟩ :=
    Operation.loadConstant_eq_cons a.address (UInt64.ofNat a.offset.natAbs)
  rw [locate, heq]
  exact ⟨group, n, _, rfl⟩

/-- Locating a slot has no other operand than the address. -/
theorem only_locate : ∀ i ∈ a.locate.map Operation.instr, i.Only a.address := by
  intro i hi
  obtain ⟨o, ho, rfl⟩ := List.mem_map.mp hi
  rcases mem_locate ho with ⟨group, n, -, rfl | rfl⟩ | rfl
  · exact ⟨nofun, fun t ht => List.mem_singleton.mp ht, rfl⟩
  · exact ⟨fun t ht => List.mem_singleton.mp ht, fun t ht => List.mem_singleton.mp ht, rfl⟩
  · exact ⟨fun t ht => List.mem_singleton.mp ht, fun t ht => List.mem_singleton.mp ht, rfl⟩

/-- A load ends with the operation that loads. -/
theorem load_append (a : Access) (rest : List Instr) :
    a.load ++ rest =
      a.locate.map Operation.instr ++ (Operation.load a.place a.address 0).instr :: rest := by
  simp [load, loading]

/-- A store ends with the operation that stores. -/
theorem store_append (a : Access) (rest : List Instr) :
    a.store ++ rest =
      a.locate.map Operation.instr ++ (Operation.store a.place a.address 0).instr :: rest := by
  simp [store, storing]

/-- What is needed before the code that computes an address is not the address. -/
theorem ne_address_of_needs (ht : Needs exit result t (a.locate.map Operation.instr ++ rest)) :
    t ≠ a.address ∧ Needs exit result t rest := by
  have hne : t ≠ a.address := by
    obtain ⟨group, n, os, hlocate⟩ := a.locate_eq_cons
    rw [hlocate] at ht
    rcases ht with huse | ⟨hdef, -⟩
    · cases huse
    · exact fun heq => hdef (List.mem_singleton.mpr heq)
  exact ⟨hne, (eq_or_needs_of_only only_locate ht).resolve_left hne⟩

/-- In front of the operation that loads, its address is needed and its destination is not. -/
theorem needs_load_instr
    (ht : Needs exit result t ((Operation.load a.place a.address 0).instr :: rest)) :
    t = a.address ∨ (t ≠ a.place ∧ Needs exit result t rest) := by
  rcases ht with huse | ⟨hdef, ⟨hexit, -⟩ | ht⟩
  · exact .inl (List.mem_singleton.mp huse)
  · cases hexit
  · exact .inr ⟨fun heq => hdef (List.mem_singleton.mpr heq), ht⟩

/-- In front of the operation that stores, its address and its value are needed. -/
theorem needs_store_instr
    (ht : Needs exit result t ((Operation.store a.place a.address 0).instr :: rest)) :
    t = a.place ∨ t = a.address ∨ Needs exit result t rest := by
  rcases ht with huse | ⟨-, ⟨hexit, -⟩ | ht⟩
  · rcases List.mem_cons.mp huse with heq | huse
    · exact .inl heq
    · exact .inr (.inl (List.mem_singleton.mp huse))
  · cases hexit
  · exact .inr (.inr ht)

/-- What is loaded is not needed before the load, and neither is its address. -/
theorem needs_load (ht : Needs exit result t (a.load ++ rest)) :
    t ≠ a.place ∧ Needs exit result t rest := by
  rw [load_append] at ht
  obtain ⟨hne, ht⟩ := ne_address_of_needs ht
  exact (needs_load_instr ht).resolve_left hne

/-- In front of a store, its value is needed. The address is computed in it. -/
theorem needs_store (ht : Needs exit result t (a.store ++ rest)) :
    t = a.place ∨ Needs exit result t rest := by
  rw [store_append] at ht
  obtain ⟨hne, ht⟩ := ne_address_of_needs ht
  rcases needs_store_instr ht with heq | heq | ht
  · exact .inl heq
  · exact absurd heq hne
  · exact .inr ht

/-- While an address is computed it is held together with what is needed later; behind the
load it is not needed any more, but what is loaded is. -/
theorem clash_load (hclash : Clash exit result u v (a.load ++ rest)) :
    ((u = a.address ∨ (u ≠ a.place ∧ Needs exit result u rest)) ∧
        (v = a.address ∨ (v ≠ a.place ∧ Needs exit result v rest))) ∨
      ((u = a.place ∨ Needs exit result u rest) ∧ (v = a.place ∨ Needs exit result v rest)) ∨
      Clash exit result u v rest := by
  rw [load_append] at hclash
  rcases clash_of_only only_locate hclash with ⟨hu, hv⟩ | ⟨hu, hv⟩ | hclash
  · have hearly : ∀ t, t = a.address ∨ Needs exit result t
        ((Operation.load a.place a.address 0).instr :: rest) →
          t = a.address ∨ (t ≠ a.place ∧ Needs exit result t rest) :=
      fun t ht => ht.elim .inl needs_load_instr
    exact .inl ⟨hearly u hu, hearly v hv⟩
  · exact .inr (.inl ⟨hu.imp_left List.mem_singleton.mp, hv.imp_left List.mem_singleton.mp⟩)
  · exact .inr (.inr hclash)

/-- The last store of a cell holds what it stores, and the address. -/
theorem clash_store (hclash : Clash exit result u v a.store) :
    (u = a.address ∨ u = a.place) ∧ (v = a.address ∨ v = a.place) := by
  rw [← List.append_nil a.store, store_append] at hclash
  rcases clash_of_only only_locate hclash with ⟨hu, hv⟩ | ⟨hu, -⟩ | hclash
  · have hheld : ∀ t, t = a.address ∨ Needs exit result t
        [(Operation.store a.place a.address 0).instr] → t = a.address ∨ t = a.place := by
      rintro t (heq | ht)
      · exact .inl heq
      · rcases needs_store_instr ht with heq | heq | ht
        · exact .inr heq
        · exact .inl heq
        · exact ht.elim
    exact ⟨hheld u hu, hheld v hv⟩
  · rcases hu with hdef | hu
    · cases hdef
    · exact hu.elim
  · exact hclash.elim

end Access

/-! ### Cells -/

namespace Cell

/-- The temporaries that are loaded. -/
def loaded (c : Cell) : List Temp :=
  c.loads.map Access.place

/-- The temporaries that are stored. -/
def stored (c : Cell) : List Temp :=
  c.stores.map Access.place

/-- The temporaries that hold addresses. -/
def addresses (c : Cell) : List Temp :=
  (c.loads ++ c.stores).map Access.address

/-- The operands of loads and stores. -/
def accessed (c : Cell) : List Temp :=
  c.addresses ++ c.loaded ++ c.stored

/-- The operands of all instructions of a cell. -/
def temps (c : Cell) : List Temp :=
  c.accessed ++ c.body.operands

/-- The shielded temporaries of a cell are made for it, with numbers from `base` on: they
are loaded before its instruction or stored behind it, or hold an address. The one
exception is the return value in front of a jump to the exit. -/
structure Confines (base : Nat) (shielded : TempSet) (exit : Label) (rv : Temp)
    (result : Option Temp) (c : Cell) : Prop where
  modest : c.body.Modest
  address : ∀ t ∈ c.addresses, t ∈ shielded ∧ base ≤ t.number ∧ t ∉ c.body.operands
  addresses_nodup : c.addresses.Nodup
  loaded : ∀ t ∈ c.loaded, t ∈ shielded ∧
    ((base ≤ t.number ∧ t ∈ c.body.uses) ∨ (t = rv ∧ exit ∈ c.body.jumps))
  loaded_nodup : c.loaded.Nodup
  stored : ∀ t ∈ c.stored, t ∈ shielded ∧ base ≤ t.number ∧ t ∈ c.body.defs
  stored_nodup : c.stored.Nodup
  /-- No shielded temporary is read that was not loaded. -/
  uses : ∀ t ∈ c.body.uses, t ∈ shielded → t ∈ c.loaded
  /-- No shielded temporary is written that is not stored. -/
  defs : ∀ t ∈ c.body.defs, t ∈ shielded → t ∈ c.stored
  result : ∀ t, result = some t → t ∈ shielded → exit ∈ c.body.jumps → t ∈ c.loaded

/-- The pairs of temporaries that a cell holds together. -/
inductive Couples (c : Cell) : Temp → Temp → Prop
  /-- The second address is computed while the first temporary is loaded. -/
  | early {a b : Access} (h : c.loads = [a, b]) : Couples c b.address a.place
  | loaded {u v : Temp} (hu : u ∈ c.loaded) (hv : v ∈ c.loaded) : Couples c u v
  | late {b : Access} (h : b ∈ c.stores) : Couples c b.address b.place

/-- Two temporaries are held together, in whatever order they are named. -/
def Joins (c : Cell) (u v : Temp) : Prop :=
  c.Couples u v ∨ c.Couples v u

variable {c : Cell} {u v : Temp}

/-- The first one is an address, unless both are loaded. -/
theorem Couples.mem_left (h : c.Couples u v) :
    u ∈ c.addresses ∨ (u ∈ c.loaded ∧ v ∈ c.loaded) := by
  cases h with
  | early hloads =>
      rw [addresses, hloads]
      exact .inl (List.mem_cons_of_mem _ List.mem_cons_self)
  | loaded hu hv => exact .inr ⟨hu, hv⟩
  | late hb => exact .inl (List.mem_map_of_mem (List.mem_append_right _ hb))

/-- The second one of a couple is loaded or stored. -/
theorem Couples.mem_right (h : c.Couples u v) :
    v ∈ c.loaded ∨ v ∈ c.stored := by
  cases h with
  | early hloads =>
      rw [Cell.loaded, hloads]
      exact .inl List.mem_cons_self
  | loaded hu hv => exact .inl hv
  | late hb => exact .inr (List.mem_map_of_mem hb)

/-- What is held together with something is a temporary of the cell. -/
theorem Joins.mem_temps (h : c.Joins u v) : u ∈ c.temps := by
  simp only [temps, accessed, List.mem_append]
  rcases h with h | h
  · rcases h.mem_left with hu | ⟨hu, -⟩ <;> simp [hu]
  · rcases h.mem_right with hu | hu <;> simp [hu]

/-- Unless one of them is an address, both are loaded. -/
theorem Joins.mem_loaded (h : c.Joins u v) (hu : u ∉ c.addresses) (hv : v ∉ c.addresses) :
    u ∈ c.loaded ∧ v ∈ c.loaded := by
  rcases h with h | h
  · exact h.mem_left.resolve_left hu
  · exact (h.mem_left.resolve_left hv).symm

namespace Confines

variable {base : Nat} {shielded : TempSet} {exit : Label} {rv : Temp} {result : Option Temp}
  {c : Cell} {t u v w : Temp}

/-- A cell loads two temporaries at most, since its instruction reads two or leaves. -/
theorem length_loads_le (h : c.Confines base shielded exit rv result) : c.loads.length ≤ 2 := by
  have hlength : c.loaded.length = c.loads.length := List.length_map _
  rw [← hlength]
  by_cases hjumps : c.body.jumps = []
  · have hsub : c.loaded ⊆ c.body.uses := by
      intro t ht
      rcases (h.loaded t ht).2 with ⟨-, huse⟩ | ⟨-, hexit⟩
      · exact huse
      · rw [hjumps] at hexit
        cases hexit
    exact Nat.le_trans (h.loaded_nodup.subperm hsub).length_le h.modest.uses
  · -- A jump reads one temporary at most, so that there is room for the return value.
    have hsub : c.loaded ⊆ rv :: c.body.uses := by
      intro t ht
      rcases (h.loaded t ht).2 with ⟨-, huse⟩ | ⟨heq, -⟩
      · exact List.mem_cons_of_mem _ huse
      · exact List.mem_cons.mpr (.inl heq)
    have hle := (h.loaded_nodup.subperm hsub).length_le
    have huses := (h.modest.jump hjumps).2
    rw [List.length_cons] at hle
    omega

/-- A cell stores one temporary at most. -/
theorem length_stores_le (h : c.Confines base shielded exit rv result) : c.stores.length ≤ 1 := by
  have hlength : c.stored.length = c.stores.length := List.length_map _
  have hsub : c.stored ⊆ c.body.defs := fun t ht => (h.stored t ht).2.2
  have hle := (h.stored_nodup.subperm hsub).length_le
  have hdefs := h.modest.defs
  omega

/-- All operands of loads and stores are shielded. -/
theorem mem_shielded (h : c.Confines base shielded exit rv result) (ht : t ∈ c.accessed) :
    t ∈ shielded := by
  rw [accessed, List.mem_append, List.mem_append] at ht
  rcases ht with (ht | ht) | ht
  · exact (h.address t ht).1
  · exact (h.loaded t ht).1
  · exact (h.stored t ht).1

/-- Behind the instruction only what is stored is needed. -/
theorem mem_stored_of_needs (ht : Needs exit result t (c.stores.flatMap Access.store)) :
    t ∈ c.stored := by
  rw [Cell.stored]
  generalize c.stores = as at ht ⊢
  induction as with
  | nil => exact ht.elim
  | cons a as ih =>
      rw [List.flatMap_cons] at ht
      rcases Access.needs_store ht with rfl | ht
      · exact List.mem_cons_self
      · exact List.mem_cons_of_mem _ (ih ht)

/-- Before the instruction a shielded temporary is needed only if it was loaded. -/
theorem mem_loaded_of_needs (h : c.Confines base shielded exit rv result) (hmem : t ∈ shielded)
    (ht : Needs exit result t (c.body :: c.stores.flatMap Access.store)) : t ∈ c.loaded := by
  rcases ht with huse | ⟨hdef, ⟨hexit, hresult⟩ | ht⟩
  · exact h.uses t huse hmem
  · exact h.result t hresult hmem hexit
  · exact absurd (h.stored t (mem_stored_of_needs ht)).2.2 hdef

/-- Before the last loads `as` a shielded temporary is needed only if an earlier one loaded it. -/
theorem mem_loaded_of_needs_loads (h : c.Confines base shielded exit rv result)
    (hmem : t ∈ shielded) {as : List Access}
    (ht : Needs exit result t
      (as.flatMap Access.load ++ c.body :: c.stores.flatMap Access.store)) :
    t ∈ c.loaded ∧ t ∉ as.map Access.place := by
  induction as with
  | nil => exact ⟨h.mem_loaded_of_needs hmem ht, nofun⟩
  | cons a as ih =>
      rw [List.flatMap_cons, List.append_assoc] at ht
      obtain ⟨hne, ht⟩ := Access.needs_load ht
      obtain ⟨hloaded, hnot⟩ := ih ht
      refine ⟨hloaded, ?_⟩
      rw [List.map_cons, List.mem_cons, not_or]
      exact ⟨hne, hnot⟩

/-- No shielded temporary is needed where the cell begins. -/
theorem not_needs (h : c.Confines base shielded exit rv result) (hmem : t ∈ shielded) :
    ¬Needs exit result t c.toList := by
  intro ht
  obtain ⟨hloaded, hnot⟩ := h.mem_loaded_of_needs_loads hmem ht
  exact hnot hloaded

/-- Behind the instruction of a cell, an address is held together with what is stored. -/
theorem joins_of_clash_stores (h : c.Confines base shielded exit rv result) (hne : u ≠ v)
    (hclash : Clash exit result u v (c.stores.flatMap Access.store)) : c.Joins u v := by
  have hlength := h.length_stores_le
  -- There is at most one store, whose address and place are all that can clash.
  match hstores : c.stores with
  | [] =>
      rw [hstores] at hclash
      exact hclash.elim
  | [b] =>
      have hb : b ∈ c.stores := by
        rw [hstores]
        exact List.mem_singleton_self b
      rw [hstores, List.flatMap_singleton] at hclash
      obtain ⟨rfl | rfl, rfl | rfl⟩ := Access.clash_store hclash
      · exact absurd rfl hne
      · exact .inl (.late hb)
      · exact .inr (.late hb)
      · exact absurd rfl hne
  | _ :: _ :: _ =>
      rw [hstores] at hlength
      simp at hlength

/-- Behind the instruction itself no two shielded temporaries are held, since no more than
one is stored. -/
theorem joins_of_clash_body (h : c.Confines base shielded exit rv result) (hu : u ∈ shielded)
    (hv : v ∈ shielded) (hne : u ≠ v)
    (hclash : Clash exit result u v (c.body :: c.stores.flatMap Access.store)) : c.Joins u v := by
  rcases hclash with ⟨hu', hv'⟩ | hclash
  · have hstored : ∀ t ∈ shielded,
        t ∈ c.body.defs ∨ Needs exit result t (c.stores.flatMap Access.store) → t ∈ c.stored := by
      rintro t ht (hdef | hneeds)
      · exact h.defs t hdef ht
      · exact mem_stored_of_needs hneeds
    have hlength : c.stored.length ≤ 1 := by
      rw [Cell.stored, List.length_map]
      exact h.length_stores_le
    have hpair : [u, v] ⊆ c.stored := by
      simpa using ⟨hstored u hu hu', hstored v hv hv'⟩
    have hle := (List.Nodup.subperm (by simpa using hne) hpair).length_le
    simp only [List.length_cons, List.length_nil] at hle
    omega
  · exact h.joins_of_clash_stores hne hclash

/-- Whatever else is held while `a` computes its address was loaded by the first load. -/
theorem eq_place_of_needs (h : c.Confines base shielded exit rv result) (hmem : t ∈ shielded)
    {earlier as : List Access} {a : Access} (hloads : c.loads = earlier ++ a :: as)
    (hne : t ≠ a.place) (ht : Needs exit result t
      (as.flatMap Access.load ++ c.body :: c.stores.flatMap Access.store)) :
    ∃ b, c.loads = [b, a] ∧ t = b.place := by
  have hlength := h.length_loads_le
  obtain ⟨hloaded, hnot⟩ := h.mem_loaded_of_needs_loads hmem ht
  rw [Cell.loaded, hloads, List.map_append, List.map_cons, List.mem_append, List.mem_cons]
    at hloaded
  replace hloaded := hloaded.resolve_right (not_or.mpr ⟨hne, hnot⟩)
  rw [hloads, List.length_append, List.length_cons] at hlength
  -- There are at most two loads, so `a` is the second and `t` is held by the first.
  match earlier with
  | [] => cases hloaded
  | [b] =>
      have has : as = [] := by
        rw [← List.length_eq_zero_iff]
        simp only [List.length_cons, List.length_nil] at hlength
        omega
      exact ⟨b, by rw [hloads, has]; rfl, List.mem_singleton.mp hloaded⟩
  | _ :: _ :: _ =>
      simp only [List.length_cons] at hlength
      omega

/-- Shielded temporaries that are held together are joined by the cell. -/
theorem joins_of_clash (h : c.Confines base shielded exit rv result) (hu : u ∈ shielded)
    (hv : v ∈ shielded) (hne : u ≠ v) (hclash : Clash exit result u v c.toList) :
    c.Joins u v := by
  -- The induction goes through the loads from the first to the last.
  have hall : ∀ as earlier, c.loads = earlier ++ as →
      Clash exit result u v (as.flatMap Access.load ++ c.body :: c.stores.flatMap Access.store) →
        c.Joins u v := by
    intro as
    induction as with
    | nil => exact fun earlier _ hclash => h.joins_of_clash_body hu hv hne hclash
    | cons a as ih =>
        intro earlier hloads hclash
        have hplace : a.place ∈ c.loaded := by
          rw [Cell.loaded, hloads]
          simp
        rw [List.flatMap_cons, List.append_assoc] at hclash
        rcases Access.clash_load hclash with ⟨hu', hv'⟩ | ⟨hu', hv'⟩ | hclash
        · -- The address of `a` is not loaded yet.
          rcases hu' with rfl | ⟨hua, hu'⟩ <;> rcases hv' with rfl | ⟨hva, hv'⟩
          · exact absurd rfl hne
          · obtain ⟨b, hb, rfl⟩ := h.eq_place_of_needs hv hloads hva hv'
            exact .inl (.early hb)
          · obtain ⟨b, hb, rfl⟩ := h.eq_place_of_needs hu hloads hua hu'
            exact .inr (.early hb)
          · exact .inl (.loaded (h.mem_loaded_of_needs_loads hu hu').1
              (h.mem_loaded_of_needs_loads hv hv').1)
        · have hlater : ∀ t ∈ shielded, t = a.place ∨ Needs exit result t
              (as.flatMap Access.load ++ c.body :: c.stores.flatMap Access.store) →
                t ∈ c.loaded := by
            rintro t ht (rfl | hneeds)
            · exact hplace
            · exact (h.mem_loaded_of_needs_loads ht hneeds).1
          exact .inl (.loaded (hlater u hu hu') (hlater v hv hv'))
        · exact ih (earlier ++ [a]) (by rw [hloads, List.append_assoc]; rfl) hclash
  exact hall c.loads [] rfl hclash

/-! ### Few of them are joined -/

/-- What is loaded or stored does not hold an address. -/
theorem notMem_addresses (h : c.Confines base shielded exit rv result) (hrv : rv.number < base)
    (ht : t ∈ c.loaded ∨ t ∈ c.stored) : t ∉ c.addresses := by
  intro haddress
  obtain ⟨-, hbase, hnot⟩ := h.address t haddress
  rcases ht with ht | ht
  · rcases (h.loaded t ht).2 with ⟨-, huse⟩ | ⟨rfl, -⟩
    · exact hnot (List.mem_append_left _ huse)
    · omega
  · exact hnot (List.mem_append_right _ (h.stored t ht).2.2)

/-- An address is joined with one other temporary at most. -/
theorem eq_of_joins_address (h : c.Confines base shielded exit rv result) (hrv : rv.number < base)
    (ht : t ∈ c.addresses) (hu : c.Joins t u) (hv : c.Joins t v) : u = v := by
  have hcases : ∀ w, c.Joins t w → (∃ a b, c.loads = [a, b] ∧ b.address = t ∧ a.place = w) ∨
      ∃ b ∈ c.stores, b.address = t ∧ b.place = w := by
    rintro w (hw | hw)
    · cases hw with
      | early hloads => exact .inl ⟨_, _, hloads, rfl, rfl⟩
      | loaded hloaded _ => exact absurd ht (h.notMem_addresses hrv (.inl hloaded))
      | late hb => exact .inr ⟨_, hb, rfl, rfl⟩
    · exact absurd ht (h.notMem_addresses hrv hw.mem_right)
  have hnodup := h.addresses_nodup
  rw [addresses, List.map_append, List.nodup_append] at hnodup
  -- An address is that of a load or that of a store.
  have happart : ∀ a b b', c.loads = [a, b] → b' ∈ c.stores → b.address ≠ b'.address := by
    intro a b b' hloads hb'
    refine hnodup.2.2 _ (List.mem_map_of_mem ?_) _ (List.mem_map_of_mem hb')
    rw [hloads]
    exact List.mem_cons_of_mem _ (List.mem_singleton_self b)
  rcases hcases u hu with ⟨a, b, hloads, hb, rfl⟩ | ⟨b, hmem, hb, rfl⟩ <;>
    rcases hcases v hv with ⟨a', b', hloads', hb', rfl⟩ | ⟨b', hmem', hb', rfl⟩
  · rw [hloads] at hloads'
    cases hloads'
    rfl
  · exact absurd (hb.trans hb'.symm) (happart a b b' hloads hmem')
  · exact absurd (hb'.trans hb.symm) (happart a' b' b hloads' hmem)
  · rw [List.inj_on_of_nodup_map hnodup.2.1 hmem hmem' (hb.trans hb'.symm)]

/-- What does not hold an address is joined with one other such temporary at most. -/
theorem eq_of_joins_loaded (h : c.Confines base shielded exit rv result) (ht : t ∉ c.addresses)
    (hu : c.Joins t u) (hv : c.Joins t v) (hu' : u ∉ c.addresses) (hv' : v ∉ c.addresses)
    (htu : t ≠ u) (htv : t ≠ v) : u = v := by
  obtain ⟨-, hv⟩ := hv.mem_loaded ht hv'
  obtain ⟨ht, hu⟩ := hu.mem_loaded ht hu'
  by_contra hne
  have hnodup : [t, u, v].Nodup := by simp [htu, htv, hne]
  have hsub : [t, u, v] ⊆ c.loaded := by simp [ht, hu, hv]
  have hle := (hnodup.subperm hsub).length_le
  have hlength := h.length_loads_le
  rw [Cell.loaded, List.length_map] at hle
  simp only [List.length_cons, List.length_nil] at hle
  omega

end Confines

end Cell

end Spill

end MmixCodegen
