import MmixCodegen.Proofs.Spill.Sparse

/-!
# `MmixCodegen.Proofs.Spill.Layer`: cells within cells

A round of spilling that spills no shielded temporary leaves the loads and stores of a cell
alone and makes a new cell of its instruction. The two together are again a cell: that is
`Cell.layer`. It confines the shielded temporaries of the next round (`Confines.layer`).
-/

set_option autoImplicit false

namespace MmixCodegen

namespace Spill

/-! ### What is replaced -/

/-- Erasing repetitions leaves none. -/
theorem nodup_eraseDups (ts : List Temp) : ts.eraseDups.Nodup := by
  match ts with
  | [] => exact .nil
  | t :: ts =>
      rw [List.eraseDups_cons, List.nodup_cons, List.mem_eraseDups]
      refine ⟨?_, nodup_eraseDups _⟩
      simp
  termination_by ts.length
  decreasing_by exact Nat.lt_succ_of_le (List.length_filter_le _ _)

/-- The spilled temporaries of a list are listed once. -/
theorem nodup_spilledOf (spilled : TempSet) (ts : List Temp) : (spilledOf spilled ts).Nodup :=
  nodup_eraseDups _

namespace Cell.Renders

variable {frame : Frame} {spilled : TempSet} {leaving : Bool} {i : Instr} {first last : Nat}
  {slots : SlotTable} {ρ : Temp → Temp} {c : Cell} {t u : Temp}

/-- What a cell loads are the replacements of what is read, and the return
value if control leaves. -/
theorem loaded_eq (h : c.Renders frame spilled leaving i first last slots ρ) :
    c.loaded = (spilledOf spilled i.uses).map ρ ++ if leaving then [frame.rv] else [] := by
  have hplaces := congrArg (List.map Prod.snd) h.loads
  rw [List.map_map, List.map_append, List.map_map] at hplaces
  cases leaving <;> exact hplaces

/-- What a cell stores are the replacements of what is written. -/
theorem stored_eq (h : c.Renders frame spilled leaving i first last slots ρ) :
    c.stored = (spilledOf spilled i.defs).map ρ := by
  have hplaces := congrArg (List.map Prod.snd) h.stores
  rw [List.map_map, List.map_map] at hplaces
  exact hplaces

/-- A spilled operand is replaced by a new temporary. -/
theorem made (h : c.Renders frame spilled leaving i first last slots ρ) (ht : t ∈ i.operands)
    (hspilled : t ∈ spilled) : first ≤ (ρ t).number ∧ (ρ t).number < last :=
  h.replaces.made t (mem_spilledOf.mpr ⟨ht, hspilled⟩)

/-- What is not spilled is not replaced. -/
theorem rename_eq (h : c.Renders frame spilled leaving i first last slots ρ)
    (hspilled : t ∉ spilled) : ρ t = t :=
  h.replaces.kept t fun hmem => hspilled (mem_spilledOf.mp hmem).2

/-- The temporaries for addresses were made for the cell. -/
theorem mem_addresses (h : c.Renders frame spilled leaving i first last slots ρ)
    (ht : t ∈ c.addresses) : first ≤ t.number ∧ t.number < last := by
  obtain ⟨a, ha, rfl⟩ := List.mem_map.mp ht
  exact h.address a ha

/-- What is loaded is new, apart from the return value. -/
theorem mem_loaded (h : c.Renders frame spilled leaving i first last slots ρ) (ht : t ∈ c.loaded) :
    (first ≤ t.number ∧ t.number < last ∧ t ∈ c.body.uses) ∨ (leaving = true ∧ t = frame.rv) := by
  rw [h.loaded_eq, List.mem_append] at ht
  rcases ht with ht | ht
  · obtain ⟨u, hu, rfl⟩ := List.mem_map.mp ht
    obtain ⟨hmem, hspilled⟩ := mem_spilledOf.mp hu
    obtain ⟨hfirst, hlast⟩ := h.made (List.mem_append_left _ hmem) hspilled
    refine .inl ⟨hfirst, hlast, ?_⟩
    rw [h.body, Instr.uses_rename]
    exact List.mem_map_of_mem hmem
  · split at ht
    · next hleaving => exact .inr ⟨hleaving, List.mem_singleton.mp ht⟩
    · cases ht

/-- What a cell stores was made for it, and is written by its instruction. -/
theorem mem_stored (h : c.Renders frame spilled leaving i first last slots ρ) (ht : t ∈ c.stored) :
    first ≤ t.number ∧ t.number < last ∧ t ∈ c.body.defs := by
  rw [h.stored_eq] at ht
  obtain ⟨u, hu, rfl⟩ := List.mem_map.mp ht
  obtain ⟨hmem, hspilled⟩ := mem_spilledOf.mp hu
  obtain ⟨hfirst, hlast⟩ := h.made (List.mem_append_right _ hmem) hspilled
  refine ⟨hfirst, hlast, ?_⟩
  rw [h.body, Instr.defs_rename]
  exact List.mem_map_of_mem hmem

/-- The operands of loads and stores are new, apart from the return value. -/
theorem mem_accessed (h : c.Renders frame spilled leaving i first last slots ρ)
    (ht : t ∈ c.accessed) :
    (first ≤ t.number ∧ t.number < last) ∨ (leaving = true ∧ t = frame.rv) := by
  rw [accessed, List.mem_append, List.mem_append] at ht
  rcases ht with (ht | ht) | ht
  · exact .inl (h.mem_addresses ht)
  · exact (h.mem_loaded ht).imp_left fun hnew => ⟨hnew.1, hnew.2.1⟩
  · exact .inl ⟨(h.mem_stored ht).1, (h.mem_stored ht).2.1⟩

/-- An operand of the instruction of the cell is loaded, or was there before. -/
theorem mem_uses (h : c.Renders frame spilled leaving i first last slots ρ)
    (ht : t ∈ c.body.uses) : t ∈ c.loaded ∨ (t ∈ i.uses ∧ t ∉ spilled) := by
  rw [h.body, Instr.uses_rename] at ht
  obtain ⟨u, hu, rfl⟩ := List.mem_map.mp ht
  by_cases hspilled : u ∈ spilled
  · rw [h.loaded_eq]
    exact .inl (List.mem_append_left _ (List.mem_map_of_mem (mem_spilledOf.mpr ⟨hu, hspilled⟩)))
  · rw [h.rename_eq hspilled]
    exact .inr ⟨hu, hspilled⟩

/-- What the instruction of a cell writes is stored, or was written before and is not spilled. -/
theorem mem_defs (h : c.Renders frame spilled leaving i first last slots ρ)
    (ht : t ∈ c.body.defs) : t ∈ c.stored ∨ (t ∈ i.defs ∧ t ∉ spilled) := by
  rw [h.body, Instr.defs_rename] at ht
  obtain ⟨u, hu, rfl⟩ := List.mem_map.mp ht
  by_cases hspilled : u ∈ spilled
  · rw [h.stored_eq]
    exact .inl (List.mem_map_of_mem (mem_spilledOf.mpr ⟨hu, hspilled⟩))
  · rw [h.rename_eq hspilled]
    exact .inr ⟨hu, hspilled⟩

/-- An operand in a cell was made for it and is no address, or was there before
and is not spilled. -/
theorem mem_operands (h : c.Renders frame spilled leaving i first last slots ρ)
    (ht : t ∈ c.body.operands) :
    (first ≤ t.number ∧ t.number < last ∧ t ∉ c.addresses) ∨ (t ∈ i.operands ∧ t ∉ spilled) := by
  have hoperands : c.body.operands = i.operands.map ρ := by
    rw [Instr.operands, h.body, Instr.uses_rename, Instr.defs_rename, ← List.map_append]
    rfl
  rw [hoperands] at ht
  obtain ⟨u, hu, rfl⟩ := List.mem_map.mp ht
  by_cases hspilled : u ∈ spilled
  · obtain ⟨hfirst, hlast⟩ := h.made hu hspilled
    refine .inl ⟨hfirst, hlast, fun hmem => ?_⟩
    obtain ⟨a, ha, haddress⟩ := List.mem_map.mp hmem
    exact h.address_ne a ha u (mem_spilledOf.mpr ⟨hu, hspilled⟩) haddress.symm
  · rw [h.rename_eq hspilled]
    exact .inr ⟨hu, hspilled⟩

/-- Different temporaries have different replacements. -/
theorem nodup_places (h : c.Renders frame spilled leaving i first last slots ρ)
    {ts : List Temp} (hsub : ts ⊆ i.operands) : ((spilledOf spilled ts).map ρ).Nodup := by
  refine (nodup_spilledOf spilled ts).map_on fun t ht u hu heq => ?_
  have hmem : ∀ w ∈ spilledOf spilled ts, w ∈ spilledOf spilled i.operands :=
    fun w hw => mem_spilledOf.mpr ⟨hsub (mem_spilledOf.mp hw).1, (mem_spilledOf.mp hw).2⟩
  exact h.replaces.injective t (hmem t ht) u (hmem u hu) heq

/-- A cell loads no temporary twice. -/
theorem nodup_loaded (h : c.Renders frame spilled leaving i first last slots ρ)
    (hrv : frame.rv.number < first) : c.loaded.Nodup := by
  rw [h.loaded_eq, List.nodup_append]
  refine ⟨h.nodup_places (List.subset_append_left _ _), ?_, ?_⟩
  · cases leaving <;> simp
  · intro t ht u hu heq
    obtain ⟨w, hw, rfl⟩ := List.mem_map.mp ht
    obtain ⟨hmem, hspilled⟩ := mem_spilledOf.mp hw
    have hmade := h.made (List.mem_append_left _ hmem) hspilled
    split at hu
    · rw [heq, List.mem_singleton.mp hu] at hmade
      omega
    · cases hu

/-- A cell stores no temporary twice. -/
theorem nodup_stored (h : c.Renders frame spilled leaving i first last slots ρ) :
    c.stored.Nodup := by
  rw [h.stored_eq]
  exact h.nodup_places (List.subset_append_right _ _)

end Cell.Renders

/-! ### A cell around another one -/

/-- A round of spilling goes on from `shielded` to `shielded'`. Before it all temporaries
are below `mark`. -/
structure Widens (spilled shielded shielded' : TempSet) (mark : Nat) : Prop where
  disjoint : ∀ t ∈ spilled, t ∉ shielded
  subset : ∀ t ∈ shielded, t ∈ shielded'
  old : ∀ t ∈ shielded', t.number < mark → t ∈ shielded ∨ t ∈ spilled

namespace Cell

/-- The accesses of `c` around those of `d`, which has the instruction. -/
def layer (c d : Cell) : Cell :=
  ⟨c.loads ++ d.loads, d.body, d.stores ++ c.stores⟩

variable {c d : Cell} {t : Temp}

/-- The code of a layered cell is the inner cell between the accesses of the outer one. -/
theorem toList_layer (c d : Cell) :
    (c.layer d).toList = c.loads.flatMap Access.load ++ d.toList ++
      c.stores.flatMap Access.store := by
  simp [layer, toList]

/-- A layered cell loads what both cells load. -/
theorem loaded_layer (c d : Cell) : (c.layer d).loaded = c.loaded ++ d.loaded :=
  List.map_append

/-- A layered cell stores what both cells store. -/
theorem stored_layer (c d : Cell) : (c.layer d).stored = d.stored ++ c.stored :=
  List.map_append

/-- A layered cell has the addresses of both cells, in another order. -/
theorem addresses_layer (c d : Cell) : (c.layer d).addresses.Perm (c.addresses ++ d.addresses) := by
  rw [addresses, addresses, addresses, ← List.map_append]
  refine List.Perm.map _ ?_
  -- The stores of `c` go in front of the cell `d`.
  show (c.loads ++ d.loads ++ (d.stores ++ c.stores)).Perm _
  rw [List.append_assoc, List.append_assoc]
  refine List.Perm.append_left _ ?_
  rw [← List.append_assoc]
  exact List.perm_append_comm

/-- What is accessed in a layered cell is accessed in one of the two. -/
theorem mem_accessed_layer (ht : t ∈ (c.layer d).accessed) : t ∈ c.accessed ∨ t ∈ d.accessed := by
  simp only [accessed, loaded_layer, stored_layer, List.mem_append, (addresses_layer c d).mem_iff]
    at ht ⊢
  tauto

/-- An address of a layered cell is one of either cell. -/
theorem mem_addresses_layer : t ∈ (c.layer d).addresses ↔ t ∈ c.addresses ∨ t ∈ d.addresses := by
  rw [(addresses_layer c d).mem_iff, List.mem_append]

section Layer

variable {base mark first last : Nat} {spilled shielded shielded' : TempSet} {exit : Label}
  {frame : Frame} {result result' : Option Temp} {leaving : Bool} {i : Instr} {slots : SlotTable}
  {ρ : Temp → Temp}

/-- The new cell `d` of the instruction of `c`, in a round before which all temporaries are below
`mark`. What is made for it is shielded, and so is a return value that is loaded there. -/
structure Wraps (base mark : Nat) (spilled shielded shielded' : TempSet) (exit : Label)
    (frame : Frame) (leaving : Bool) (i : Instr) (first last : Nat) (slots : SlotTable)
    (ρ : Temp → Temp) (c d : Cell) : Prop
    extends Widens spilled shielded shielded' mark where
  renders : d.Renders frame spilled leaving i first last slots ρ
  kind : i.kind = c.body.kind
  mark_le : mark ≤ first
  base_le : base ≤ mark
  rv : frame.rv.number < base
  below : ∀ t ∈ c.temps, t.number < mark
  shields : ∀ t, first ≤ t.number → t.number < last → t ∈ shielded'
  leaves : leaving = true → frame.rv ∈ spilled ∧ frame.rv ∈ shielded' ∧ exit ∈ i.jumps

namespace Wraps

variable
  (h : Wraps base mark spilled shielded shielded' exit frame leaving i first last slots ρ c d)
include h

/-- The instruction that is wrapped is that of the inner cell, up to live sets. -/
theorem operands_eq : i.operands = c.body.operands := by
  rw [Instr.operands, Instr.operands, Instr.uses_congr h.kind, Instr.defs_congr h.kind]

/-- The instruction still jumps to where it did. -/
theorem jumps_eq : d.body.jumps = c.body.jumps := by
  rw [h.renders.body, Instr.jumps_rename, Instr.jumps_congr h.kind]

/-- All operands were there before the round. -/
theorem below_operands (ht : t ∈ i.operands) : t.number < mark := by
  rw [h.operands_eq] at ht
  exact h.below t (List.mem_append_right _ ht)

/-- Whatever was shielded stays an operand. -/
theorem mem_uses (ht : t ∈ shielded) (huse : t ∈ c.body.uses) : t ∈ d.body.uses := by
  have hkept : ρ t = t := h.renders.rename_eq fun hmem => h.disjoint t hmem ht
  rw [h.renders.body, Instr.uses_rename, List.mem_map]
  exact ⟨t, Instr.uses_congr h.kind ▸ huse, hkept⟩

/-- A shielded temporary that was written is still written. -/
theorem mem_defs (ht : t ∈ shielded) (hdef : t ∈ c.body.defs) : t ∈ d.body.defs := by
  have hkept : ρ t = t := h.renders.rename_eq fun hmem => h.disjoint t hmem ht
  rw [h.renders.body, Instr.defs_rename, List.mem_map]
  exact ⟨t, Instr.defs_congr h.kind ▸ hdef, hkept⟩

/-- An operand from before the round is shielded only if it was. -/
theorem shielded_of_operands (ht : t ∈ i.operands) (hspilled : t ∉ spilled)
    (hmem : t ∈ shielded') : t ∈ shielded :=
  (h.old t hmem (h.below_operands ht)).resolve_right hspilled

/-- The addresses of a layered cell are shielded, and no operands of its instruction. -/
theorem address (hc : ∀ t ∈ c.addresses, t ∈ shielded ∧ base ≤ t.number ∧ t ∉ c.body.operands) :
    ∀ t ∈ (c.layer d).addresses, t ∈ shielded' ∧ base ≤ t.number ∧ t ∉ d.body.operands := by
  have hmark := h.mark_le
  have hbase := h.base_le
  intro t ht
  rcases mem_addresses_layer.mp ht with ht | ht
  · obtain ⟨hshielded, hle, hnot⟩ := hc t ht
    have hbelow : t.number < mark := h.below t (by simp [temps, accessed, ht])
    refine ⟨h.subset t hshielded, hle, fun hmem => ?_⟩
    rcases h.renders.mem_operands hmem with ⟨hfirst, -⟩ | ⟨hmem, -⟩
    · omega
    · exact hnot (h.operands_eq ▸ hmem)
  · obtain ⟨hfirst, hlast⟩ := h.renders.mem_addresses ht
    refine ⟨h.shields t hfirst hlast, by omega, fun hmem => ?_⟩
    rcases h.renders.mem_operands hmem with ⟨-, -, hnot⟩ | ⟨hmem, -⟩
    · exact hnot ht
    · have hbelow := h.below_operands hmem
      omega

/-- No temporary holds two addresses of a layered cell. -/
theorem addresses_nodup (hc : c.addresses.Nodup) : (c.layer d).addresses.Nodup := by
  have hmark := h.mark_le
  rw [(addresses_layer c d).nodup_iff, List.nodup_append]
  refine ⟨hc, h.renders.nodup, ?_⟩
  rintro t ht _ hu rfl
  have hbelow : t.number < mark := h.below t (by simp [temps, accessed, ht])
  have hfirst := (h.renders.mem_addresses hu).1
  omega

/-- What a layered cell loads is shielded, and read by its instruction or returned. -/
theorem loaded (hc : ∀ t ∈ c.loaded, t ∈ shielded ∧
      ((base ≤ t.number ∧ t ∈ c.body.uses) ∨ (t = frame.rv ∧ exit ∈ c.body.jumps))) :
    ∀ t ∈ (c.layer d).loaded, t ∈ shielded' ∧
      ((base ≤ t.number ∧ t ∈ d.body.uses) ∨ (t = frame.rv ∧ exit ∈ d.body.jumps)) := by
  have hmark := h.mark_le
  have hbase := h.base_le
  intro t ht
  rw [h.jumps_eq]
  rw [loaded_layer, List.mem_append] at ht
  rcases ht with ht | ht
  · obtain ⟨hshielded, hcases⟩ := hc t ht
    exact ⟨h.subset t hshielded, hcases.imp_left fun ⟨hle, huse⟩ =>
      ⟨hle, h.mem_uses hshielded huse⟩⟩
  · rcases h.renders.mem_loaded ht with ⟨hfirst, hlast, huse⟩ | ⟨hleaving, rfl⟩
    · exact ⟨h.shields t hfirst hlast, .inl ⟨by omega, huse⟩⟩
    · obtain ⟨-, hshielded, hexit⟩ := h.leaves hleaving
      exact ⟨hshielded, .inr ⟨rfl, Instr.jumps_congr h.kind ▸ hexit⟩⟩

/-- A layered cell loads no temporary twice. -/
theorem loaded_nodup (hc : c.loaded.Nodup) (hshielded : ∀ t ∈ c.loaded, t ∈ shielded) :
    (c.layer d).loaded.Nodup := by
  have hmark := h.mark_le
  have hbase := h.base_le
  have hrv := h.rv
  rw [loaded_layer, List.nodup_append]
  refine ⟨hc, h.renders.nodup_loaded (by omega), ?_⟩
  rintro t ht _ hu rfl
  rcases h.renders.mem_loaded hu with ⟨hfirst, -, -⟩ | ⟨hleaving, rfl⟩
  · have hbelow : t.number < mark := h.below t (by simp [temps, accessed, ht])
    omega
  · -- The return value is not loaded twice, since it is shielded once it was loaded.
    exact h.disjoint _ (h.leaves hleaving).1 (hshielded _ ht)

/-- What a layered cell stores is shielded, and written by its instruction. -/
theorem stored (hc : ∀ t ∈ c.stored, t ∈ shielded ∧ base ≤ t.number ∧ t ∈ c.body.defs) :
    ∀ t ∈ (c.layer d).stored, t ∈ shielded' ∧ base ≤ t.number ∧ t ∈ d.body.defs := by
  have hmark := h.mark_le
  have hbase := h.base_le
  intro t ht
  rw [stored_layer, List.mem_append] at ht
  rcases ht with ht | ht
  · obtain ⟨hfirst, hlast, hdef⟩ := h.renders.mem_stored ht
    exact ⟨h.shields t hfirst hlast, by omega, hdef⟩
  · obtain ⟨hshielded, hle, hdef⟩ := hc t ht
    exact ⟨h.subset t hshielded, hle, h.mem_defs hshielded hdef⟩

/-- A layered cell stores no temporary twice. -/
theorem stored_nodup (hc : c.stored.Nodup) : (c.layer d).stored.Nodup := by
  have hmark := h.mark_le
  rw [stored_layer, List.nodup_append]
  refine ⟨h.renders.nodup_stored, hc, ?_⟩
  rintro t ht _ hu rfl
  have hfirst := (h.renders.mem_stored ht).1
  have hbelow : t.number < mark := h.below t (by simp [temps, accessed, hu])
  omega

/-- A cell around another one confines the temporaries that are shielded next. -/
theorem confines (hc : c.Confines base shielded exit frame.rv result)
    (hresult : ∀ t, result' = some t → t ∈ shielded' → exit ∈ i.jumps →
      (t ∈ shielded ∧ result = some t) ∨ (leaving = true ∧ t = frame.rv)) :
    (c.layer d).Confines base shielded' exit frame.rv result' where
  modest := by
    have hmodest : i.Modest := hc.modest.congr h.kind
    show d.body.Modest
    rw [h.renders.body]
    exact hmodest.rename ρ
  address := h.address hc.address
  addresses_nodup := h.addresses_nodup hc.addresses_nodup
  loaded := h.loaded hc.loaded
  loaded_nodup := h.loaded_nodup hc.loaded_nodup fun t ht => (hc.loaded t ht).1
  stored := h.stored hc.stored
  stored_nodup := h.stored_nodup hc.stored_nodup
  -- A shielded operand is one that this layer renamed, or that an earlier one did. This
  -- layer loads and stores the first, and the cell below it the second.
  uses := by
    intro t huse hmem
    rw [loaded_layer, List.mem_append]
    rcases h.renders.mem_uses huse with hloaded | ⟨huse, hspilled⟩
    · exact .inr hloaded
    · have hshielded := h.shielded_of_operands (List.mem_append_left _ huse) hspilled hmem
      exact .inl (hc.uses t (Instr.uses_congr h.kind ▸ huse) hshielded)
  defs := by
    intro t hdef hmem
    rw [stored_layer, List.mem_append]
    rcases h.renders.mem_defs hdef with hstored | ⟨hdef, hspilled⟩
    · exact .inl hstored
    · have hshielded := h.shielded_of_operands (List.mem_append_right _ hdef) hspilled hmem
      exact .inr (hc.defs t (Instr.defs_congr h.kind ▸ hdef) hshielded)
  result := by
    intro t ht hmem hexit
    replace hexit : exit ∈ c.body.jumps := h.jumps_eq ▸ hexit
    rw [loaded_layer, List.mem_append]
    rcases hresult t ht hmem (Instr.jumps_congr h.kind ▸ hexit) with ⟨hshielded, ht⟩ |
      ⟨hleaving, rfl⟩
    · exact .inl (hc.result t ht hshielded hexit)
    · rw [h.renders.loaded_eq, if_pos hleaving]
      exact .inr (List.mem_append_right _ (List.mem_singleton_self _))

end Wraps

end Layer

end Cell

end Spill

end MmixCodegen
