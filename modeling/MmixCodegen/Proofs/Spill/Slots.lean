import MmixCodegen.Spill
import MmixCodegen.Proofs.Mmix.Step

/-!
# `MmixCodegen.Proofs.Spill.Slots`: the slots of a frame

A slot that is given out is never moved (`SlotTable.Extends`). The slots that are given
out from an empty table on are `Laid` one below the other, eight bytes apart. So
different temporaries have different octabytes, wherever the frame pointer points
(`Laid.slotAddress_div_ne`).
-/

set_option autoImplicit false

namespace MmixCodegen

/-- The address of a slot. -/
def Mmix.Hidden.slotAddress {E : Type} (h : Hidden E) (offset : Int) : Word :=
  h.global .framePointer - UInt64.ofInt offset

namespace SlotTable

variable {s s' s'' : SlotTable} {localsSize offset : Int} {t : Temp}

/-- The largest offset in decimal digits, for arithmetic. -/
theorem maxOffset_eq : maxOffset = 9223372036854775807 := rfl

/-- The slots of a table are where they were. -/
def Extends (s s' : SlotTable) : Prop :=
  ∀ ⦃t : Temp⦄ ⦃offset : Int⦄, s.offsets[t]? = some offset → s'.offsets[t]? = some offset

/-- A slot that is kept twice is kept. -/
theorem Extends.trans (h : s.Extends s') (h' : s'.Extends s'') : s.Extends s'' :=
  fun _ _ ht => h' (h ht)

/-- Either there is a slot already, or the next one is taken. -/
theorem slotOf_cases (h : s.slotOf localsSize t = .ok (offset, s')) :
    (s.offsets[t]? = some offset ∧ s' = s) ∨
      (s.offsets[t]? = none ∧ offset = localsSize + savedArea + (s.size + slotSize) ∧
        offset ≤ maxOffset ∧ s' = ⟨s.size + slotSize, s.offsets.insert t offset⟩) := by
  unfold slotOf at h
  split at h
  · next hsome =>
      cases h
      exact .inl ⟨hsome, rfl⟩
  · next hnone =>
      dsimp only at h
      split at h
      · next hle =>
          cases h
          exact .inr ⟨hnone, rfl, hle, rfl⟩
      · cases h

/-- Asking for a slot moves none of the others. -/
theorem extends_slotOf (h : s.slotOf localsSize t = .ok (offset, s')) : s.Extends s' := by
  rcases slotOf_cases h with ⟨-, rfl⟩ | ⟨hnone, -, -, rfl⟩
  · exact fun _ _ hu => hu
  · intro u place hu
    have hne : t ≠ u := by
      rintro rfl
      rw [hnone] at hu
      cases hu
    simpa [Std.ExtTreeMap.getElem?_insert, hne] using hu

/-- The slot that is given out is the one in the table. -/
theorem getElem?_slotOf (h : s.slotOf localsSize t = .ok (offset, s')) :
    s'.offsets[t]? = some offset := by
  rcases slotOf_cases h with ⟨hsome, rfl⟩ | ⟨-, -, -, rfl⟩
  · exact hsome
  · simp

/-- Slots are given out one below the other. -/
structure Laid (localsSize : Int) (s : SlotTable) : Prop where
  size : ∃ n : Nat, s.size = slotSize * n
  /-- A slot is one of those that the size counts. -/
  offset : ∀ ⦃t : Temp⦄ ⦃offset : Int⦄, s.offsets[t]? = some offset → offset ≤ maxOffset ∧
    ∃ n : Nat, offset = localsSize + savedArea + slotSize * (n + 1) ∧ slotSize * (n + 1) ≤ s.size
  injective : ∀ ⦃t u : Temp⦄ ⦃offset : Int⦄, s.offsets[t]? = some offset →
    s.offsets[u]? = some offset → t = u

/-- A table without slots is laid out. -/
theorem laid_empty (localsSize : Int) : empty.Laid localsSize where
  size := ⟨0, rfl⟩
  offset := by simp [empty]
  injective := by simp [empty]

/-- A new slot lies below all others. -/
theorem laid_slotOf (hlaid : s.Laid localsSize) (h : s.slotOf localsSize t = .ok (offset, s')) :
    s'.Laid localsSize := by
  rcases slotOf_cases h with ⟨-, rfl⟩ | ⟨hnone, hoffset, hle, rfl⟩
  · exact hlaid
  · obtain ⟨n, hn⟩ := hlaid.size
    -- The new slot lies below all others.
    have hbelow : ∀ ⦃u : Temp⦄ ⦃place : Int⦄, s.offsets[u]? = some place → place < offset := by
      intro u place hu
      obtain ⟨-, k, hk, hsize⟩ := hlaid.offset hu
      simp only [slotSize] at hk hsize hoffset
      omega
    refine ⟨⟨n + 1, ?_⟩, fun u place hu => ?_, fun u v place hu hv => ?_⟩
    · simp only [slotSize] at hn ⊢
      omega
    · by_cases hut : t = u
      · obtain rfl : offset = place := by simpa [hut] using hu
        refine ⟨hle, n, ?_, ?_⟩
        · simp only [slotSize] at hoffset hn ⊢
          omega
        · simp only [slotSize] at hn ⊢
          omega
      · obtain ⟨hmax, k, hk, hsize⟩ :=
          hlaid.offset (by simpa [Std.ExtTreeMap.getElem?_insert, hut] using hu)
        refine ⟨hmax, k, hk, ?_⟩
        simp only [slotSize] at hsize ⊢
        omega
    · by_cases hut : t = u <;> by_cases hvt : t = v
      · exact hut.symm.trans hvt
      · obtain rfl : offset = place := by simpa [hut] using hu
        exact absurd (hbelow (by simpa [Std.ExtTreeMap.getElem?_insert, hvt] using hv))
          (Int.lt_irrefl _)
      · obtain rfl : offset = place := by simpa [hvt] using hv
        exact absurd (hbelow (by simpa [Std.ExtTreeMap.getElem?_insert, hut] using hu))
          (Int.lt_irrefl _)
      · exact hlaid.injective (by simpa [Std.ExtTreeMap.getElem?_insert, hut] using hu)
          (by simpa [Std.ExtTreeMap.getElem?_insert, hvt] using hv)

/-! ### Addresses -/

/-- With locals of a sensible size, no slot lies above the frame pointer. -/
theorem Laid.nonneg (hlaid : s.Laid localsSize) (hlocals : 0 ≤ localsSize)
    (ht : s.offsets[t]? = some offset) : 0 ≤ offset := by
  obtain ⟨-, n, hn, -⟩ := hlaid.offset ht
  simp only [savedArea, slotSize] at hn
  omega

/-- The distance that the code of a slot loads is its offset. -/
theorem Laid.ofNat_natAbs (hlaid : s.Laid localsSize) (hlocals : 0 ≤ localsSize)
    (ht : s.offsets[t]? = some offset) : UInt64.ofNat offset.natAbs = UInt64.ofInt offset := by
  have hnonneg := hlaid.nonneg hlocals ht
  apply UInt64.toNat_inj.mp
  rw [UInt64.ofInt, UInt64.toNat_ofNat', UInt64.toNat_ofNat']
  omega

/-- Different slots are in different octabytes. -/
theorem Laid.slotAddress_div_ne {E : Type} (hlaid : s.Laid localsSize) (hlocals : 0 ≤ localsSize)
    {u : Temp} {place : Int} (ht : s.offsets[t]? = some offset) (hu : s.offsets[u]? = some place)
    (hne : t ≠ u) (h : Mmix.Hidden E) : h.slotAddress offset / 8 ≠ h.slotAddress place / 8 := by
  intro heq
  obtain ⟨hmax, n, hn, -⟩ := hlaid.offset ht
  obtain ⟨hmax', k, hk, -⟩ := hlaid.offset hu
  have hoffset : offset ≠ place := fun heq => hne (hlaid.injective ht (heq ▸ hu))
  rw [Mmix.Hidden.slotAddress, Mmix.Hidden.slotAddress, ← hlaid.ofNat_natAbs hlocals ht,
    ← hlaid.ofNat_natAbs hlocals hu] at heq
  have hnat := congrArg UInt64.toNat heq
  have height : (8 : UInt64).toNat = 8 := rfl
  simp only [UInt64.toNat_div, UInt64.toNat_sub, UInt64.toNat_ofNat', height] at hnat
  simp only [savedArea, slotSize, maxOffset_eq] at hn hk hmax hmax'
  omega

end SlotTable

end MmixCodegen
