import MmixCodegen.Proofs.Mmix.Step

/-!
# `MmixCodegen.Proofs.Mmix.Constant`: loading a word

A word is the sum of its four groups (`Wyde.total_all`), and groups that are zero can be
left out of the sum (`Wyde.total_nonzero`). `Operation.loadConstant` sets the first of
the others and adds the rest, so that its destination ends up with the word and nothing
else changes: `Operation.performAll_loadConstant`.
-/

set_option autoImplicit false

namespace MmixCodegen

namespace Wyde

/-- What a group adds to a word. -/
def part (group : Wyde) (v : Word) : Word :=
  group.put (UInt64.ofNat (group.get v))

/-- What some groups of a word make together. -/
def total (groups : List Wyde) (v : Word) : Word :=
  (groups.map fun group => group.part v).foldr (· + ·) 0

/-- A group has sixteen bits. -/
theorem get_lt (group : Wyde) (v : Word) : group.get v < UInt16.size :=
  Nat.mod_lt _ (by decide)

/-- A number that fits into a group is put there by a multiplication. -/
theorem toNat_put (group : Wyde) {n : Nat} (hn : n < UInt16.size) :
    (group.put (UInt64.ofNat n)).toNat = n * 2 ^ group.shift := by
  have hn : n < 2 ^ 16 := hn
  have hshift : group.shift ≤ 48 := by cases group <;> decide
  have hfits : n * 2 ^ group.shift < 2 ^ 64 := by
    calc n * 2 ^ group.shift
        ≤ n * 2 ^ 48 := Nat.mul_le_mul_left _ (Nat.pow_le_pow_right (by decide) hshift)
      _ < 2 ^ 64 := by omega
  rw [put, UInt64.toNat_shiftLeft, UInt64.toNat_ofNat', UInt64.toNat_ofNat',
    Nat.mod_eq_of_lt (by omega : n < 2 ^ 64),
    Nat.mod_eq_of_lt (by omega : group.shift < 2 ^ 64),
    Nat.mod_eq_of_lt (by omega : group.shift < 64), Nat.shiftLeft_eq, Nat.mod_eq_of_lt hfits]

/-- What a group adds to a word is its digit times the value of its place. -/
theorem toNat_part (group : Wyde) (v : Word) :
    (group.part v).toNat = group.get v * 2 ^ group.shift :=
  toNat_put group (group.get_lt v)

/-- A word is the sum of its four groups. -/
theorem total_all (v : Word) : total all v = v := by
  have hv := v.toNat_lt
  apply UInt64.toNat_inj.mp
  simp only [total, all, List.map_cons, List.map_nil, List.foldr_cons, List.foldr_nil,
    UInt64.toNat_add, toNat_part, get, shift, UInt16.size]
  rw [show (0 : Word).toNat = 0 from rfl]
  omega

/-- Groups that are zero can be left out of the sum. -/
theorem total_nonzero (v : Word) : total (Operation.nonzeroWydes v) v = v := by
  have hfilter : ∀ groups : List Wyde,
      total (groups.filter fun group => group.get v ≠ 0) v = total groups v := by
    intro groups
    induction groups with
    | nil => rfl
    | cons group groups ih =>
        rw [total, total] at ih
        rw [total, total, List.map_cons, List.foldr_cons]
        by_cases hzero : group.get v = 0
        · -- A group that is zero adds nothing.
          have hpart : group.part v = 0 := by
            apply UInt64.toNat_inj.mp
            rw [toNat_part, hzero, Nat.zero_mul]
            rfl
          rw [List.filter_cons_of_neg (by simp [hzero]), ih, hpart, UInt64.zero_add]
        · rw [List.filter_cons_of_pos (by simp [hzero]), List.map_cons, List.foldr_cons, ih]
  rw [Operation.nonzeroWydes, hfilter, total_all]

end Wyde

namespace Operation

variable {E : Type} (w : Mmix.World E) (c : Mmix.Core E) (dst : Temp)

/-- Setting a group makes the other groups zero. -/
theorem perform_set (group : Wyde) {n : Nat} (hn : n < UInt16.size) :
    Mmix.perform w (set group dst n).instr c =
      ⟨Function.update c.store dst (group.put (UInt64.ofNat n)), c.hidden⟩ := by
  rw [perform_instr (proper_set group hn).toReadable]
  rfl

/-- Adding to a group carries into the groups above. -/
theorem perform_inc (group : Wyde) {n : Nat} (hn : n < UInt16.size) :
    Mmix.perform w (inc group dst n).instr c =
      ⟨Function.update c.store dst (c.store dst + group.put (UInt64.ofNat n)), c.hidden⟩ := by
  rw [perform_instr (proper_inc group hn).toReadable]
  rfl

/-- A sequence of `INC` operations adds up the groups and changes nothing else. -/
theorem performAll_inc (groups : List Wyde) (v : Word) :
    Mmix.performAll w (groups.map fun group => (inc group dst (group.get v)).instr) c =
      ⟨Function.update c.store dst (c.store dst + Wyde.total groups v), c.hidden⟩ := by
  induction groups generalizing c with
  | nil => simp [Mmix.performAll, Wyde.total]
  | cons group groups ih =>
      rw [List.map_cons, Mmix.performAll, List.foldl_cons, ← Mmix.performAll,
        perform_inc w c dst group (group.get_lt v), ih]
      simp [Wyde.total, Wyde.part, UInt64.add_assoc]

/-- The destination gets the word, and nothing else changes. -/
theorem performAll_loadConstant (v : Word) :
    Mmix.performAll w ((loadConstant dst v).map instr) c =
      ⟨Function.update c.store dst v, c.hidden⟩ := by
  have htotal := Wyde.total_nonzero v
  rw [loadConstant]
  split
  · next hnone =>
      -- Without a group that is not zero, the word is zero.
      rw [hnone] at htotal
      rw [List.map_singleton, Mmix.performAll, List.foldl_cons, List.foldl_nil,
        perform_set w c dst .low (by decide), ← htotal]
      rfl
  · next first rest hgroups =>
      rw [hgroups, Wyde.total, List.map_cons, List.foldr_cons] at htotal
      rw [List.map_cons, List.map_map, Mmix.performAll, List.foldl_cons, ← Mmix.performAll,
        perform_set w c dst first (first.get_lt v)]
      refine (performAll_inc w _ dst rest v).trans ?_
      simp only [Function.update_self, Function.update_idem]
      rw [← Wyde.part, Wyde.total, htotal]

/-- The destination is set before anything is added to it, and the numbers fit into a group. -/
theorem loadConstant_eq_cons (v : Word) :
    ∃ group n os, loadConstant dst v = set group dst n :: os ∧ n < UInt16.size ∧
      ∀ o ∈ os, ∃ group n, o = inc group dst n ∧ n < UInt16.size := by
  rw [loadConstant]
  split
  · exact ⟨_, _, [], rfl, by decide, List.forall_mem_nil _⟩
  · next first rest _ =>
      refine ⟨first, _, _, rfl, first.get_lt v, fun o ho => ?_⟩
      obtain ⟨group, -, rfl⟩ := List.mem_map.mp ho
      exact ⟨group, _, rfl, group.get_lt v⟩

/-- The operation sets a group of `dst`, or adds to one. -/
def Packs (dst : Temp) (o : Operation) : Prop :=
  ∃ group n, n < UInt16.size ∧ (o = set group dst n ∨ o = inc group dst n)

/-- A word is loaded by operations on groups alone. -/
theorem packs_of_mem_loadConstant {o : Operation} {v : Word} (h : o ∈ loadConstant dst v) :
    o.Packs dst := by
  obtain ⟨group, n, os, heq, hn, hos⟩ := loadConstant_eq_cons dst v
  rw [heq] at h
  rcases List.mem_cons.mp h with rfl | h
  · exact ⟨group, n, hn, .inl rfl⟩
  · obtain ⟨group, n, rfl, hn⟩ := hos o h
    exact ⟨group, n, hn, .inr rfl⟩

variable {dst}

/-- Operations on groups can be read. -/
theorem Packs.proper {o : Operation} (h : o.Packs dst) : o.Proper := by
  obtain ⟨group, n, hn, rfl | rfl⟩ := h
  · exact proper_set group hn
  · exact proper_inc group hn

end Operation

end MmixCodegen
