import MmixCodegen.Temp
import Mathlib.Data.Finset.Card
import Mathlib.Data.Finset.Dedup

/-!
# `MmixCodegen.Proofs.TempSet`: sets of temporaries as finite sets

The allocator keeps its sets in ordered trees. Counting arguments are easier on
`Finset`, so `TempSet.toFinset` forgets the order. `TempSet.card_toFinset` says
that nothing is lost: a tree never lists a member twice.
-/

set_option autoImplicit false

namespace MmixCodegen

namespace TempSet

/-- The members of a set, without their order. -/
def toFinset (s : TempSet) : Finset Temp :=
  s.toList.toFinset

/-- Forgetting the order keeps the members. -/
@[simp]
theorem mem_toFinset {s : TempSet} {t : Temp} : t ∈ s.toFinset ↔ t ∈ s := by
  simp [toFinset]

/-- An insertion adds the temporary and nothing else. -/
theorem mem_insert_iff {s : TempSet} {t u : Temp} : u ∈ s.insert t ↔ u = t ∨ u ∈ s := by
  simp [eq_comm (a := u)]

/-- An erasure takes out the temporary and nothing else. -/
theorem mem_erase_iff {s : TempSet} {t u : Temp} : u ∈ s.erase t ↔ u ≠ t ∧ u ∈ s := by
  simp [eq_comm (a := u)]

/-- A set lists each of its members once. -/
theorem nodup_toList (s : TempSet) : s.toList.Nodup := by
  refine (Std.ExtTreeSet.distinct_toList (t := s)).imp ?_
  intro a b hne hab
  exact hne (hab ▸ Std.ReflCmp.compare_self)

/-- The size of a set is the number of its members. -/
@[simp]
theorem card_toFinset (s : TempSet) : s.toFinset.card = s.size := by
  rw [toFinset, List.toFinset_card_of_nodup s.nodup_toList, Std.ExtTreeSet.length_toList]

/-- A subset is not larger. -/
theorem size_le_of_subset {s s' : TempSet} (h : ∀ t ∈ s, t ∈ s') : s.size ≤ s'.size := by
  rw [← card_toFinset, ← card_toFinset]
  refine Finset.card_le_card fun t ht => ?_
  rw [mem_toFinset] at ht ⊢
  exact h t ht

/-- A set within another one that is no larger is the same set. -/
theorem eq_of_subset_of_size_le {s s' : TempSet} (h : ∀ t ∈ s, t ∈ s') (hsize : s'.size ≤ s.size) :
    s = s' := by
  have hsub : s.toFinset ⊆ s'.toFinset := by
    intro t ht
    rw [mem_toFinset] at ht ⊢
    exact h t ht
  have heq :=
    Finset.eq_of_subset_of_card_le hsub (by rw [card_toFinset, card_toFinset]; exact hsize)
  refine Std.ExtTreeSet.ext_mem fun t => ?_
  rw [← mem_toFinset, heq, mem_toFinset]

/-- A set that does not report to be empty has a member. -/
theorem exists_mem_of_isEmpty_eq_false {s : TempSet} (h : s.isEmpty = false) : ∃ t, t ∈ s := by
  by_contra hnone
  have hempty := Std.ExtTreeSet.eq_empty_iff_forall_not_mem.mpr fun t ht => hnone ⟨t, ht⟩
  exact Std.ExtTreeSet.isEmpty_eq_false_iff.mp h hempty

/-- A test of all members goes through the list of them. -/
theorem all_eq_all_toList (s : TempSet) (p : Temp → Bool) : s.all p = s.toList.all p := by
  obtain ⟨⟨⟨q⟩⟩⟩ := s
  induction q using Quotient.ind with
  | _ m =>
      show m.inner.all (fun t _ => p t) = m.inner.keys.all p
      rw [Std.DTreeMap.Internal.Impl.all_eq_all_toListModel,
        Std.DTreeMap.Internal.Impl.keys_eq_keys, Std.Internal.List.keys_eq_map, List.all_map]
      rfl

/-- The test of all members succeeds just if each of them passes. -/
theorem all_eq_true {s : TempSet} {p : Temp → Bool} : s.all p = true ↔ ∀ t ∈ s, p t = true := by
  rw [all_eq_all_toList, List.all_eq_true]
  simp

/-- Only the empty set has no least member. -/
@[simp]
theorem least?_eq_none {s : TempSet} : s.least? = none ↔ s = ∅ := by
  simp [least?]

/-- The least member is a member. -/
theorem mem_of_least? {s : TempSet} {t : Temp} (h : s.least? = some t) : t ∈ s := by
  have hmem := List.mem_of_head? h
  simpa using hmem

end TempSet

end MmixCodegen
