import MmixCodegen.Proofs.Flow.Analyze
import MmixCodegen.Proofs.Machine
import Mathlib.Data.List.Forall2

/-!
# `MmixCodegen.Proofs.Layout`: code in parts

A translation turns each line of some code into a part of other code, and the parts
stand one after the other. `Layout.start` is where a part begins. A label is found
where its part begins (`Layout.lastIndex?_flatten`) if a line that sets a label
becomes a part of one line that sets it, and the other parts set none. `Layout.rest` is
what is left of a part from one of its lines on.
-/

set_option autoImplicit false

namespace MmixCodegen

namespace Flow

/-- There is no last index just if nothing has the property. -/
theorem lastIndex?_eq_none_iff {α : Type} {p : α → Bool} {index : Nat} {xs : List α} :
    lastIndex? p index xs = none ↔ ∀ x ∈ xs, p x = false := by
  induction xs generalizing index with
  | nil => simp [lastIndex?]
  | cons x xs ih =>
      rw [lastIndex?, List.forall_mem_cons]
      cases hrest : lastIndex? p (index + 1) xs with
      | some found =>
          have hsome : ¬∀ y ∈ xs, p y = false := by
            rw [← ih, hrest]
            exact Option.some_ne_none found
          simp [hsome]
      | none =>
          have hnone := ih.mp hrest
          by_cases hx : p x = true
          · simp [hx]
          · simpa [hx] using hnone

/-- At the last index there is something with the property. -/
theorem getElem?_of_lastIndex? {α : Type} {p : α → Bool} {index found : Nat} {xs : List α}
    (h : lastIndex? p index xs = some found) :
    index ≤ found ∧ ∃ x, xs[found - index]? = some x ∧ p x = true := by
  induction xs generalizing index with
  | nil => cases h
  | cons x xs ih =>
      rw [lastIndex?] at h
      cases hrest : lastIndex? p (index + 1) xs with
      | some later =>
          rw [hrest] at h
          cases h
          obtain ⟨hle, y, hy, hp⟩ := ih hrest
          refine ⟨by omega, y, ?_, hp⟩
          rw [show found - index = found - (index + 1) + 1 by omega]
          exact hy
      | none =>
          rw [hrest] at h
          dsimp only at h
          split at h
          · next hx =>
              cases h
              exact ⟨Nat.le_refl _, x, by rw [Nat.sub_self]; rfl, hx⟩
          · cases h

/-- Where a label is found there is an instruction that sets it. -/
theorem label?_of_labelIndex? {l : Label} {instrs : List Instr} {index : Nat}
    (h : labelIndex? l instrs = some index) :
    ∃ i, instrs[index]? = some i ∧ i.label? = some l := by
  obtain ⟨-, i, hi, hl⟩ := getElem?_of_lastIndex? h
  exact ⟨i, hi, of_decide_eq_true hl⟩

/-- The last index is in the second list, or else in the first one. -/
theorem lastIndex?_append {α : Type} (p : α → Bool) (xs ys : List α) :
    lastIndex? p 0 (xs ++ ys) =
      match lastIndex? p 0 ys with
      | some found => some (found + xs.length)
      | none => lastIndex? p 0 xs := by
  induction xs with
  | nil => cases hys : lastIndex? p 0 ys <;> simp [lastIndex?, hys]
  | cons x xs ih =>
      rw [List.cons_append, lastIndex?, lastIndex?_add, ih, lastIndex?, lastIndex?_add p (0 + 1) xs]
      cases lastIndex? p 0 ys with
      | some found =>
          simp only [Option.map_some, List.length_cons, Option.some.injEq]
          omega
      | none => rfl

end Flow

namespace Layout

/-- Members of related lists that have the same index are related. -/
theorem exists_getElem?_of_forall₂ {α β : Type} {R : α → β → Prop} {xs : List α} {ys : List β}
    (h : List.Forall₂ R xs ys) {index : Nat} {x : α} (hx : xs[index]? = some x) :
    ∃ y, ys[index]? = some y ∧ R x y := by
  induction h generalizing index with
  | nil => cases hx
  | cons hfirst hrest ih =>
      cases index with
      | zero =>
          cases hx
          exact ⟨_, rfl, hfirst⟩
      | succ index => exact ih hx

variable {α β : Type} {parts : List (List α)} {part : List α} {index : Nat}

/-- Where a part of the code begins. -/
def start (parts : List (List α)) (index : Nat) : Nat :=
  (parts.take index).flatten.length

/-- The first part begins at the beginning. -/
theorem start_zero (parts : List (List α)) : start parts 0 = 0 := rfl

/-- One more part in front moves the beginnings by its length. -/
theorem start_cons_succ (part : List α) (parts : List (List α)) (index : Nat) :
    start (part :: parts) (index + 1) = part.length + start parts index := by
  rw [start, List.take_succ_cons, List.flatten_cons, List.length_append, start]

/-- A part begins where the one before it ends. -/
theorem start_succ (h : parts[index]? = some part) :
    start parts (index + 1) = start parts index + part.length := by
  rw [start, List.take_add_one, h, List.flatten_append, List.length_append]
  simp [start]

/-- A part stands between those before it and those after it. -/
theorem flatten_eq (h : parts[index]? = some part) :
    parts.flatten = (parts.take index).flatten ++ part ++ (parts.drop (index + 1)).flatten := by
  obtain ⟨hlt, hpart⟩ := List.getElem?_eq_some_iff.mp h
  have hsplit : parts = parts.take index ++ part :: parts.drop (index + 1) := by
    rw [← hpart, List.cons_getElem_drop_succ, List.take_append_drop]
  have hflat := congrArg List.flatten hsplit
  rwa [List.flatten_append, List.flatten_cons, ← List.append_assoc] at hflat

/-- Where a part begins there is its first line. -/
theorem getElem?_flatten_start {x : α} {rest : List α} (h : parts[index]? = some (x :: rest)) :
    parts.flatten[start parts index]? = some x := by
  rw [flatten_eq h, start, List.append_assoc, List.getElem?_append_right (Nat.le_refl _),
    Nat.sub_self]
  rfl

/-- The lines of a part stand at their distances from where it begins. -/
theorem getElem?_flatten_add {offset : Nat} {x : α} (h : parts[index]? = some part)
    (hx : part[offset]? = some x) : parts.flatten[start parts index + offset]? = some x := by
  have hlt := (List.getElem?_eq_some_iff.mp hx).1
  rw [flatten_eq h, start, List.append_assoc, List.getElem?_append_right (Nat.le_add_right _ _),
    Nat.add_sub_cancel_left, List.getElem?_append_left hlt]
  exact hx

/-- Each line is in one of the parts. -/
theorem exists_start_add {line : Nat} {x : α} (h : parts.flatten[line]? = some x) :
    ∃ index part offset, parts[index]? = some part ∧ part[offset]? = some x ∧
      line = start parts index + offset := by
  induction parts generalizing line with
  | nil => cases h
  | cons part parts ih =>
      rw [List.flatten_cons] at h
      by_cases hlt : line < part.length
      · rw [List.getElem?_append_left hlt] at h
        exact ⟨0, part, line, rfl, h, by rw [start_zero, Nat.zero_add]⟩
      · rw [List.getElem?_append_right (Nat.le_of_not_lt hlt)] at h
        obtain ⟨index, part', offset, hpart, hx, hline⟩ := ih h
        refine ⟨index + 1, part', offset, hpart, hx, ?_⟩
        rw [start_cons_succ]
        omega

/-- Later parts begin later. -/
theorem start_mono {index' : Nat} (h : index ≤ index') :
    start parts index ≤ start parts index' := by
  have htake : parts.take index = (parts.take index').take index := by
    rw [List.take_take, Nat.min_eq_left h]
  rw [start, start, htake]
  exact (List.take_sublist _ _).flatten.length_le

/-- No part begins within another one. -/
theorem start_ne_add {index' offset : Nat} (h : parts[index]? = some part) (hpos : offset ≠ 0)
    (hlt : offset < part.length) : start parts index' ≠ start parts index + offset := by
  have hnext := start_succ h
  by_cases hle : index' ≤ index
  · have hstart : start parts index' ≤ start parts index := start_mono hle
    omega
  · have hstart : start parts (index + 1) ≤ start parts index' := start_mono (by omega)
    omega

/-- If there is a line where the part behind this one would begin, then there is such a part. -/
theorem exists_next_part (h : start parts index < parts.flatten.length) :
    ∃ part, parts[index]? = some part := by
  have hlt : index < parts.length := by
    by_contra hge
    rw [start, List.take_of_length_le (Nat.le_of_not_lt hge)] at h
    exact Nat.lt_irrefl _ h
  exact ⟨_, List.getElem?_eq_getElem hlt⟩

/-- The part of a line that is of some kind is one line of that kind, and no other part
has a line of that kind. -/
def Keeps (q : β → Bool) (p : α → Bool) (x : β) (part : List α) : Prop :=
  if q x = true then ∃ y, part = [y] ∧ p y = true else ∀ y ∈ part, p y = false

/-- A label is found where the part of the line that sets it begins. -/
theorem lastIndex?_flatten {q : β → Bool} {p : α → Bool} {xs : List β}
    (h : List.Forall₂ (Keeps q p) xs parts) :
    Flow.lastIndex? p 0 parts.flatten = (Flow.lastIndex? q 0 xs).map (start parts) := by
  induction h with
  | nil => rfl
  | @cons x part xs parts hx hrest ih =>
      rw [List.flatten_cons, Flow.lastIndex?_append, ih, Flow.lastIndex?,
        Flow.lastIndex?_add q (0 + 1)]
      cases Flow.lastIndex? q 0 xs with
      | some found =>
          simp only [Option.map_some, Option.some.injEq]
          rw [start_cons_succ, Nat.add_comm]
      | none =>
          simp only [Option.map_none]
          rw [Keeps] at hx
          split at hx
          · next hq =>
              obtain ⟨y, rfl, hy⟩ := hx
              simp [Flow.lastIndex?, hy, hq, start_zero]
          · next hq => simp [hq, Flow.lastIndex?_eq_none_iff.mpr hx]

/-- What is left of its part from a line on. -/
def rest : List (List α) → Nat → List α
  | [], _ => []
  | part :: parts, line =>
      if line < part.length then part.drop line else rest parts (line - part.length)

/-- From the beginning on, a whole part is left, or nothing. -/
theorem rest_zero (parts : List (List α)) : rest parts 0 = [] ∨ rest parts 0 ∈ parts := by
  induction parts with
  | nil => exact .inl rfl
  | cons part parts ih =>
      rw [rest]
      split
      · exact .inr List.mem_cons_self
      · rw [Nat.zero_sub]
        exact ih.imp_right (List.mem_cons_of_mem _)

/-- Behind a line its part goes on, or another part begins. -/
theorem exists_part_of_getElem?_flatten {line : Nat} {x : α} (h : parts.flatten[line]? = some x) :
    ∃ part ∈ parts, ∃ offset, part[offset]? = some x ∧ rest parts line = part.drop offset ∧
      (rest parts (line + 1) = part.drop (offset + 1) ∨ rest parts (line + 1) ∈ parts) := by
  induction parts generalizing line with
  | nil => cases h
  | cons part parts ih =>
      rw [List.flatten_cons] at h
      by_cases hlt : line < part.length
      · rw [List.getElem?_append_left hlt] at h
        refine ⟨part, List.mem_cons_self, line, h, by rw [rest, if_pos hlt], ?_⟩
        -- The next line is in the same part, or the first one of a later part.
        rw [rest]
        split
        · exact .inl rfl
        · next hge =>
            rw [List.drop_of_length_le (Nat.le_of_not_lt hge),
              show line + 1 - part.length = 0 by omega]
            exact (rest_zero parts).imp_right (List.mem_cons_of_mem _)
      · rw [List.getElem?_append_right (Nat.le_of_not_lt hlt)] at h
        obtain ⟨part', hpart, offset, hx, hrest, hnext⟩ := ih h
        refine ⟨part', List.mem_cons_of_mem _ hpart, offset, hx,
          by rw [rest, if_neg hlt, hrest], ?_⟩
        rw [rest, if_neg (by omega),
          show line + 1 - part.length = line - part.length + 1 by omega]
        exact hnext.imp_right (List.mem_cons_of_mem _)

/-- Where the code in parts is while the other code is at some place. -/
def place (parts : List (List α)) : Place → Place
  | .line index => .line (start parts index)
  | .left l => .left l

/-- How many lines the part at some place has. -/
def size (parts : List (List α)) : Place → Nat
  | .line index => (parts[index]?.getD []).length
  | .left _ => 0

end Layout

end MmixCodegen
