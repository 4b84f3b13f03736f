import MmixCodegen.Proofs.Tree

/-!
# `MmixCodegen.Proofs.Mmix.Word`: signed numbers in words

Selection chooses operations by the signed value of a constant, and the machine works on
words. These are the facts about words that the choices rest on: a number that is part
of an operation is the constant or its negation (`ofNat_toNat_toInt`,
`ofNat_toNat_neg_toInt`), what is done with it gives the value of the operator
(`value_of_shortcut?_eq_number`, `displace_of_offset?`), and a test of a comparison is a
comparison (`ofBool_test_order`).
-/

set_option autoImplicit false

namespace MmixCodegen

namespace Word

/-- The number of a constant that is not negative is the constant as a word. -/
theorem ofNat_toNat_toInt {v : Int64} (h : 0 ≤ v.toInt) :
    UInt64.ofNat v.toInt.toNat = v.toUInt64 := by
  have hle : 0 ≤ v := Int64.le_iff_toInt_le.mpr h
  rw [← Int64.toNatClampNeg, ← Int64.toNat_toUInt64_of_le hle, UInt64.ofNat_toNat]

/-- The number of a negated constant is the negation of the constant as a word. -/
theorem ofNat_toNat_neg_toInt {v : Int64} (h : 0 ≤ -v.toInt) (hle : -v.toInt ≤ 255) :
    UInt64.ofNat (-v.toInt).toNat = -v.toUInt64 := by
  have hneg : (-v).toInt = -v.toInt := by
    rw [Int64.toInt_neg, Int.bmod_eq_of_le (by omega) (by omega)]
  rw [← hneg, ofNat_toNat_toInt (by omega), Int64.toUInt64_neg]

/-- The constant zero is the word zero. -/
theorem toUInt64_of_toInt_eq_zero {v : Int64} (h : v.toInt = 0) : v.toUInt64 = 0 := by
  rw [← ofNat_toNat_toInt (Int.le_of_eq h.symm), h]
  rfl

/-- The constant one is the word one. -/
theorem toUInt64_of_toInt_eq_one {v : Int64} (h : v.toInt = 1) : v.toUInt64 = 1 := by
  rw [← ofNat_toNat_toInt (by omega), h]
  rfl

/-- An offset of zero changes nothing. -/
theorem add_ofNat_zero (x : Word) : x + UInt64.ofNat 0 = x :=
  UInt64.add_zero x

/-- Dividing by one changes nothing. -/
theorem quotient_one (x : Word) : Mmix.quotient x 1 = x := by
  rw [Mmix.quotient, show (1 : Word).toInt64.toInt = 1 from rfl, Int.fdiv_one, Int64.ofInt_toInt,
    UInt64.toUInt64_toInt64]

/-- Subtracting a negation is adding. -/
theorem sub_neg (x y : Word) : x - -y = x + y := by
  rw [UInt64.sub_eq_add_neg, UInt64.neg_neg]

/-- Adding a negation is subtracting. -/
theorem add_neg (x y : Word) : x + -y = x - y :=
  (UInt64.sub_eq_add_neg x y).symm

/-- Words that are equal as signed numbers are equal. -/
theorem toInt64_inj {x y : Word} : x.toInt64 = y.toInt64 ↔ x = y := by
  constructor
  · intro h
    rw [← UInt64.toUInt64_toInt64 x, h, UInt64.toUInt64_toInt64]
  · rintro rfl
    rfl

/-- Which one of two words is less, or that they are equal. -/
theorem order_cases (x y : Word) :
    (x.toInt64 < y.toInt64 ∧ x ≠ y ∧ Mmix.order x y = -1) ∨
      (x = y ∧ Mmix.order x y = 0) ∨ (y.toInt64 < x.toInt64 ∧ x ≠ y ∧ Mmix.order x y = 1) := by
  rw [Mmix.order]
  by_cases hlt : x.toInt64 < y.toInt64
  · have hne : x ≠ y := by
      rintro rfl
      exact Int64.lt_irrefl hlt
    exact .inl ⟨hlt, hne, by rw [if_pos hlt]⟩
  · by_cases heq : x = y
    · exact .inr (.inl ⟨heq, by rw [if_neg hlt, if_pos heq]⟩)
    · have hgt : y.toInt64 < x.toInt64 :=
        Int64.lt_of_le_of_ne (Int64.not_lt.mp hlt) fun h => heq (toInt64_inj.mp h).symm
      exact .inr (.inr ⟨hgt, heq, by rw [if_neg hlt, if_neg heq]⟩)

end Word

namespace Select

open Word

/-- A number that may be part of an operation is positive and has eight bits. -/
theorem isImmediate_iff {c : Int} : isImmediate c = true ↔ 0 < c ∧ c ≤ 255 := by
  rw [isImmediate, Bool.and_eq_true, decide_eq_true_eq, decide_eq_true_eq]
  rfl

/-- Small offsets of arguments fit into a byte. -/
theorem narrow_of_le_maxImmediate {index : Nat} (h : 8 * (index : Int) ≤ maxImmediate) :
    8 * index < UInt8.size := by
  simp only [maxImmediate] at h
  simp only [UInt8.size]
  omega

variable {op : BinaryOp} {v : Int64}

/-- Where the result is the left operand, it is the value of the operator. -/
theorem apply_of_shortcut?_eq_same (h : shortcut? op v = some .same) (x : Word) :
    op.apply x v.toUInt64 = x := by
  cases op with
  | add | sub =>
      have hzero : v.toInt = 0 := by
        simp only [shortcut?] at h
        grind
      rw [toUInt64_of_toInt_eq_zero hzero]
      simp [BinaryOp.apply]
  | mul | div =>
      have hone : v.toInt = 1 := by
        simp only [shortcut?] at h
        grind
      rw [toUInt64_of_toInt_eq_one hone]
      simp [BinaryOp.apply, quotient_one]
  | _ => cases h

/-- Where the number is part of the operation, the operation gives the value of the operator. -/
theorem value_of_shortcut?_eq_number {E : Type} {m : Mnemonic} {n : Nat}
    (h : shortcut? op v = some (.number m n)) (hidden : Mmix.Hidden E) (old x : Word) :
    Mmix.value hidden old m [x, UInt64.ofNat n] = op.apply x v.toUInt64 := by
  -- The number is the constant itself, or its negation for the opposite operation.
  have hpos : isImmediate v.toInt = true → UInt64.ofNat v.toInt.toNat = v.toUInt64 := by
    intro hv
    exact ofNat_toNat_toInt (Int.le_of_lt (isImmediate_iff.mp hv).1)
  have hneg : isImmediate (-v.toInt) = true → UInt64.ofNat (-v.toInt).toNat = -v.toUInt64 := by
    intro hv
    obtain ⟨hlt, hle⟩ := isImmediate_iff.mp hv
    exact ofNat_toNat_neg_toInt (Int.le_of_lt hlt) hle
  cases op with
  | add =>
      simp only [shortcut?] at h
      split at h
      · cases h
      split at h
      · next hv => cases h; rw [hpos hv]; rfl
      split at h
      · next hv => cases h; rw [hneg hv]; exact sub_neg x _
      · cases h
  | sub =>
      simp only [shortcut?] at h
      split at h
      · cases h
      split at h
      · next hv => cases h; rw [hpos hv]; rfl
      split at h
      · next hv => cases h; rw [hneg hv]; exact add_neg x _
      · cases h
  | mul | div =>
      simp only [shortcut?] at h
      split at h
      · cases h
      split at h
      · next hv => cases h; rw [hpos hv]; rfl
      · cases h
  | _ => cases h

/-- The test of a comparison is the comparison that the test stands for. -/
theorem ofBool_test_order (x y : Word) :
    ofBool (Condition.zero.test (Mmix.order x y)) = BinaryOp.eq.apply x y ∧
    ofBool (Condition.nonzero.test (Mmix.order x y)) = BinaryOp.ne.apply x y ∧
    ofBool (Condition.negative.test (Mmix.order x y)) = BinaryOp.lt.apply x y ∧
    ofBool (Condition.positive.test (Mmix.order x y)) = BinaryOp.gt.apply x y ∧
    ofBool (Condition.nonpositive.test (Mmix.order x y)) = BinaryOp.le.apply x y ∧
    ofBool (Condition.nonnegative.test (Mmix.order x y)) = BinaryOp.ge.apply x y := by
  rcases order_cases x y with ⟨hlt, hne, horder⟩ | ⟨rfl, horder⟩ | ⟨hgt, hne, horder⟩
  · have hle : ¬y.toInt64 ≤ x.toInt64 := Int64.not_le.mpr hlt
    have hone : (-1 : Word) ≠ 0 := by decide
    simp [horder, Condition.test, BinaryOp.apply, hlt, hne, hle, hone, Int64.le_of_lt hlt,
      Int64.lt_asymm hlt]
  · simp [horder, Condition.test, BinaryOp.apply]
  · have hle : ¬x.toInt64 ≤ y.toInt64 := Int64.not_le.mpr hgt
    simp [horder, Condition.test, BinaryOp.apply, hgt, hne, hle, Int64.le_of_lt hgt,
      Int64.lt_asymm hgt]

/-- An address with an offset. -/
def displace (base : Word) (offset : Int) : Word :=
  if 0 ≤ offset then base + UInt64.ofNat offset.toNat else base - UInt64.ofNat (-offset).toNat

/-- Without an offset, an address is its base. -/
theorem displace_zero (base : Word) : displace base 0 = base := by
  simp [displace]

/-- An offset, or its negation, fits into a byte. -/
theorem natAbs_of_offset? {offset : Int} (h : offset? op v = some offset) :
    offset.natAbs < UInt8.size := by
  simp only [offset?] at h
  split at h
  · cases h
  next hsmall =>
    simp only [maxImmediate] at hsmall
    simp only [UInt8.size]
    cases op with
    | add | sub =>
        cases h
        omega
    | _ => cases h

/-- An address with the offset of an operator is the value of the operator. -/
theorem displace_of_offset? {offset : Int} (h : offset? op v = some offset) (base : Word) :
    displace base offset = op.apply base v.toUInt64 := by
  simp only [offset?] at h
  split at h
  · cases h
  next hsmall =>
    have hle : v.toInt ≤ 255 ∧ -v.toInt ≤ 255 := by
      simp only [maxImmediate] at hsmall
      omega
    rw [displace]
    -- Whether the offset is added or subtracted depends on its sign, not on `op`.
    cases op with
    | add =>
        cases h
        split
        · next hv => rw [ofNat_toNat_toInt hv]; rfl
        · next hv => rw [ofNat_toNat_neg_toInt (by omega) hle.2]; exact sub_neg base _
    | sub =>
        cases h
        split
        · next hv => rw [ofNat_toNat_neg_toInt hv hle.2]; exact add_neg base _
        · next hv =>
            rw [Int.neg_neg, ofNat_toNat_toInt (by omega)]
            rfl
    | _ => cases h

end Select

end MmixCodegen
