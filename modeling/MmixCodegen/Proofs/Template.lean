import MmixCodegen.Instr

/-!
# `MmixCodegen.Proofs.Template`: what a template scans to

A template is made by joining texts: plain characters and slots. A scan finds the
same parts again, provided that the plain characters hold no mark
(`scanFrom_plain`) and that no digit stands right behind a slot, where it would be
taken for a part of the index (`scanFrom_slot`).

A template whose scan meets no fault is `WellFormed`. Such a template can be
expanded (`WellFormed.expand_eq_ok`), and so a window can be written into it
(`WellFormed.bindWindow_eq_ok`).
-/

set_option autoImplicit false

namespace MmixCodegen

namespace Template

/-! ### Plain text -/

/-- Text without a mark is scanned character by character, whatever stands behind it. -/
theorem scanFrom_plain {cs : List Char} (h : mark ∉ cs) (rest : List Char) :
    scanFrom .text (cs ++ rest) = cs.map .char ++ scanFrom .text rest := by
  induction cs with
  | nil => rfl
  | cons c cs ih =>
      rw [List.mem_cons, not_or] at h
      rw [List.cons_append, scanFrom, if_neg (Ne.symm h.1), ih h.2]
      rfl

/-- The digits of a number hold no mark, so a number is plain text. -/
theorem mark_notMem_toDigits (n : Nat) : mark ∉ Nat.toDigits 10 n := by
  intro h
  have hdigit := Nat.isDigit_of_mem_toDigits (by decide) (by decide) h
  exact absurd hdigit (by decide)

/-! ### Slots -/

/-- Digits pushed on a value continue its decimal numeral. -/
theorem foldl_pushDigit (value : Nat) (cs : List Char) :
    cs.foldl pushDigit (some value) = some (Nat.ofDigitChars 10 cs value) := by
  induction cs generalizing value with
  | nil => rfl
  | cons c cs ih =>
      rw [List.foldl_cons, pushDigit, ih, Option.getD_some, Nat.mul_comm]
      rfl

/-- Digits pushed on no value yet are read as a decimal numeral, if there are any. -/
theorem foldl_pushDigit_none {cs : List Char} (h : cs ≠ []) :
    cs.foldl pushDigit none = some (Nat.ofDigitChars 10 cs 0) := by
  cases cs with
  | nil => exact absurd rfl h
  | cons c cs =>
      -- Before the first digit the value is `none`, which counts as zero.
      show cs.foldl pushDigit (pushDigit (some 0) c) = _
      rw [← List.foldl_cons, foldl_pushDigit]

/-- The digits of a number, pushed one after the other, give the number. -/
theorem foldl_pushDigit_toDigits (n : Nat) :
    (Nat.toDigits 10 n).foldl pushDigit none = some n := by
  rw [foldl_pushDigit_none Nat.toDigits_ne_nil,
    Nat.ofDigitChars_toDigits (by decide) (by decide)]

/-- Inside of a slot, a scan collects the digits that follow into the index. -/
theorem scanFrom_index {cs : List Char} (h : ∀ c ∈ cs, c.isDigit = true) (kind : Char)
    (value : Option Nat) (rest : List Char) :
    scanFrom (.index kind value) (cs ++ rest) =
      scanFrom (.index kind (cs.foldl pushDigit value)) rest := by
  induction cs generalizing value with
  | nil => rfl
  | cons c cs ih =>
      rw [List.cons_append, scanFrom, if_pos (h c List.mem_cons_self),
        ih fun c hc => h c (List.mem_cons_of_mem _ hc), List.foldl_cons]

/-- A slot ends at anything but a digit. -/
theorem scanFrom_index_end {kind : Char} {value : Option Nat} {s : Slot}
    (hs : slotPiece kind value = .slot s) {rest : List Char}
    (hrest : ∀ c ∈ rest.head?, c.isDigit = false) :
    scanFrom (.index kind value) rest = .slot s :: scanFrom .text rest := by
  cases rest with
  | nil => simp only [scanFrom, hs]
  | cons c cs =>
      have hc : c.isDigit = false := hrest c rfl
      simp only [scanFrom, hc, hs, Bool.false_eq_true, if_false]

end Template

/-- The index of a slot can be written. -/
def Slot.Small : Slot → Prop
  | read i => i < UInt64.size
  | write i => i < UInt64.size
  | window => True

namespace Template

/-- The text of a slot is scanned as that slot, if no digit stands right behind it. -/
theorem scanFrom_slot {s : Slot} (hs : s.Small) {rest : List Char}
    (hrest : ∀ c ∈ rest.head?, c.isDigit = false) :
    scanFrom .text (s.text.toList ++ rest) = .slot s :: scanFrom .text rest := by
  have hdigits : ∀ n, ∀ c ∈ Nat.toDigits 10 n, c.isDigit = true :=
    fun n c hc => Nat.isDigit_of_mem_toDigits (by decide) (by decide) hc
  cases s with
  | window => rfl
  | read i =>
      have hi : ¬UInt64.size ≤ i := Nat.not_le.mpr hs
      have htext : (Slot.read i).text.toList = mark :: readLetter :: Nat.toDigits 10 i := by
        rw [Slot.text, String.toList_append, Nat.toString_eq_repr, Nat.toList_repr]
        rfl
      rw [htext, List.cons_append, List.cons_append, scanFrom, if_pos rfl, scanFrom,
        if_neg (by decide), scanFrom_index (hdigits i), foldl_pushDigit_toDigits]
      exact scanFrom_index_end (by simp only [slotPiece, if_neg hi, if_true]) hrest
  | write i =>
      have hi : ¬UInt64.size ≤ i := Nat.not_le.mpr hs
      have htext : (Slot.write i).text.toList = mark :: writeLetter :: Nat.toDigits 10 i := by
        rw [Slot.text, String.toList_append, Nat.toString_eq_repr, Nat.toList_repr]
        rfl
      rw [htext, List.cons_append, List.cons_append, scanFrom, if_pos rfl, scanFrom,
        if_neg (by decide), scanFrom_index (hdigits i), foldl_pushDigit_toDigits]
      have hkind : writeLetter ≠ readLetter := by decide
      exact scanFrom_index_end (by simp only [slotPiece, if_neg hi, if_neg hkind, if_true]) hrest

/-! ### Templates without faults -/

/-- A scan of the template meets no fault. -/
def WellFormed (template : String) : Prop :=
  ∀ f, Piece.fault f ∉ scan template

/-- Pieces without faults can be joined, if every slot among them can be filled. -/
theorem join_eq_ok {ε : Type} {operand : Slot → Except ε String} {fault : Fault → ε}
    {ps : List Piece} (hfault : ∀ f, Piece.fault f ∉ ps)
    (hslot : ∀ s, Piece.slot s ∈ ps → ∃ text, operand s = .ok text) :
    ∃ cs, join operand fault ps = .ok cs := by
  induction ps with
  | nil => exact ⟨[], rfl⟩
  | cons p ps ih =>
      obtain ⟨cs, hcs⟩ := ih (fun f hf => hfault f (List.mem_cons_of_mem _ hf))
        fun s hs => hslot s (List.mem_cons_of_mem _ hs)
      cases p with
      | char c => exact ⟨c :: cs, by rw [join, hcs]; rfl⟩
      | slot s =>
          obtain ⟨text, htext⟩ := hslot s List.mem_cons_self
          exact ⟨text.toList ++ cs, by rw [join, htext, hcs]; rfl⟩
      | fault f => exact absurd List.mem_cons_self (hfault f)

/-- A template without faults can be expanded, if every slot can be filled. -/
theorem WellFormed.expand_eq_ok {template : String} (h : WellFormed template) {ε : Type}
    {operand : Slot → Except ε String} {fault : Fault → ε}
    (hslot : ∀ s, ∃ text, operand s = .ok text) :
    ∃ text, expand template operand fault = .ok text := by
  obtain ⟨cs, hcs⟩ : ∃ cs, join operand fault (scan template) = .ok cs :=
    join_eq_ok h fun s _ => hslot s
  exact ⟨String.ofList cs, by rw [expand, hcs]; rfl⟩

/-- The window can be written into a template without faults. -/
theorem WellFormed.bindWindow_eq_ok {template : String} (h : WellFormed template)
    (window : Register) : ∃ text, Instr.bindWindow template window = .ok text :=
  h.expand_eq_ok fun s => by
    cases s with
    | read i => exact ⟨_, rfl⟩
    | write i => exact ⟨_, rfl⟩
    | window => exact ⟨_, rfl⟩

end Template

end MmixCodegen
