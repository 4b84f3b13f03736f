import MmixCodegen.Operation
import MmixCodegen.Proofs.Template

/-!
# `MmixCodegen.Proofs.Mmix.Read`: reading operations from their texts

The machine knows an operation by its text alone. `Mmix.read?` takes the template of
an instruction apart: a mnemonic and, for each operand, an `Arg`. Operands stand
between commas, except that a label comes last and reaches to the end of the text,
so that any character but the mark may be part of it. A number has to fit into its
field: one byte, or two in the operations that set a group of a word or add to it
(`Mnemonic.numberLimit`). Nothing is read from a template with a wider one.

`Operation.scan_template` gives the pieces of the template of an operation. From it
follow `Operation.wellFormed_template`, which says that these templates can always
be expanded, and `Operation.read?_template`: the operation that is read is the one
that was written. It asks for an operation that is `Readable`: its mnemonic has as
many operands as it needs, a label where it needs one, and numbers that fit.
-/

set_option autoImplicit false

namespace MmixCodegen

open Template (Piece)

/-- The label can stand in a template: no mark is in it. -/
def Label.Plain (l : Label) : Prop :=
  Template.mark ∉ l.name.toList

instance (l : Label) : Decidable l.Plain :=
  inferInstanceAs (Decidable (Template.mark ∉ l.name.toList))

/-- An operand as the text of an operation shows it. -/
inductive Arg where
  | slot (s : Slot)
  | number (n : Nat)
  | register (r : Register)
  /-- The special register that holds the remainder of a division. -/
  | remainder
  | label (l : Label)
deriving DecidableEq, Repr

namespace Arg

/-- The text of an operand in a template. -/
def text : Arg → String
  | slot s => s.text
  | number n => toString n
  | register r => r.name
  | remainder => "rR"
  | label l => l.name

/-- What the text of an operand scans to. -/
def pieces : Arg → List Piece
  | slot s => [.slot s]
  | a => a.text.toList.map .char

/-- The text of the operand scans as it should. -/
def Plain : Arg → Prop
  | slot s => s.Small
  | label l => l.Plain
  | _ => True

/-- Whether an operand is a label. -/
def isLabel : Arg → Bool
  | label _ => true
  | _ => false

/-- A number is written in decimal digits. -/
theorem toList_text_number (n : Nat) : (number n).text.toList = Nat.toDigits 10 n := by
  rw [text, Nat.toString_eq_repr, Nat.toList_repr]

/-- A register is written as a dollar sign and its number. -/
theorem toList_text_register (r : Register) :
    (register r).text.toList = '$' :: Nat.toDigits 10 r.index.toNat := by
  rw [text, Register.name, String.toList_append, Nat.toString_eq_repr, Nat.toList_repr]
  rfl

/-- The text of a plain operand scans to its pieces, if no digit stands right behind it. -/
theorem scanFrom_text {a : Arg} (ha : a.Plain) {rest : List Char}
    (hrest : ∀ c ∈ rest.head?, c.isDigit = false) :
    Template.scanFrom .text (a.text.toList ++ rest) =
      a.pieces ++ Template.scanFrom .text rest := by
  cases a with
  | slot s => exact Template.scanFrom_slot ha hrest
  | label l => exact Template.scanFrom_plain ha rest
  | remainder => exact Template.scanFrom_plain (by decide) rest
  | number n =>
      refine Template.scanFrom_plain ?_ rest
      rw [toList_text_number]
      exact Template.mark_notMem_toDigits n
  | register r =>
      refine Template.scanFrom_plain ?_ rest
      rw [toList_text_register, List.mem_cons, not_or]
      exact ⟨by decide, Template.mark_notMem_toDigits _⟩

/-- Operands with commas between them scan to the pieces of the operands with commas
between them. -/
theorem scanFrom_intercalate {as : List Arg} (h : ∀ a ∈ as, a.Plain) :
    Template.scanFrom .text ([','].intercalate (as.map fun a => a.text.toList)) =
      [Piece.char ','].intercalate (as.map pieces) := by
  induction as with
  | nil => rfl
  | cons a as ih =>
      have ha := h a List.mem_cons_self
      have has := ih fun b hb => h b (List.mem_cons_of_mem _ hb)
      cases as with
      | nil =>
          have hlast : Template.scanFrom .text (a.text.toList ++ []) = a.pieces ++ [] :=
            scanFrom_text ha (by simp)
          simpa using hlast
      | cons b bs =>
          simp only [List.map_cons, List.intercalate_cons_cons] at has ⊢
          -- The comma is no digit, and it is no mark either.
          rw [List.append_assoc, scanFrom_text ha (by intro c hc; cases hc; rfl),
            Template.scanFrom_plain (by decide), has]
          simp

end Arg

/-! ### The templates of operations -/

namespace Operand

/-- The operands of an operation as its template shows them, given how many operands
were read and written to the left of them. -/
def args (reads writes : Nat) : List Operand → List Arg
  | [] => []
  | read _ :: os => .slot (.read reads) :: args (reads + 1) writes os
  | write _ :: os => .slot (.write writes) :: args reads (writes + 1) os
  | update _ :: os => .slot (.write writes) :: args (reads + 1) (writes + 1) os
  | number n :: os => .number n :: args reads writes os
  | label l :: os => .label l :: args reads writes os
  | register r :: os => .register r :: args reads writes os
  | remainder :: os => .remainder :: args reads writes os
  | window :: os => .slot .window :: args reads writes os

/-- Each operand shows in the template. -/
theorem length_args (os : List Operand) (reads writes : Nat) :
    (args reads writes os).length = os.length := by
  induction os generalizing reads writes with
  | nil => rfl
  | cons o os ih => cases o <;> simp [args, ih]

/-- The texts that are put into a template are those of the operands. -/
theorem texts_eq (os : List Operand) (reads writes : Nat) :
    texts reads writes os = (args reads writes os).map Arg.text := by
  induction os generalizing reads writes with
  | nil => rfl
  | cons o os ih => cases o <;> simp [texts, args, Arg.text, ih]

/-- A number that the template shows is an operand. -/
theorem number_mem_of_mem_args {os : List Operand} {reads writes n : Nat}
    (h : .number n ∈ args reads writes os) : number n ∈ os := by
  induction os generalizing reads writes with
  | nil => cases h
  | cons o os ih =>
      cases o <;> rw [args, List.mem_cons] at h <;> rcases h with h | h
      case number.inl m =>
        cases h
        exact List.mem_cons_self
      case read.inl | write.inl | update.inl | label.inl | register.inl | remainder.inl |
          window.inl => cases h
      all_goals exact List.mem_cons_of_mem _ (ih h)

/-- Only labels can hold a mark, and there are few operands. -/
theorem plain_args {os : List Operand} {reads writes : Nat}
    (hlabels : ∀ l, label l ∈ os → l.Plain)
    (hreads : reads + os.length ≤ UInt64.size) (hwrites : writes + os.length ≤ UInt64.size) :
    ∀ a ∈ args reads writes os, a.Plain := by
  induction os generalizing reads writes with
  | nil => exact fun a ha => absurd ha List.not_mem_nil
  | cons o os ih =>
      rw [List.length_cons] at hreads hwrites
      have hrest := @ih
      intro a ha
      have hsub : ∀ l, label l ∈ os → l.Plain :=
        fun l hl => hlabels l (List.mem_cons_of_mem _ hl)
      cases o <;> rw [args, List.mem_cons] at ha <;> rcases ha with rfl | ha
      case label.inl l => exact hlabels l List.mem_cons_self
      case read.inl => exact (by omega : reads < UInt64.size)
      case write.inl => exact (by omega : writes < UInt64.size)
      case update.inl => exact (by omega : writes < UInt64.size)
      case number.inl | register.inl | remainder.inl | window.inl => trivial
      all_goals exact hrest hsub (by omega) (by omega) a ha

end Operand

namespace Operation

/-- The operands of an operation as its template shows them. -/
def args (o : Operation) : List Arg :=
  Operand.args 0 0 o.operands

/-- What the template of an operation scans to. -/
def pieces (o : Operation) : List Piece :=
  o.mnemonic.name.toList.map .char ++ .char ' ' ::
    [Piece.char ','].intercalate (o.args.map Arg.pieces)

/-- No label of the operation holds a mark, and there are as few operands as there
are in an operation of the machine. -/
structure Plain (o : Operation) : Prop where
  labels : ∀ l, Operand.label l ∈ o.operands → l.Plain
  few : o.operands.length ≤ 3

/-- The name of a mnemonic holds no mark. -/
theorem mark_notMem_name (m : Mnemonic) : Template.mark ∉ m.name.toList := by
  cases m with
  | set group => cases group <;> decide
  | inc group => cases group <;> decide
  | zeroOrSet cond => cases cond <;> decide
  | _ => decide

/-- With few operands and plain labels, each operand scans as it should. -/
theorem Plain.plain_args {o : Operation} (h : o.Plain) : ∀ a ∈ o.args, a.Plain := by
  have hfew : 0 + o.operands.length ≤ UInt64.size := by
    rw [Nat.zero_add]
    exact Nat.le_trans h.few (by decide)
  exact Operand.plain_args h.labels hfew hfew

/-- A template is a mnemonic, a blank, and operands between commas. -/
theorem toList_template (o : Operation) :
    o.template.toList =
      o.mnemonic.name.toList ++ ' ' :: [','].intercalate (o.args.map fun a => a.text.toList) := by
  rw [template, String.toList_append, String.toList_append, String.toList_intercalate,
    Operand.texts_eq, List.map_map, List.append_assoc]
  rfl

/-- The template of an operation scans to its mnemonic and its operands. -/
theorem scan_template {o : Operation} (h : o.Plain) : Template.scan o.template = o.pieces := by
  rw [Template.scan, toList_template, Template.scanFrom_plain (mark_notMem_name _), pieces,
    ← Arg.scanFrom_intercalate h.plain_args]
  rfl

/-- The template of a plain operation can be scanned without faults. -/
theorem wellFormed_template {o : Operation} (h : o.Plain) :
    Template.WellFormed o.template := by
  intro f hf
  rw [scan_template h, pieces, List.mem_append, List.mem_cons] at hf
  have hargs :
      ∀ as : List Arg, Piece.fault f ∉ [Piece.char ','].intercalate (as.map Arg.pieces) := by
    intro as
    have hone : ∀ a : Arg, Piece.fault f ∉ a.pieces := by
      intro a ha
      cases a <;> simp [Arg.pieces] at ha
    induction as with
    | nil => simp
    | cons a as ih =>
        cases as with
        | nil => simpa using hone a
        | cons b bs =>
            simp only [List.map_cons, List.intercalate_cons_cons] at ih ⊢
            simp [hone a, ih]
  rcases hf with hf | hf | hf
  · simp at hf
  · cases hf
  · exact hargs _ hf

end Operation

/-! ### Reading -/

namespace Mnemonic

/-- All mnemonics. -/
def all : List Mnemonic :=
  Wyde.all.map .set ++ Wyde.all.map .inc ++
    [.lda, .neg, .add, .sub, .mul, .div, .and, .or, .cmp,
      .zeroOrSet .zero, .zeroOrSet .nonzero, .zeroOrSet .negative, .zeroOrSet .positive,
      .zeroOrSet .nonpositive, .zeroOrSet .nonnegative, .get, .ldo, .sto, .bnz, .jmp, .pushj]

/-- The mnemonic with the given name. -/
def ofName? (name : List Char) : Option Mnemonic :=
  all.find? fun m => m.name.toList = name

/-- Each mnemonic is found by its name. -/
theorem ofName?_name (m : Mnemonic) : ofName? m.name.toList = some m := by
  cases m with
  | set group => cases group <;> decide
  | inc group => cases group <;> decide
  | zeroOrSet cond => cases cond <;> decide
  | _ => decide

/-- How many commas stand between the operands. -/
def commas : Mnemonic → Nat
  | jmp => 0
  | set _ | inc _ | lda | neg | get | bnz | pushj => 1
  | add | sub | mul | div | and | or | cmp | zeroOrSet _ | ldo | sto => 2

/-- Whether the last operand is a label. -/
def namesLabel : Mnemonic → Bool
  | lda | bnz | jmp | pushj => true
  | _ => false

/-- The first number that does not fit into the field of an operation: two bytes for a
group of a word, and one byte everywhere else. -/
def numberLimit : Mnemonic → Nat
  | set _ | inc _ => UInt16.size
  | _ => UInt8.size

/-- Operations with two commas have a number of one byte. -/
theorem numberLimit_eq {m : Mnemonic} (h : m.commas = 2) : m.numberLimit = UInt8.size := by
  cases m with
  | set _ | inc _ => cases h
  | _ => rfl

end Mnemonic

namespace Arg

/-- The number that is written with some digits. -/
def number? (cs : List Char) : Option Nat :=
  if cs ≠ [] ∧ cs.all Char.isDigit then some (Nat.ofDigitChars 10 cs 0) else none

/-- The register with a number that is written with some digits. There are 256 of them. -/
def register? (cs : List Char) : Option Register :=
  (number? cs).bind fun n => if n < UInt8.size then some (.ofNat n) else none

/-- The operand that is written without a slot. -/
def ofChars? (cs : List Char) : Option Arg :=
  if cs = "rR".toList then some .remainder
  else if cs.head? = some '$' then (register? cs.tail).map .register
  else (number? cs).map .number

/-- The characters of pieces, if there is no slot among them. -/
def chars? : List Piece → Option (List Char)
  | [] => some []
  | .char c :: ps => (chars? ps).map (c :: ·)
  | _ => none

/-- The operand that some pieces show, which is not a label. -/
def ofPieces? : List Piece → Option Arg
  | [.slot s] => some (.slot s)
  | ps => (chars? ps).bind ofChars?

/-- Read as many operands as there are commas, and one more that reaches to the end. -/
def readAll? (labelLast : Bool) : (commas : Nat) → List Piece → Option (List Arg)
  | 0, ps => do
      let a ← if labelLast then (chars? ps).map fun cs => .label ⟨String.ofList cs⟩
        else ofPieces? ps
      return [a]
  | n + 1, ps => do
      let a ← ofPieces? (ps.takeWhile (· ≠ .char ','))
      let as ← readAll? labelLast n ((ps.dropWhile (· ≠ .char ',')).drop 1)
      return a :: as

/-- Whether an operand is not a number, or a number below a limit. -/
def isBelow (limit : Nat) : Arg → Bool
  | number n => n < limit
  | _ => true

/-- There is one operand more than there are commas, and the last one is a label
just if there should be one. -/
def fits (labelLast : Bool) : (commas : Nat) → List Arg → Bool
  | 0, [a] => a.isLabel == labelLast
  | n + 1, a :: as => !a.isLabel && fits labelLast n as
  | _, _ => false

/-- There is one operand more than there are commas. -/
theorem length_of_fits {labelLast : Bool} {n : Nat} {as : List Arg}
    (h : fits labelLast n as = true) : as.length = n + 1 := by
  induction n generalizing as with
  | zero =>
      match as, h with
      | [_], _ => rfl
  | succ n ih =>
      match as, h with
      | a :: as, h =>
        have hrest : fits labelLast n as = true := by
          cases as <;> simp_all [fits]
        rw [List.length_cons, ih hrest]

/-- Plain characters are read as they are. -/
theorem chars?_map (cs : List Char) : chars? (cs.map .char) = some cs := by
  induction cs with
  | nil => rfl
  | cons c cs ih => rw [List.map_cons, chars?, ih]; rfl

/-- A number is read from its decimal digits. -/
theorem number?_toDigits (n : Nat) : number? (Nat.toDigits 10 n) = some n := by
  have hall : (Nat.toDigits 10 n).all Char.isDigit = true := by
    rw [List.all_eq_true]
    exact fun c hc => Nat.isDigit_of_mem_toDigits (by decide) (by decide) hc
  rw [number?, if_pos ⟨Nat.toDigits_ne_nil, hall⟩,
    Nat.ofDigitChars_toDigits (by decide) (by decide)]

/-- A decimal numeral starts with a digit. -/
theorem head?_toDigits_isDigit {n : Nat} {c : Char} (h : (Nat.toDigits 10 n).head? = some c) :
    c.isDigit = true :=
  Nat.isDigit_of_mem_toDigits (by decide) (by decide) (List.mem_of_head? h)

/-- An operand other than a label is read from its own pieces. -/
theorem ofPieces?_pieces {a : Arg} (h : a.isLabel = false) : ofPieces? a.pieces = some a := by
  -- Without a slot the characters come back, whatever they are.
  have hchars : ∀ cs : List Char, ofPieces? (cs.map .char) = ofChars? cs := by
    intro cs
    have hbind : (chars? (cs.map .char)).bind ofChars? = ofChars? cs := by
      rw [chars?_map]
      rfl
    cases cs with
    | nil => exact hbind
    | cons c cs => exact hbind
  cases a with
  | slot s => rfl
  | label l => cases h
  | remainder => exact hchars _
  | number n =>
      show ofPieces? (List.map .char (number n).text.toList) = _
      rw [hchars, toList_text_number, ofChars?, if_neg, if_neg, number?_toDigits]
      · rfl
      · intro hhead
        exact absurd (head?_toDigits_isDigit hhead) (by decide)
      · intro hr
        have hhead : (Nat.toDigits 10 n).head? = some 'r' := by rw [hr]; rfl
        exact absurd (head?_toDigits_isDigit hhead) (by decide)
  | register r =>
      show ofPieces? (List.map .char (register r).text.toList) = _
      rw [hchars, toList_text_register, ofChars?, if_neg (by simp),
        if_pos List.head?_cons, List.tail_cons, register?, number?_toDigits, Option.bind_some,
        if_pos r.index.toNat_lt_size, Option.map_some, Register.ofNat, UInt8.ofNat_toNat]

/-- No comma stands in an operand that is not a label. -/
theorem comma_notMem_pieces {a : Arg} (h : a.isLabel = false) : Piece.char ',' ∉ a.pieces := by
  have hdigits : ∀ n, ',' ∉ Nat.toDigits 10 n := by
    intro n hmem
    have hdigit := Nat.isDigit_of_mem_toDigits (by decide) (by decide) hmem
    exact absurd hdigit (by decide)
  cases a with
  | slot s => simp [pieces]
  | label l => cases h
  | remainder => decide
  | number n =>
      show Piece.char ',' ∉ List.map .char (number n).text.toList
      rw [toList_text_number]
      simpa using hdigits n
  | register r =>
      show Piece.char ',' ∉ List.map .char (register r).text.toList
      rw [toList_text_register]
      simpa using hdigits _

/-- Operands that fit are read from their pieces between commas. -/
theorem readAll?_intercalate {labelLast : Bool} {n : Nat} {as : List Arg}
    (h : fits labelLast n as = true) :
    readAll? labelLast n ([Piece.char ','].intercalate (as.map pieces)) = some as := by
  induction n generalizing as with
  | zero =>
      match as, h with
      | [a], h =>
        have hlabel : a.isLabel = labelLast := by simpa [fits] using h
        cases a with
        | label l =>
            subst hlabel
            show ((chars? (List.intercalate _ [l.name.toList.map .char])).map _).bind _ = _
            rw [List.intercalate_singleton, chars?_map, Option.map_some, String.ofList_toList]
            rfl
        | _ =>
            subst hlabel
            rw [List.map_singleton, List.intercalate_singleton]
            simp only [readAll?, isLabel, Bool.false_eq_true, if_false]
            rw [ofPieces?_pieces rfl]
            rfl
  | succ n ih =>
      match as, h with
      | a :: b :: bs, h =>
        have hfits : a.isLabel = false ∧ fits labelLast n (b :: bs) = true := by
          simpa [fits] using h
        have hcomma := comma_notMem_pieces hfits.1
        have hall : ∀ p ∈ a.pieces, decide (p ≠ Piece.char ',') = true := by
          intro p hp
          exact decide_eq_true fun heq => hcomma (heq ▸ hp)
        have hrest := ih hfits.2
        rw [List.map_cons, List.map_cons, List.intercalate_cons_cons, readAll?,
          List.append_assoc, List.takeWhile_append_of_pos hall, List.dropWhile_append_of_pos hall]
        -- Past the first operand there is a comma, and then the other operands.
        rw [List.map_cons] at hrest
        simp [ofPieces?_pieces hfits.1, hrest]
      | [a], h => cases n <;> simp [fits] at h

end Arg

namespace Mmix

/-- The mnemonic and the operands that a template shows. There is nothing to read if a number
is too wide for its field. -/
def read? (template : String) : Option (Mnemonic × List Arg) := do
  let ps := Template.scan template
  let name ← Arg.chars? (ps.takeWhile (· ≠ .char ' '))
  let m ← Mnemonic.ofName? name
  let as ← Arg.readAll? m.namesLabel m.commas ((ps.dropWhile (· ≠ .char ' ')).drop 1)
  if as.all (Arg.isBelow m.numberLimit) then some (m, as) else none

end Mmix

namespace Operation

/-- The operation has the operands that its mnemonic needs, and its numbers
fit into their fields. -/
structure Readable (o : Operation) : Prop extends o.Plain where
  fits : Arg.fits o.mnemonic.namesLabel o.mnemonic.commas o.args = true
  narrow : ∀ n, Operand.number n ∈ o.operands → n < o.mnemonic.numberLimit

/-- The name of a mnemonic holds no blank, so the first blank ends it. -/
theorem blank_notMem_name (m : Mnemonic) : ' ' ∉ m.name.toList := by
  cases m with
  | set group => cases group <;> decide
  | inc group => cases group <;> decide
  | zeroOrSet cond => cases cond <;> decide
  | _ => decide

/-- The numbers that a template shows are those of the operation. -/
theorem Readable.all_isBelow {o : Operation} (h : o.Readable) :
    o.args.all (Arg.isBelow o.mnemonic.numberLimit) = true := by
  refine List.all_eq_true.mpr fun a ha => ?_
  cases a with
  | number n => exact decide_eq_true (h.narrow n (Operand.number_mem_of_mem_args ha))
  | _ => rfl

/-- What is read from the template of an operation is the operation. -/
theorem read?_template {o : Operation} (h : o.Readable) :
    Mmix.read? o.template = some (o.mnemonic, o.args) := by
  have hall : ∀ p ∈ o.mnemonic.name.toList.map Piece.char, decide (p ≠ Piece.char ' ') = true := by
    intro p hp
    obtain ⟨c, hc, rfl⟩ := List.mem_map.mp hp
    refine decide_eq_true fun heq => blank_notMem_name o.mnemonic ?_
    cases heq
    exact hc
  rw [Mmix.read?, scan_template h.toPlain, pieces, List.takeWhile_append_of_pos hall,
    List.dropWhile_append_of_pos hall]
  simpa [Arg.chars?_map, Mnemonic.ofName?_name, Arg.readAll?_intercalate h.fits]
    using List.all_eq_true.mp h.all_isBelow

/-! ### The operations that are used -/

/-- The operation can be read, and it has as few operands as the machine allows. -/
structure Proper (o : Operation) : Prop extends o.Readable where
  uses_le : o.uses.length ≤ 2
  defs_le : o.defs.length ≤ 1

/-- An operation is readable if its operands are as its mnemonic needs them. -/
theorem readable_of_fits {o : Operation}
    (hfits : Arg.fits o.mnemonic.namesLabel o.mnemonic.commas o.args = true)
    (hlabels : ∀ l, Operand.label l ∈ o.operands → l.Plain)
    (hnumbers : ∀ n, Operand.number n ∈ o.operands → n < o.mnemonic.numberLimit) : o.Readable where
  labels := hlabels
  few := by
    have hlength := Arg.length_of_fits hfits
    rw [args, Operand.length_args] at hlength
    have hcommas : o.mnemonic.commas ≤ 2 := by
      cases o.mnemonic <;> simp [Mnemonic.commas]
    omega
  fits := hfits
  narrow := hnumbers

/-- An operation with few operands and no label can stand in a template,
whatever its numbers are. -/
theorem plain_of_unlabeled {o : Operation} (hfew : o.operands.length ≤ 3)
    (hlabels : ∀ l, Operand.label l ∉ o.operands) : o.Plain :=
  ⟨fun l hl => absurd hl (hlabels l), hfew⟩

variable {dst src lhs rhs base value offset : Temp} {l pos neg : Label} {n : Nat}

/-- An operation on a temporary and a number can stand in a template. -/
theorem plain_combineNumber (m : Mnemonic) (n : Nat) : (combineNumber m dst lhs n).Plain :=
  plain_of_unlabeled (Nat.le_refl 3) (by simp [combineNumber])

/-- A load can stand in a template. -/
theorem plain_load (n : Nat) : (load dst base n).Plain :=
  plain_of_unlabeled (Nat.le_refl 3) (by simp [load])

/-- A store can stand in a template. -/
theorem plain_store (n : Nat) : (store value base n).Plain :=
  plain_of_unlabeled (Nat.le_refl 3) (by simp [store])

/-- A store of an argument can stand in a template. -/
theorem plain_storeArg (n : Nat) : (storeArg value n).Plain :=
  plain_of_unlabeled (Nat.le_refl 3) (by simp [storeArg])

/-- Setting a group can be read, if the number has sixteen bits. -/
theorem proper_set (group : Wyde) (hn : n < UInt16.size) : (set group dst n).Proper :=
  ⟨readable_of_fits rfl (by simp [set]) (by simp [set, Mnemonic.numberLimit, hn]), Nat.zero_le 2,
    Nat.le_refl 1⟩

/-- Adding to a group can be read, if the number has sixteen bits. -/
theorem proper_inc (group : Wyde) (hn : n < UInt16.size) : (inc group dst n).Proper :=
  ⟨readable_of_fits rfl (by simp [inc]) (by simp [inc, Mnemonic.numberLimit, hn]), Nat.le_succ 1,
    Nat.le_refl 1⟩

/-- Loading an address can be read, if the label is plain. -/
theorem proper_loadAddress (h : l.Plain) : (loadAddress dst l).Proper :=
  ⟨readable_of_fits rfl (by simp [loadAddress, h]) (by simp [loadAddress]), Nat.zero_le 2,
    Nat.le_refl 1⟩

/-- Negating can be read. -/
theorem proper_negate : (negate dst src).Proper :=
  ⟨readable_of_fits rfl (by simp [negate]) (by simp [negate]), Nat.le_succ 1, Nat.le_refl 1⟩

/-- Testing against zero can be read. -/
theorem proper_test (cond : Condition) : (test cond dst src).Proper :=
  ⟨readable_of_fits rfl (by simp [test]) (by simp [test, Mnemonic.numberLimit, UInt8.size]),
    Nat.le_succ 1,
    Nat.le_refl 1⟩

/-- Combining two temporaries can be read, for all mnemonics with three operands and no label. -/
theorem proper_combine {m : Mnemonic} (hcommas : m.commas = 2) (hlabel : m.namesLabel = false) :
    (combine m dst lhs rhs).Proper :=
  ⟨readable_of_fits (by simp only [combine, hcommas, hlabel]; rfl) (by simp [combine])
    (by simp [combine]), Nat.le_refl 2, Nat.le_refl 1⟩

/-- Combining a temporary and a number can be read, if the number has eight bits. -/
theorem proper_combineNumber {m : Mnemonic} (hcommas : m.commas = 2)
    (hlabel : m.namesLabel = false) (hn : n < UInt8.size) : (combineNumber m dst lhs n).Proper :=
  ⟨readable_of_fits (by simp only [combineNumber, hcommas, hlabel]; rfl) (by simp [combineNumber])
    (by simp [combineNumber, Mnemonic.numberLimit_eq hcommas, hn]), Nat.le_succ 1, Nat.le_refl 1⟩

/-- Getting the remainder can be read. -/
theorem proper_getRemainder : (getRemainder dst).Proper :=
  ⟨readable_of_fits rfl (by simp [getRemainder]) (by simp [getRemainder]), Nat.zero_le 2,
    Nat.le_refl 1⟩

/-- Loading from memory can be read, if the offset has eight bits. -/
theorem proper_load (hn : n < UInt8.size) : (load dst base n).Proper :=
  ⟨readable_of_fits rfl (by simp [load]) (by simp [load, Mnemonic.numberLimit, hn]), Nat.le_succ 1,
    Nat.le_refl 1⟩

/-- Storing to memory can be read, if the offset has eight bits. -/
theorem proper_store (hn : n < UInt8.size) : (store value base n).Proper :=
  ⟨readable_of_fits rfl (by simp [store]) (by simp [store, Mnemonic.numberLimit, hn]),
    Nat.le_refl 2, Nat.zero_le 1⟩

/-- Loading what a call returned can be read. -/
theorem proper_loadResult : (loadResult dst).Proper :=
  ⟨readable_of_fits rfl (by simp [loadResult]) (by simp [loadResult, Mnemonic.numberLimit]),
    Nat.zero_le 2, Nat.le_refl 1⟩

/-- Storing an argument can be read, if its offset has eight bits. -/
theorem proper_storeArg (hn : n < UInt8.size) : (storeArg value n).Proper :=
  ⟨readable_of_fits rfl (by simp [storeArg]) (by simp [storeArg, Mnemonic.numberLimit, hn]),
    Nat.le_succ 1, Nat.zero_le 1⟩

/-- Storing an argument at an offset in a temporary can be read. -/
theorem proper_storeArgAt : (storeArgAt value offset).Proper :=
  ⟨readable_of_fits rfl (by simp [storeArgAt]) (by simp [storeArgAt]), Nat.le_refl 2,
    Nat.zero_le 1⟩

/-- Copying the frame pointer can be read. -/
theorem proper_copyFramePointer : (copyFramePointer dst).Proper :=
  ⟨readable_of_fits rfl (by simp [copyFramePointer])
    (by simp [copyFramePointer, Mnemonic.numberLimit]), Nat.zero_le 2, Nat.le_refl 1⟩

/-- Computing an address below the frame pointer can be read. -/
theorem proper_belowFramePointer : (belowFramePointer dst offset).Proper :=
  ⟨readable_of_fits rfl (by simp [belowFramePointer]) (by simp [belowFramePointer]), Nat.le_succ 1,
    Nat.le_refl 1⟩

/-- A branch can be read, if the label that it names is plain. -/
theorem proper_branch (h : pos.Plain) : (branch src pos neg).Proper :=
  ⟨readable_of_fits rfl (by simp [branch, h]) (by simp [branch]), Nat.le_succ 1, Nat.zero_le 1⟩

/-- A jump can be read, if its label is plain. -/
theorem proper_jump (h : l.Plain) : (jump l).Proper :=
  ⟨readable_of_fits rfl (by simp [jump, h]) (by simp [jump]), Nat.zero_le 2, Nat.zero_le 1⟩

/-- A call can be read, if its label is plain. -/
theorem proper_call (h : l.Plain) : (call l).Proper :=
  ⟨readable_of_fits rfl (by simp [call, h]) (by simp [call]), Nat.zero_le 2, Nat.zero_le 1⟩

end Operation

end MmixCodegen
