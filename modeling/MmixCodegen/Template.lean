/-!
# Operand templates

The text of an operation is a template: assembly text in which a backquote
marks an operand slot. After the mark stands `s` with an index for an operand
that is read, `d` with an index for one that is written, or `k` for the
register window of a call. An index is a run of decimal digits below `2 ^ 64`
and is taken as long as possible.

A template is scanned into pieces. A scan stops at the first fault, so a fault
can only be the last piece.
-/

set_option autoImplicit false

namespace MmixCodegen

/-- What a slot of a template refers to. -/
inductive Slot where
  /-- The operand that is read at this position. -/
  | read (index : Nat)
  /-- The operand that is written at this position. -/
  | write (index : Nat)
  /-- The register window of a call. -/
  | window
deriving DecidableEq, Repr

namespace Template

/-- Why a template cannot be read. -/
inductive Fault where
  /-- Nothing follows the mark. -/
  | dangling
  /-- No index follows, or one that is too large. -/
  | noIndex
  /-- The mark is followed by an unknown letter. -/
  | unknownKind (kind : Char)
deriving DecidableEq, Repr

/-- A piece of a scanned template. -/
inductive Piece where
  | char (c : Char)
  | slot (s : Slot)
  | fault (f : Fault)
deriving DecidableEq, Repr

/-- The character that marks a slot. -/
def mark : Char := '\x60'

/-- The letter of a slot for the register window. -/
def windowLetter : Char := 'k'

/-- The letter of a slot that is read. -/
def readLetter : Char := 's'

/-- The letter of a slot that is written. -/
def writeLetter : Char := 'd'

/-- Where a scan stands: in plain text, behind a mark, or inside an index whose
value so far is `none` before the first digit. -/
inductive Mode where
  | text
  | marked
  | index (kind : Char) (value : Option Nat)
deriving DecidableEq, Repr

/-- The value of an index after one more digit. -/
def pushDigit (value : Option Nat) (c : Char) : Option Nat :=
  some (value.getD 0 * 10 + (c.toNat - '0'.toNat))

/-- The piece for a slot whose letter and index have been read. -/
def slotPiece (kind : Char) (value : Option Nat) : Piece :=
  match value with
  | none => .fault .noIndex
  | some i =>
    if UInt64.size ≤ i then .fault .noIndex
    else if kind = readLetter then .slot (.read i)
    else if kind = writeLetter then .slot (.write i)
    else .fault (.unknownKind kind)

/-- Scan the rest of a template. -/
def scanFrom : Mode → List Char → List Piece
  | .text, [] => []
  | .text, c :: cs =>
      if c = mark then scanFrom .marked cs else .char c :: scanFrom .text cs
  | .marked, [] => [.fault .dangling]
  | .marked, c :: cs =>
      if c = windowLetter then .slot .window :: scanFrom .text cs
      else scanFrom (.index c none) cs
  | .index kind value, [] => [slotPiece kind value]
  | .index kind value, c :: cs =>
      if c.isDigit then scanFrom (.index kind (pushDigit value c)) cs
      else match slotPiece kind value with
        | .fault f => [.fault f]
        | piece =>
            piece :: (if c = mark then scanFrom .marked cs else .char c :: scanFrom .text cs)

/-- The pieces of a template. -/
def scan (template : String) : List Piece :=
  scanFrom .text template.toList

/-- Join the pieces of a template, with `operand` giving the text of each slot.
The leftmost error wins. -/
def join {ε : Type} (operand : Slot → Except ε String) (fault : Fault → ε) :
    List Piece → Except ε (List Char)
  | [] => .ok []
  | .char c :: ps => do
      let rest ← join operand fault ps
      return c :: rest
  | .slot s :: ps => do
      let text ← operand s
      let rest ← join operand fault ps
      return text.toList ++ rest
  | .fault f :: _ => .error (fault f)

/-- Replace each slot of a template by the text that `operand` gives for it. -/
def expand {ε : Type} (template : String) (operand : Slot → Except ε String)
    (fault : Fault → ε) : Except ε String := do
  let cs ← join operand fault (scan template)
  return String.ofList cs

end Template

/-- A slot as it is written in a template. -/
def Slot.text : Slot → String
  | read i => "`s" ++ toString i
  | write i => "`d" ++ toString i
  | window => "`k"

/-- Expand a template over the names of the operands that are read and those
that are written. The window slot stays as it is. A template that cannot be
read, or that names a missing operand, has no text. -/
def Template.render? (template : String) (reads writes : List String) : Option String :=
  let operand : Slot → Except Unit String
    | .read i => reads[i]?.elim (.error ()) .ok
    | .write i => writes[i]?.elim (.error ()) .ok
    | .window => .ok Slot.window.text
  (Template.expand template operand fun _ => ()).toOption

end MmixCodegen
