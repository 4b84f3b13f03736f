import MmixCodegen.Instr

/-!
# MMIX operations

An operation is a mnemonic with its operands in assembly order. Its template
numbers the operands that are read and those that are written from left to
right. Slots and operand lists are made from the same operands, so every slot
of the template has its operand.
-/

set_option autoImplicit false

namespace MmixCodegen

/-- One of the four 16-bit groups of a word, from the lowest to the highest. -/
inductive Wyde where
  | low
  | mediumLow
  | mediumHigh
  | high
deriving DecidableEq, Repr

namespace Wyde

/-- The suffix that names the group in a mnemonic. -/
def suffix : Wyde → String
  | low => "L"
  | mediumLow => "ML"
  | mediumHigh => "MH"
  | high => "H"

/-- How many bits stand below the group. -/
def shift : Wyde → Nat
  | low => 0
  | mediumLow => 16
  | mediumHigh => 32
  | high => 48

/-- All groups, from the lowest to the highest. -/
def all : List Wyde := [low, mediumLow, mediumHigh, high]

end Wyde

/-- A test of a word against zero. -/
inductive Condition where
  | zero
  | nonzero
  | negative
  | positive
  | nonpositive
  | nonnegative
deriving DecidableEq, Repr

/-- The suffix that names the test in a mnemonic. -/
def Condition.suffix : Condition → String
  | zero => "Z"
  | nonzero => "NZ"
  | negative => "N"
  | positive => "P"
  | nonpositive => "NP"
  | nonnegative => "NN"

/-- The MMIX instructions that are used. -/
inductive Mnemonic where
  /-- Set a group and clear the others. -/
  | set (group : Wyde)
  /-- Add to a word from a group on. -/
  | inc (group : Wyde)
  /-- Load an address. -/
  | lda
  | neg
  | add
  | sub
  | mul
  | div
  | and
  | or
  /-- Compare, giving -1, 0 or 1. -/
  | cmp
  /-- Set to a value if the test holds, to zero otherwise. -/
  | zeroOrSet (cond : Condition)
  /-- Read a special register. -/
  | get
  /-- Load a word. -/
  | ldo
  /-- Store a word. -/
  | sto
  /-- Branch if not zero. -/
  | bnz
  | jmp
  /-- Push the registers and call. -/
  | pushj
deriving DecidableEq, Repr

/-- The assembly name of a mnemonic. -/
def Mnemonic.name : Mnemonic → String
  | set group => "SET" ++ group.suffix
  | inc group => "INC" ++ group.suffix
  | lda => "LDA"
  | neg => "NEG"
  | add => "ADD"
  | sub => "SUB"
  | mul => "MUL"
  | div => "DIV"
  | and => "AND"
  | or => "OR"
  | cmp => "CMP"
  | zeroOrSet cond => "ZS" ++ cond.suffix
  | get => "GET"
  | ldo => "LDO"
  | sto => "STO"
  | bnz => "BNZ"
  | jmp => "JMP"
  | pushj => "PUSHJ"

/-- An operand of an operation. -/
inductive Operand where
  | read (t : Temp)
  | write (t : Temp)
  /-- Read and then written, named once in the text. -/
  | update (t : Temp)
  | number (n : Nat)
  | label (l : Label)
  | register (r : Register)
  /-- The special register that holds the remainder of a division. -/
  | remainder
  /-- The register window of a call. -/
  | window
deriving DecidableEq, Repr

namespace Operand

/-- The temporary that an operand reads. -/
def read? : Operand → Option Temp
  | read t => some t
  | update t => some t
  | _ => none

/-- The temporary that an operand writes. -/
def write? : Operand → Option Temp
  | write t => some t
  | update t => some t
  | _ => none

/-- The texts of operands in a template, given how many operands were read and
written to the left of them. -/
def texts (reads writes : Nat) : List Operand → List String
  | [] => []
  | read _ :: os => (Slot.read reads).text :: texts (reads + 1) writes os
  | write _ :: os => (Slot.write writes).text :: texts reads (writes + 1) os
  | update _ :: os => (Slot.write writes).text :: texts (reads + 1) (writes + 1) os
  | number n :: os => toString n :: texts reads writes os
  | label l :: os => l.name :: texts reads writes os
  | register r :: os => r.name :: texts reads writes os
  | remainder :: os => "rR" :: texts reads writes os
  | window :: os => Slot.window.text :: texts reads writes os

end Operand

/-- A mnemonic with its operands and, for a jump, the places it may go to. -/
structure Operation where
  mnemonic : Mnemonic
  operands : List Operand
  targets : List Label := []
deriving DecidableEq, Repr

namespace Operation

/-- The temporaries that an operation reads. -/
def uses (o : Operation) : List Temp :=
  o.operands.filterMap Operand.read?

/-- The temporaries that an operation writes. -/
def defs (o : Operation) : List Temp :=
  o.operands.filterMap Operand.write?

/-- The template of an operation: the mnemonic, a blank, and the operands with
commas between them. -/
def template (o : Operation) : String :=
  o.mnemonic.name ++ " " ++ ",".intercalate (Operand.texts 0 0 o.operands)

/-- The instruction of an operation. -/
def instr (o : Operation) : Instr :=
  .ofKind (.oper o.template o.uses o.defs o.targets)

/-! ### The operations by what they do -/

/-- Set one group of `dst` and clear the others. -/
def set (group : Wyde) (dst : Temp) (value : Nat) : Operation :=
  ⟨.set group, [.write dst, .number value], []⟩

/-- Add to one group of `dst`. -/
def inc (group : Wyde) (dst : Temp) (value : Nat) : Operation :=
  ⟨.inc group, [.update dst, .number value], []⟩

/-- Load the address of a label. -/
def loadAddress (dst : Temp) (l : Label) : Operation :=
  ⟨.lda, [.write dst, .label l], []⟩

/-- Negate a word. -/
def negate (dst src : Temp) : Operation :=
  ⟨.neg, [.write dst, .read src], []⟩

/-- Set `dst` to `1` if `src` passes the test, and to `0` otherwise. -/
def test (cond : Condition) (dst src : Temp) : Operation :=
  ⟨.zeroOrSet cond, [.write dst, .read src, .number 1], []⟩

/-- Combine two temporaries. -/
def combine (m : Mnemonic) (dst lhs rhs : Temp) : Operation :=
  ⟨m, [.write dst, .read lhs, .read rhs], []⟩

/-- Combine a temporary with a number. -/
def combineNumber (m : Mnemonic) (dst lhs : Temp) (n : Nat) : Operation :=
  ⟨m, [.write dst, .read lhs, .number n], []⟩

/-- Fetch the remainder of the last division. -/
def getRemainder (dst : Temp) : Operation :=
  ⟨.get, [.write dst, .remainder], []⟩

/-- Load the word at a distance from `base`. -/
def load (dst base : Temp) (offset : Nat) : Operation :=
  ⟨.ldo, [.write dst, .read base, .number offset], []⟩

/-- Store a word at a distance from `base`. -/
def store (value base : Temp) (offset : Nat) : Operation :=
  ⟨.sto, [.read value, .read base, .number offset], []⟩

/-- Load the word that a call leaves at the stack pointer. -/
def loadResult (dst : Temp) : Operation :=
  ⟨.ldo, [.write dst, .register .stackPointer, .number 0], []⟩

/-- Store an argument at a distance from the stack pointer. -/
def storeArg (value : Temp) (offset : Nat) : Operation :=
  ⟨.sto, [.read value, .register .stackPointer, .number offset], []⟩

/-- Store an argument at a computed distance from the stack pointer. -/
def storeArgAt (value offset : Temp) : Operation :=
  ⟨.sto, [.read value, .register .stackPointer, .read offset], []⟩

/-- Copy the frame pointer. -/
def copyFramePointer (dst : Temp) : Operation :=
  ⟨.add, [.write dst, .register .framePointer, .number 0], []⟩

/-- Turn a distance into an address below the frame pointer. -/
def belowFramePointer (dst offset : Temp) : Operation :=
  ⟨.sub, [.write dst, .register .framePointer, .read offset], []⟩

/-- Go to `pos` if `cond` is not zero, and to `neg` otherwise. -/
def branch (cond : Temp) (pos neg : Label) : Operation :=
  ⟨.bnz, [.read cond, .label pos], [pos, neg]⟩

/-- Go to a label. -/
def jump (target : Label) : Operation :=
  ⟨.jmp, [.label target], [target]⟩

/-- Call a procedure. -/
def call (l : Label) : Operation :=
  ⟨.pushj, [.window, .label l], []⟩

end Operation

/-!
## Loading constants

A word is put together from its 16-bit groups. The lowest group that is not
zero is set, which clears the rest, and every later group that is not zero is
added. Groups that are zero cost nothing, except that the word zero takes one
operation.
-/

namespace Wyde

/-- The value of one group of a word. -/
def get (group : Wyde) (value : UInt64) : Nat :=
  (value.toNat >>> group.shift) % UInt16.size

end Wyde

namespace Operation

/-- The groups of a word that are not zero, from the lowest to the highest. -/
def nonzeroWydes (value : UInt64) : List Wyde :=
  Wyde.all.filter fun group => group.get value ≠ 0

/-- Load a word into a temporary. -/
def loadConstant (dst : Temp) (value : UInt64) : List Operation :=
  match nonzeroWydes value with
  | [] => [set .low dst 0]
  | first :: rest =>
      set first dst (first.get value) ::
        rest.map fun group => inc group dst (group.get value)

end Operation

end MmixCodegen
