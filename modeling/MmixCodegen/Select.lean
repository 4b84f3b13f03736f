import MmixCodegen.Event
import MmixCodegen.Instr
import MmixCodegen.Operation
import MmixCodegen.Temp
import MmixCodegen.Tree

/-!
# Instruction selection

Selection turns tree code into instructions over temporaries: operations are
emitted for expressions, then for statements, then for the procedures of a
program.
-/

set_option autoImplicit false

namespace MmixCodegen

/-!
## Emitting operations

Selection draws fresh temporaries from a supply and may fail; the part of the
supply that was used before a failure stays used. The frame pointer is not a
temporary like the others: operations name its register directly, and none may
write it.
-/

/-- A computation that draws from a supply of temporaries and may fail. -/
abbrev Select := EStateM Failure Supply

namespace Select

/-- A result that draws nothing. -/
def ofExcept {α : Type} : Except Failure α → Select α
  | .ok a => pure a
  | .error e => throw e

/-- Take a fresh temporary. -/
def fresh : Select Temp := fun s =>
  match s.fresh? with
  | some (t, rest) => .ok t rest
  | none => .error .temporariesExhausted s

/-- Replace the frame pointer among the operands that are read by the name of
its register, and number the other ones anew. Nothing changes if the frame
pointer is not read. -/
def inlineFramePointer (fp : Temp) (template : String) (uses : List Temp) :
    Except Failure (String × List Temp) :=
  if uses.contains fp then do
    let operand : Slot → Except Failure String
      | .read i =>
          match uses[i]? with
          | none => .error (.readSlotOutOfRange i template)
          | some t =>
            if t = fp then .ok Register.framePointer.name
            else .ok (Slot.read ((uses.take i).filter (· ≠ fp)).length).text
      | s => .ok s.text
    let text ← Template.expand template operand fun fault => .malformedTemplate fault template
    return (text, uses.filter (· ≠ fp))
  else
    .ok (template, uses)

/-- The instruction of an operation in a routine with frame pointer `fp`. -/
def emit (fp : Temp) (o : Operation) : Select Instr :=
  if o.defs.contains fp then
    throw (.framePointerWritten fp)
  else do
    let (template, uses) ← ofExcept (inlineFramePointer fp o.template o.uses)
    return .ofKind (.oper template uses o.defs o.targets)

/-- A copy in a routine with frame pointer `fp`. A copy of the frame pointer is
an operation on its register. -/
def emitCopy (fp dst src : Temp) : Select Instr :=
  if dst = fp then
    throw (.framePointerWritten fp)
  else if src = fp then
    return (Operation.copyFramePointer dst).instr
  else
    return .copy dst src

end Select

/-!
## Selecting operations for expressions

Operands are computed from left to right before the operation that consumes
them, so that calls and loads keep their order. Every computed value gets a
fresh temporary. Small constants become part of the operation where MMIX allows
it: as the second operand of arithmetic, and as the offset of an address.
-/

namespace Select

/-- The largest number that fits into an operation. -/
def maxImmediate : Int := 255

/-- Whether a number is positive and fits into an operation. -/
def isImmediate (c : Int) : Bool :=
  0 < c && c ≤ maxImmediate

/-- How an operation with a constant right operand can be done without a
temporary for the constant. -/
inductive Shortcut where
  /-- The result is the left operand. -/
  | same
  /-- The number is part of the operation. -/
  | number (m : Mnemonic) (n : Nat)
deriving DecidableEq, Repr

/-- The shortcut for an operator and a constant. Addition and subtraction turn
into each other for a negative constant. -/
def shortcut? (op : BinaryOp) (value : Int64) : Option Shortcut :=
  let c := value.toInt
  match op with
  | .add =>
      if c = 0 then some .same
      else if isImmediate c then some (.number .add c.toNat)
      else if isImmediate (-c) then some (.number .sub (-c).toNat)
      else none
  | .sub =>
      if c = 0 then some .same
      else if isImmediate c then some (.number .sub c.toNat)
      else if isImmediate (-c) then some (.number .add (-c).toNat)
      else none
  | .mul =>
      if c = 1 then some .same
      else if isImmediate c then some (.number .mul c.toNat)
      else none
  | .div =>
      if c = 1 then some .same
      else if isImmediate c then some (.number .div c.toNat)
      else none
  | _ => none

/-- The shortcut for an operator and its right operand. -/
def operandShortcut? (op : BinaryOp) : Expr → Option Shortcut
  | .const value => shortcut? op value
  | _ => none

/-- The offset of an address that adds a small constant to its base, or
subtracts one from it. -/
def offset? (op : BinaryOp) (value : Int64) : Option Int :=
  let c := value.toInt
  if maxImmediate < c.natAbs then none
  else match op with
    | .add => some c
    | .sub => some (-c)
    | _ => none

/-- The operation of a unary operator. -/
def unaryOperation (op : UnaryOp) (dst src : Temp) : Operation :=
  match op with
  | .neg => .negate dst src
  | .not => .test .zero dst src

/-- Compare two words and test the result. -/
def comparison (cond : Condition) (dst lhs rhs : Temp) : List Operation :=
  [.combine .cmp dst lhs rhs, .test cond dst dst]

/-- The operations of a binary operator. -/
def binaryOperations (op : BinaryOp) (dst lhs rhs : Temp) : List Operation :=
  match op with
  | .add => [.combine .add dst lhs rhs]
  | .sub => [.combine .sub dst lhs rhs]
  | .mul => [.combine .mul dst lhs rhs]
  | .div => [.combine .div dst lhs rhs]
  | .and => [.combine .and dst lhs rhs]
  | .or => [.combine .or dst lhs rhs]
  | .mod => [.combine .div dst lhs rhs, .getRemainder dst]
  | .eq => comparison .zero dst lhs rhs
  | .ne => comparison .nonzero dst lhs rhs
  | .lt => comparison .negative dst lhs rhs
  | .gt => comparison .positive dst lhs rhs
  | .le => comparison .nonpositive dst lhs rhs
  | .ge => comparison .nonnegative dst lhs rhs

/-- A value: the instructions that compute it and the temporary it ends up in. -/
abbrev Value := List Instr × Temp

/-- A constant. Small negative numbers are negated after loading, which is
shorter than setting all groups. -/
def constant (fp : Temp) (value : Int64) : Select Value := do
  let dst ← fresh
  if isImmediate (-value.toInt) then
    let i ← emit fp (.negate dst dst)
    return ((Operation.loadConstant dst (-value).toUInt64).map Operation.instr ++ [i], dst)
  else
    return ((Operation.loadConstant dst value.toUInt64).map Operation.instr, dst)

/-- Apply a shortcut to the left operand. -/
def applyShortcut (fp lhs : Temp) : Shortcut → Select Value
  | .same => do
      let dst ← fresh
      let i ← emitCopy fp dst lhs
      return ([i], dst)
  | .number m n => do
      let dst ← fresh
      let i ← emit fp (.combineNumber m dst lhs n)
      return ([i], dst)

/-- Load the word at an offset from `base`. A negative offset is subtracted
first. -/
def loadAt (fp base : Temp) (offset : Int) : Select Value := do
  let dst ← fresh
  if 0 ≤ offset then
    let i ← emit fp (.load dst base offset.toNat)
    return ([i], dst)
  else
    let i ← emit fp (.combineNumber .sub dst base (-offset).toNat)
    let j ← emit fp (.load dst dst 0)
    return ([i, j], dst)

/-- Store argument number `index` of a call. Arguments are 8 bytes apart; an
offset that does not fit into the operation is loaded first. -/
def storeArg (fp value : Temp) (index : Nat) : Select (List Instr) := do
  let offset := 8 * index
  if offset ≤ maxImmediate then
    let i ← emit fp (.storeArg value offset)
    return [i]
  else
    let slot ← fresh
    let i ← emit fp (.storeArgAt value slot)
    return (Operation.loadConstant slot (UInt64.ofNat offset)).map Operation.instr ++ [i]

mutual

/-- Select operations for an expression. -/
def expr (fp : Temp) : Expr → Select Value
  | .const value => constant fp value
  | .address l => do
      let dst ← fresh
      let i ← emit fp (.loadAddress dst l)
      return ([i], dst)
  | .temp t => return ([], t)
  | .mem (.binary op base (.const value)) =>
      match offset? op value with
      | some offset => do
          let (is, b) ← expr fp base
          let (js, dst) ← loadAt fp b offset
          return (is ++ js, dst)
      | none => do
          let (is, b) ← expr fp (.binary op base (.const value))
          let (js, dst) ← loadAt fp b 0
          return (is ++ js, dst)
  | .mem addr => do
      let (is, b) ← expr fp addr
      let (js, dst) ← loadAt fp b 0
      return (is ++ js, dst)
  | .unary op e => do
      let (is, src) ← expr fp e
      let dst ← fresh
      let i ← emit fp (unaryOperation op dst src)
      return (is ++ [i], dst)
  | .binary op lhs rhs => do
      let (is, left) ← expr fp lhs
      match operandShortcut? op rhs with
      | some s => do
          let (js, dst) ← applyShortcut fp left s
          return (is ++ js, dst)
      | none => do
          let (js, right) ← expr fp rhs
          let dst ← fresh
          let ks ← (binaryOperations op dst left right).mapM (emit fp)
          return (is ++ js ++ ks, dst)
  | .call l es => do
      let is ← args fp 0 es
      let i ← emit fp (.call l)
      let dst ← fresh
      let j ← emit fp (.loadResult dst)
      return (is ++ [i, j], dst)

/-- Compute the arguments of a call, from argument number `index` on, and store
each of them as soon as it is known. -/
def args (fp : Temp) (index : Nat) : List Expr → Select (List Instr)
  | [] => return []
  | e :: es => do
      let (is, value) ← expr fp e
      let js ← storeArg fp value index
      let ks ← args fp (index + 1) es
      return is ++ js ++ ks

end

/-- An address: a base and an offset from it. -/
def address (fp : Temp) : Expr → Select (Value × Int)
  | .binary op base (.const value) =>
      match offset? op value with
      | some offset => do
          let v ← expr fp base
          return (v, offset)
      | none => do
          let v ← expr fp (.binary op base (.const value))
          return (v, 0)
  | addr => do
      let v ← expr fp addr
      return (v, 0)

/-- Call a procedure and leave its result at the stack pointer. -/
def call (fp : Temp) (l : Label) (es : List Expr) : Select (List Instr) := do
  let is ← args fp 0 es
  let i ← emit fp (.call l)
  return is ++ [i]

end Select

/-! ## Selecting operations for statements -/

namespace Select

/-- Store a value: first the address is computed, then the value. -/
def store (fp : Temp) (addr src : Expr) : Select (List Instr) := do
  let ((is, base), offset) ← address fp addr
  if 0 ≤ offset then
    let (js, value) ← expr fp src
    let i ← emit fp (.store value base offset.toNat)
    return is ++ js ++ [i]
  else
    let place ← fresh
    let i ← emit fp (.combineNumber .sub place base (-offset).toNat)
    let (js, value) ← expr fp src
    let j ← emit fp (.store value place 0)
    return is ++ [i] ++ js ++ [j]

/-- Put the value of an expression into a temporary. The result of a call is
loaded straight into it. -/
def assign (fp dst : Temp) (src : Expr) : Select (List Instr) :=
  if dst = fp then
    throw (.framePointerWritten fp)
  else
    match src with
    | .call l es => do
        let is ← call fp l es
        let i ← emit fp (.loadResult dst)
        return is ++ [i]
    | src => do
        let (is, value) ← expr fp src
        let i ← emitCopy fp dst value
        return is ++ [i]

/-- Select operations for a statement. -/
def stmt (fp : Temp) : Stmt → Select (List Instr)
  | .move (.temp dst) src => assign fp dst src
  | .move (.mem addr) src => store fp addr src
  | .move dst _ => throw (.badDestination dst)
  | .branch cond pos neg => do
      let (is, value) ← expr fp cond
      let i ← emit fp (.branch value pos neg)
      return is ++ [i]
  | .jump target => do
      let i ← emit fp (.jump target)
      return [i]
  | .label l => return [.ofKind (.label l)]
  | .eval (.call l es) => call fp l es
  | .eval e => do
      let (is, _) ← expr fp e
      return is

/-- Select operations for a list of statements. -/
def stmts (fp : Temp) : List Stmt → Select (List Instr)
  | [] => return []
  | s :: ss => do
      let is ← stmt fp s
      let js ← stmts fp ss
      return is ++ js

/-- Select operations for a procedure. -/
def procedure (p : Procedure) : Select (List Instr) :=
  stmts p.frame.fp p.body

end Select

/-!
## Selecting operations for a program

The procedures of a program share one supply of temporaries, which starts above
every temporary that any of them mentions.
-/

namespace Procedure

/-- The routine of a procedure with the given instructions. -/
def toRoutine (p : Procedure) (instrs : List Instr) : Routine :=
  ⟨p.frame, p.entry, p.exit, instrs, .empty⟩

/-- Select the routine of a procedure. The supply that is left is also given
after a failure. -/
def select (p : Procedure) (supply : Supply) : Logged Routine × Supply :=
  match (Select.procedure p).run supply with
  | .ok instrs rest =>
      (⟨[.selected instrs.length p.frame.label], .ok (p.toRoutine instrs)⟩, rest)
  | .error e rest => (.fail e, rest)

end Procedure

namespace Program

/-- The supply above every temporary of some procedures. The highest number has
no successor. -/
def firstSupply : List Procedure → Except Failure Supply
  | [] => .ok ⟨0⟩
  | p :: ps =>
      if p.maxTemp < Supply.limit then do
        let rest ← firstSupply ps
        return ⟨max (p.maxTemp + 1) rest.next⟩
      else
        .error .temporariesExhausted

/-- Select the routines of procedures in order. -/
def selectRoutines (supply : Supply) : List Procedure → Logged Program
  | [] => pure ⟨[], supply⟩
  | p :: ps => do
      let (selected, rest) := p.select supply
      let r ← selected
      let program ← selectRoutines rest ps
      return { program with routines := r :: program.routines }

/-- Select the program of some procedures. -/
def select (ps : List Procedure) : Logged Program := do
  let supply ← Logged.ofExcept (firstSupply ps)
  selectRoutines supply ps

end Program

end MmixCodegen
