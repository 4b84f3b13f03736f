import MmixCodegen.Temp
import MmixCodegen.Text

/-!
# Tree code

Tree code is what instruction selection reads: a list of statements for each
procedure, over expressions that compute one 64-bit word each.
-/

set_option autoImplicit false

namespace MmixCodegen

/-!
## Expressions of tree code

Tree code is what instruction selection reads. An expression computes one
64-bit word; a `mem` node reads the word at an address.
-/

/-- Operators with one operand. -/
inductive UnaryOp where
  | neg
  | not
deriving DecidableEq, Repr

/-- Operators with two operands. -/
inductive BinaryOp where
  | add
  | sub
  | mul
  | div
  | mod
  | and
  | or
  | eq
  | ne
  | lt
  | gt
  | le
  | ge
deriving DecidableEq, Repr

/-- An expression of tree code. -/
inductive Expr where
  /-- A constant word. -/
  | const (value : Int64)
  /-- The address of a named place. -/
  | address (label : Label)
  /-- The value of a temporary. -/
  | temp (t : Temp)
  /-- The word stored at an address. -/
  | mem (addr : Expr)
  | unary (op : UnaryOp) (e : Expr)
  | binary (op : BinaryOp) (lhs rhs : Expr)
  /-- The result of a call. -/
  | call (label : Label) (args : List Expr)
deriving Repr

namespace Expr

mutual

/-- The temporaries of an expression, from left to right. -/
def temps : Expr → List Temp
  | const _ => []
  | address _ => []
  | temp t => [t]
  | mem addr => addr.temps
  | unary _ e => e.temps
  | binary _ lhs rhs => lhs.temps ++ rhs.temps
  | call _ args => argTemps args

/-- The temporaries of a list of arguments, from left to right. -/
def argTemps : List Expr → List Temp
  | [] => []
  | e :: es => e.temps ++ argTemps es

end

end Expr

/-!
## Statements and procedures of tree code

A procedure is a list of statements with explicit labels and jumps, together
with its stack frame. Leaving the procedure is a jump to its exit label.
-/

/-- A statement of tree code. -/
inductive Stmt where
  /-- Store the value of `src` in `dst`, a temporary or a `mem` expression. -/
  | move (dst src : Expr)
  /-- Jump to `pos` if the condition is not zero, and to `neg` otherwise. -/
  | branch (cond : Expr) (pos neg : Label)
  | jump (target : Label)
  | label (l : Label)
  /-- Evaluate an expression for its effects. -/
  | eval (e : Expr)
deriving Repr

namespace Stmt

/-- The temporaries of a statement, from left to right. -/
def temps : Stmt → List Temp
  | move dst src => dst.temps ++ src.temps
  | branch cond _ _ => cond.temps
  | jump _ => []
  | label _ => []
  | eval e => e.temps

end Stmt

/-- One procedure in tree code. -/
structure Procedure where
  frame : Frame
  entry : Label
  exit : Label
  body : List Stmt
deriving Repr

namespace Procedure

/-- The temporaries of a procedure: those of its body and its frame. -/
def temps (p : Procedure) : List Temp :=
  p.body.flatMap Stmt.temps ++ [p.frame.fp, p.frame.rv]

/-- The highest temporary number of a procedure. -/
def maxTemp (p : Procedure) : Nat :=
  p.temps.foldl (fun m t => max m t.number) 0

end Procedure

/-!
## Expressions in messages

The text of an expression as messages show it: the form of each node, then its
parts in order.
-/

/-- The name of a unary operator in messages. -/
def UnaryOp.describe : UnaryOp → String
  | neg => "Neg"
  | not => "Not"

/-- The name of a binary operator in messages. -/
def BinaryOp.describe : BinaryOp → String
  | add => "Add"
  | sub => "Sub"
  | mul => "Mul"
  | div => "Div"
  | mod => "Mod"
  | and => "And"
  | or => "Or"
  | eq => "Eq"
  | ne => "Ne"
  | lt => "Lt"
  | gt => "Gt"
  | le => "Le"
  | ge => "Ge"

/-- A label in messages. -/
def Label.describe (l : Label) : String :=
  "Label(" ++ Text.quoted l.name ++ ")"

namespace Expr

mutual

/-- The text of an expression in messages. -/
def describe : Expr → String
  | const value => "Const(" ++ toString value.toInt ++ ")"
  | address label => "Name(" ++ label.describe ++ ")"
  | temp t => "Temp(" ++ t.entry ++ ")"
  | mem addr => "Mem(" ++ addr.describe ++ ")"
  | unary op e => "UnOp \x7b op: " ++ op.describe ++ ", expr: " ++ e.describe ++ " \x7d"
  | binary op lhs rhs =>
      "BinOp \x7b op: " ++ op.describe ++ ", lhs: " ++ lhs.describe ++
        ", rhs: " ++ rhs.describe ++ " \x7d"
  | call label args =>
      "Call \x7b label: " ++ label.describe ++
        ", args: [" ++ ", ".intercalate (describeArgs args) ++ "] \x7d"

/-- The texts of a list of arguments. -/
def describeArgs : List Expr → List String
  | [] => []
  | e :: es => e.describe :: describeArgs es

end

end Expr

end MmixCodegen
