import MmixCodegen.Proofs.Mmix.Step
import MmixCodegen.Select

/-!
# `MmixCodegen.Proofs.Tree`: what tree code does

The meaning of tree code, given the addresses of labels. Arithmetic is on 64-bit words
and wraps around, quotients and remainders are those of the machine, comparisons are
signed and give zero or one. A statement is one step. Calls have no meaning here: the
statements about `Expr.eval` and `Tree.step` are for code without them
(`Expr.callFree`).

A branch whose operand is zero goes on right behind it if its second label is set there.
Otherwise it jumps, and so does every other transfer of control.
-/

set_option autoImplicit false

namespace MmixCodegen

/-! ### Expressions -/

/-- The word that stands for a truth value. -/
def Word.ofBool (b : Bool) : Word :=
  if b then 1 else 0

/-- The value of a unary operator. -/
def UnaryOp.apply : UnaryOp → Word → Word
  | neg, x => -x
  | not, x => Word.ofBool (x = 0)

/-- The value of a binary operator. -/
def BinaryOp.apply : BinaryOp → Word → Word → Word
  | add, x, y => x + y
  | sub, x, y => x - y
  | mul, x, y => x * y
  | div, x, y => Mmix.quotient x y
  | mod, x, y => Mmix.residue x y
  | and, x, y => x &&& y
  | or, x, y => x ||| y
  | eq, x, y => Word.ofBool (x = y)
  | ne, x, y => Word.ofBool (x ≠ y)
  | lt, x, y => Word.ofBool (x.toInt64 < y.toInt64)
  | gt, x, y => Word.ofBool (y.toInt64 < x.toInt64)
  | le, x, y => Word.ofBool (x.toInt64 ≤ y.toInt64)
  | ge, x, y => Word.ofBool (y.toInt64 ≤ x.toInt64)

namespace Expr

/-- The value of an expression without calls. -/
def eval (symbols : Label → Word) (temps : Temp → Word) (memory : Memory) : Expr → Word
  | const value => value.toUInt64
  | address l => symbols l
  | temp t => temps t
  | mem addr => memory.load (addr.eval symbols temps memory)
  | unary op e => op.apply (e.eval symbols temps memory)
  | binary op lhs rhs => op.apply (lhs.eval symbols temps memory) (rhs.eval symbols temps memory)
  | call _ _ => 0

/-- Whether there is no call in an expression. -/
def callFree : Expr → Bool
  | const _ | address _ | temp _ => true
  | mem addr => addr.callFree
  | unary _ e => e.callFree
  | binary _ lhs rhs => lhs.callFree && rhs.callFree
  | call _ _ => false

mutual

/-- The labels of an expression, from left to right. -/
def labels : Expr → List Label
  | const _ => []
  | address l => [l]
  | temp _ => []
  | mem addr => addr.labels
  | unary _ e => e.labels
  | binary _ lhs rhs => lhs.labels ++ rhs.labels
  | call l args => l :: argLabels args

/-- The labels of a list of arguments, from left to right. -/
def argLabels : List Expr → List Label
  | [] => []
  | e :: es => e.labels ++ argLabels es

end

/-- The value of an expression depends on its own temporaries alone. -/
theorem eval_congr {symbols : Label → Word} {f g : Temp → Word} {memory : Memory} {e : Expr}
    (hcalls : e.callFree = true) (h : ∀ t ∈ e.temps, f t = g t) :
    e.eval symbols f memory = e.eval symbols g memory := by
  induction e using Expr.eval.induct with
  | case1 | case2 => rfl
  | case3 t => exact h t (List.mem_singleton_self t)
  | case4 addr ih => rw [eval, eval, ih hcalls h]
  | case5 op e ih => rw [eval, eval, ih hcalls h]
  | case6 op lhs rhs ihl ihr =>
      rw [callFree, Bool.and_eq_true] at hcalls
      rw [eval, eval, ihl hcalls.1 fun t ht => h t (List.mem_append_left _ ht),
        ihr hcalls.2 fun t ht => h t (List.mem_append_right _ ht)]
  | case7 => cases hcalls

end Expr

/-! ### Statements -/

namespace Stmt

/-- The label that a statement sets. -/
def label? : Stmt → Option Label
  | label l => some l
  | _ => none

/-- Whether there is no call in a statement. -/
def callFree : Stmt → Bool
  | move dst src => dst.callFree && src.callFree
  | branch cond _ _ => cond.callFree
  | jump _ | label _ => true
  | eval e => e.callFree

/-- The labels of a statement, from left to right. -/
def labels : Stmt → List Label
  | move dst src => dst.labels ++ src.labels
  | branch cond pos neg => cond.labels ++ [pos, neg]
  | jump target => [target]
  | label l => [l]
  | eval e => e.labels

end Stmt

namespace Tree

/-- A state of tree code. -/
structure State where
  place : Place
  temps : Temp → Word
  memory : Memory

/-- The value of an expression in a state. -/
def State.value (s : State) (symbols : Label → Word) (e : Expr) : Word :=
  e.eval symbols s.temps s.memory

/-- Where a jump leads. A label that is set twice stands for its last occurrence. -/
def goto (body : List Stmt) (l : Label) : Place :=
  match Flow.lastIndex? (fun s => s.label? = some l) 0 body with
  | some index => .line index
  | none => .left l

/-- Jump to a label. -/
def jump (body : List Stmt) (s : State) (l : Label) : State × List Label :=
  ({ s with place := goto body l }, [l])

/-- Carry out the statement with an index, and give the label that it jumps to. Nothing can
be moved to anything but a temporary and memory. -/
def perform (symbols : Label → Word) (body : List Stmt) (index : Nat) (s : State) :
    Stmt → State × List Label
  | .move (.temp t) src =>
      ({ s with place := .line (index + 1),
                temps := Function.update s.temps t (s.value symbols src) }, [])
  | .move (.mem addr) src =>
      ({ s with place := .line (index + 1),
                memory := s.memory.store (s.value symbols addr) (s.value symbols src) }, [])
  | .move _ _ => (s, [])
  | .branch cond pos neg =>
      if s.value symbols cond ≠ 0 then jump body s pos
      else if body[index + 1]?.bind Stmt.label? = some neg then
        ({ s with place := .line (index + 1) }, [])
      else jump body s neg
  | .jump target => jump body s target
  | .label _ => ({ s with place := .line (index + 1) }, [])
  | .eval _ => ({ s with place := .line (index + 1) }, [])

/-- One step. Outside of the code nothing happens any more. -/
def step (symbols : Label → Word) (body : List Stmt) (s : State) : State × List Label :=
  match s.place with
  | .left _ => (s, [])
  | .line index =>
      match body[index]? with
      | none => (s, [])
      | some stmt => perform symbols body index s stmt

/-- The state after some steps, and the jumps on the way. -/
def run (symbols : Label → Word) (body : List Stmt) (s : State) : Nat → State × List Label
  | 0 => (s, [])
  | n + 1 =>
      let (reached, before) := run symbols body s n
      let (next, now) := step symbols body reached
      (next, before ++ now)

end Tree

namespace Procedure

/-- The labels of a procedure's body. -/
def labels (p : Procedure) : List Label :=
  p.body.flatMap Stmt.labels

/-- Whether there is no call in a procedure. -/
def callFree (p : Procedure) : Bool :=
  p.body.all Stmt.callFree

/-- Right behind each branch its second label is set. -/
def FallsThrough (p : Procedure) : Prop :=
  ∀ index cond pos neg, p.body[index]? = some (.branch cond pos neg) →
    p.body[index + 1]? = some (.label neg)

end Procedure

end MmixCodegen
