import MmixCodegen.Proofs.Select.Call
import MmixCodegen.Proofs.Select.Order
import MmixCodegen.Proofs.Select.Stmt

/-!
# `MmixCodegen.Proofs.Select.Trace`: side effects keep their order and their operands

A run of the machine leaves a trace (`Mmix.sideEffects`): the loads with their addresses, the
stores with their addresses and values, the arguments with their distances from the stack
pointer, and the calls. `Stmt.execute` is the trace of tree code whose operands are evaluated
from left to right, one after the other, and what it leaves behind.

`Select.stmt_keeps_side_effects` says that a run through the code of a statement has the trace of
the statement, and leaves the same behind. Two loads that trade places, or one load done twice in
place of two, give another trace as soon as their addresses differ.

Called procedures are arbitrary, except that they give the frame pointer back. A temporary that
was read early may then be used late: nothing between changes it. `Select.Leaves` is what the
code of a part does, `Select.Evaluates` adds the value, and there is one lemma for each function
that selects instructions. What these compute is known from `Select.Computes`.
-/

set_option autoImplicit false

namespace MmixCodegen

/-! ### The trace of a run -/

namespace Mmix

/-- What code does besides computing temporaries, with the operands that it does it to. -/
inductive SideEffect where
  | load (address : Word)
  | store (address value : Word)
  /-- Load what a call left at the stack pointer. -/
  | loadResult
  /-- Store an argument at a distance from the stack pointer. -/
  | storeArgument (distance value : Word)
  | call (l : Label)
deriving DecidableEq, Repr

variable {E : Type}

/-- The side effect of an operation, from its operands and the values that it reads. -/
def sideEffect? : Mnemonic → List Arg → (inputs : List Word) → Option SideEffect
  | .ldo, as, [x, y] =>
      some (if as.drop 1 = [.register .stackPointer, .number 0] then .loadResult
        else .load (x + y))
  | .sto, as, [z, x, y] =>
      some (if as[1]? = some (.register .stackPointer) then .storeArgument y z
        else .store (x + y) z)
  | .pushj, [_, .label l], _ => some (.call l)
  | _, _, _ => none

/-- The side effect of carrying out an instruction. -/
def performed? (w : World E) (i : Instr) (c : Core E) : Option SideEffect :=
  (read? i.template).bind fun (m, as) =>
    sideEffect? m as (inputs w as (i.uses.map c.store) c.hidden)

/-- The side effect of the next step. -/
def stepped? (w : World E) (code : List Instr) (s : State E) : Option SideEffect :=
  match s.place with
  | .left _ => none
  | .line index => code[index]?.bind fun i =>
      if i.label?.isSome then none else performed? w i s.core

/-- The side effects of some steps, in order. -/
def sideEffects (w : World E) (code : List Instr) (s : State E) : Nat → List SideEffect
  | 0 => []
  | n + 1 => sideEffects w code s n ++ (stepped? w code (run w code s n).1).toList

/-- Called procedures give the frame pointer back. -/
def World.KeepsFrame (w : World E) : Prop :=
  ∀ l h, (w.callee l h).global .framePointer = h.global .framePointer

end Mmix

/-! ### The trace of tree code -/

namespace Tree

open Mmix (Hidden SideEffect)

/-- The side effects on the way, and what is left apart from the temporaries. -/
structure Trail (E : Type) where
  effects : List SideEffect
  hidden : Hidden E

/-- What comes of an expression. -/
structure Outcome (E : Type) extends Trail E where
  value : Word

end Tree

/-- Whether an operator divides by an operand. Nothing is done to divide by the constant one. -/
def BinaryOp.divides : BinaryOp → Expr → Bool
  | div, .const value => value.toInt ≠ 1
  | div, _ | mod, _ => true
  | _, _ => false

/-- What an operator leaves behind: a division leaves its remainder in the special register. -/
def BinaryOp.settle {E : Type} (op : BinaryOp) (rhs : Expr) (x y : Word) (h : Mmix.Hidden E) :
    Mmix.Hidden E :=
  if op.divides rhs then { h with remainder := Mmix.residue x y } else h

namespace Expr

open Mmix (Core Hidden World)

variable {E : Type}

mutual

/-- Evaluate an expression, operands from left to right. The frame pointer is in its register. -/
def evaluate (w : World E) (fp : Temp) (store : Temp → Word) : Expr → Hidden E → Tree.Outcome E
  | const value, h => ⟨⟨[], h⟩, value.toUInt64⟩
  | address l, h => ⟨⟨[], h⟩, w.address l⟩
  | temp t, h => ⟨⟨[], h⟩, Core.get fp ⟨store, h⟩ t⟩
  | mem addr, h =>
      let a := addr.evaluate w fp store h
      ⟨⟨a.effects ++ [.load a.value], a.hidden⟩, a.hidden.memory.load a.value⟩
  | unary op e, h =>
      let x := e.evaluate w fp store h
      ⟨x.toTrail, op.apply x.value⟩
  | binary op lhs rhs, h =>
      let x := lhs.evaluate w fp store h
      let y := rhs.evaluate w fp store x.hidden
      ⟨⟨x.effects ++ y.effects, op.settle rhs x.value y.value y.hidden⟩,
        op.apply x.value y.value⟩
  | call l args, h =>
      let passed := pass w fp store 0 args h
      let left := w.callee l passed.hidden
      ⟨⟨passed.effects ++ [.call l, .loadResult], left⟩,
        left.memory.load (left.global .stackPointer)⟩

/-- Pass arguments from number `index` on: each is stored as soon as it is known. -/
def pass (w : World E) (fp : Temp) (store : Temp → Word) (index : Nat) :
    List Expr → Hidden E → Tree.Trail E
  | [], h => ⟨[], h⟩
  | e :: es, h =>
      let x := e.evaluate w fp store h
      let others := pass w fp store (index + 1) es
        { x.hidden with memory := x.hidden.memory.store (x.hidden.argPlace index) x.value }
      ⟨x.effects ++ [.storeArgument (UInt64.ofNat (8 * index)) x.value] ++ others.effects,
        others.hidden⟩

end

end Expr

/-- Carry out a statement, apart from its jump. The address of a store comes before the value.
The result of a call that is a statement of its own is not loaded. -/
def Stmt.execute {E : Type} (w : Mmix.World E) (fp : Temp) (c : Mmix.Core E) :
    Stmt → List Mmix.SideEffect × Mmix.Core E
  | move (.mem addr) src =>
      let a := addr.evaluate w fp c.store c.hidden
      let x := src.evaluate w fp c.store a.hidden
      (a.effects ++ x.effects ++ [.store a.value x.value],
        ⟨c.store, { x.hidden with memory := x.hidden.memory.store a.value x.value }⟩)
  | move (.temp dst) src =>
      let x := src.evaluate w fp c.store c.hidden
      (x.effects, ⟨Function.update c.store dst x.value, x.hidden⟩)
  | branch cond _ _ =>
      let x := cond.evaluate w fp c.store c.hidden
      (x.effects, ⟨c.store, x.hidden⟩)
  | eval (.call l args) =>
      let passed := Expr.pass w fp c.store 0 args c.hidden
      (passed.effects ++ [.call l], ⟨c.store, w.callee l passed.hidden⟩)
  | eval e =>
      let x := e.evaluate w fp c.store c.hidden
      (x.effects, ⟨c.store, x.hidden⟩)
  | _ => ([], c)

/-! ### Instructions in order -/

namespace Mmix

variable {E : Type}

/-- The side effects of carrying out instructions in order. -/
def performedAll (w : World E) : List Instr → Core E → List SideEffect
  | [], _ => []
  | i :: is, c => (performed? w i c).toList ++ performedAll w is (perform w i c)

/-- The side effects of joined code are joined. -/
theorem performedAll_append (w : World E) (is js : List Instr) (c : Core E) :
    performedAll w (is ++ js) c = performedAll w is c ++ performedAll w js (performAll w is c) := by
  induction is generalizing c with
  | nil => rfl
  | cons i is ih =>
      rw [List.cons_append, performedAll, performedAll, ih, List.append_assoc]
      rfl

/-- A single instruction has its own side effect, if any. -/
theorem performedAll_singleton (w : World E) (i : Instr) (c : Core E) :
    performedAll w [i] c = (performed? w i c).toList :=
  List.append_nil _

/-- Code whose instructions have no side effects has none. -/
theorem performedAll_eq_nil {w : World E} {is : List Instr}
    (h : ∀ i ∈ is, ∀ c, performed? w i c = none) (c : Core E) : performedAll w is c = [] := by
  induction is generalizing c with
  | nil => rfl
  | cons i is ih =>
      rw [List.forall_mem_cons] at h
      rw [performedAll, h.1 c, ih h.2]
      rfl

/-- A step at an instruction adds its side effect. -/
theorem sideEffects_succ {w : World E} {code : List Instr} {s : State E} {n index : Nat}
    {c : Core E} {i : Instr} (hrun : (run w code s n).1 = ⟨.line index, c⟩)
    (hi : code[index]? = some i) (hlabel : i.label? = none) :
    sideEffects w code s (n + 1) = sideEffects w code s n ++ (performed? w i c).toList := by
  rw [sideEffects, hrun, stepped?]
  simp [hi, hlabel]

/-- The side effects of a run through a part of the code that does not jump. -/
theorem sideEffects_straight {is : List Instr} (h : ∀ i ∈ is, Straight i) (w : World E)
    (before after : List Instr) (c : Core E) :
    sideEffects w (before ++ is ++ after) ⟨.line before.length, c⟩ is.length =
      performedAll w is c := by
  -- From behind: the last instruction is carried out after a run through those before it.
  induction is using List.reverseRecOn generalizing after with
  | nil => rfl
  | append_singleton is i ih =>
      rw [List.forall_mem_append, List.forall_mem_singleton] at h
      have hrun := run_straight h.1 w before (i :: after) c
      have hcode : before ++ (is ++ [i]) ++ after = before ++ is ++ i :: after := by simp
      have hi : (before ++ is ++ i :: after)[before.length + is.length]? = some i := by simp
      rw [hcode, List.length_append, List.length_singleton,
        sideEffects_succ (congrArg Prod.fst hrun) hi h.2.1, ih h.1, performedAll_append,
        performedAll_singleton]

/-- The machine goes on behind a label, whatever its text is. -/
theorem trace_label {i : Instr} (hlabel : i.label?.isSome = true) (w : World E)
    (before after : List Instr) (c : Core E) :
    let code := before ++ [i] ++ after
    let start : State E := ⟨.line before.length, c⟩
    sideEffects w code start [i].length = [] ∧ (run w code start [i].length).1.core = c := by
  have hi : (before ++ [i] ++ after)[before.length]? = some i := by simp
  constructor
  · simp only [List.length_singleton, sideEffects, stepped?, run, hi, Option.bind_some, hlabel,
      if_true]
    rfl
  · simp only [List.length_singleton, run, step, hi, hlabel, if_true]

/-- Only the last instruction may jump, and the machine can read it. -/
def Proceeds (is : List Instr) : Prop :=
  is = [] ∨ ∃ js i, is = js ++ [i] ∧ (∀ j ∈ js, Straight j) ∧ i.label? = none ∧
    (read? i.template).isSome = true

/-- A run through such code carries out all of it. -/
theorem Proceeds.trace {is : List Instr} (h : Proceeds is) (w : World E) (before after : List Instr)
    (c : Core E) :
    let code := before ++ is ++ after
    let start : State E := ⟨.line before.length, c⟩
    sideEffects w code start is.length = performedAll w is c ∧
      (run w code start is.length).1.core = performAll w is c := by
  obtain rfl | ⟨js, i, rfl, hjs, hlabel, hread⟩ := h
  · exact ⟨rfl, rfl⟩
  have hrun := run_straight hjs w before (i :: after) c
  have hcode : before ++ (js ++ [i]) ++ after = before ++ js ++ i :: after := by simp
  have hi : (before ++ js ++ i :: after)[before.length + js.length]? = some i := by simp
  have hnone : (read? i.template).isNone = false := by simpa using hread
  simp only [hcode, List.length_append, List.length_singleton]
  constructor
  · rw [sideEffects_succ (congrArg Prod.fst hrun) hi hlabel, sideEffects_straight hjs,
      performedAll_append, performedAll_singleton]
  · rw [run, hrun]
    simp only [step, hi, hlabel, hnone, performAll_append]
    rfl

section Quiet

variable {m : Mnemonic} (hquiet : m.isQuiet = true)

include hquiet

/-- An operation with a quiet mnemonic has no side effect. -/
theorem sideEffect?_of_quiet (as : List Arg) (inputs : List Word) :
    sideEffect? m as inputs = none := by
  cases m with
  | ldo | sto | pushj => cases hquiet
  | _ => rfl

/-- Such an operation leaves everything apart from temporaries alone, unless it divides. -/
theorem effect_of_quiet (hdiv : m ≠ .div) (w : World E) (h : Hidden E) (as : List Arg)
    (inputs : List Word) : effect w h m as inputs = h := by
  cases m with
  | ldo | sto | pushj => cases hquiet
  | div => exact absurd rfl hdiv
  | _ => rfl

end Quiet

section Access

variable {a b k : Arg} (hb : b ∈ Operation.accessArgs) (x y z : Word)

include hb

/-- A load whose base is not the stack pointer. -/
theorem sideEffect?_ldo : sideEffect? .ldo [a, b, k] [x, y] = some (.load (x + y)) := by
  simp only [Operation.accessArgs, List.mem_cons, List.not_mem_nil, or_false] at hb
  rcases hb with rfl | rfl | rfl | rfl <;> rfl

/-- A store whose base is not the stack pointer. -/
theorem sideEffect?_sto : sideEffect? .sto [a, b, k] [z, x, y] = some (.store (x + y) z) := by
  simp only [Operation.accessArgs, List.mem_cons, List.not_mem_nil, or_false] at hb
  rcases hb with rfl | rfl | rfl | rfl <;> rfl

end Access

end Mmix

namespace Operation

variable {E : Type} {o : Operation}

/-- The side effect of the emitted instruction of an operation. -/
theorem performed?_inline (ho : o.Readable) (fp : Temp) (w : Mmix.World E) (c : Mmix.Core E) :
    Mmix.performed? w (o.inline fp).instr c =
      Mmix.sideEffect? o.mnemonic (o.inline fp).args (o.inputs w (c.get fp) c.hidden) := by
  show (Mmix.read? (o.inline fp).template).bind _ = _
  rw [read?_template (ho.inline fp), Option.bind_some, ← inputs_inline, ← inputs_args]
  rfl

/-- An operation other than a load, a store or a call has no side effects. -/
theorem performed?_of_quiet (ho : o.Readable) (hquiet : o.mnemonic.isQuiet = true)
    (w : Mmix.World E) (c : Mmix.Core E) : Mmix.performed? w o.instr c = none := by
  show (Mmix.read? o.template).bind _ = _
  rw [read?_template ho, Option.bind_some]
  exact Mmix.sideEffect?_of_quiet hquiet _ _

end Operation

namespace Select

open Mmix (Core Hidden World)
open MmixCodegen.Tree (Trail Outcome)

variable {E : Type} {w : World E} {fp t : Temp} {m n : Nat} {c : Core E} {s rest : Supply}
  {is js : List Instr} {x y : Trail E}

/-- The instructions have side effects and leave something behind. They keep the temporaries
below `n`, and the frame pointer. -/
structure Leaves (w : World E) (n : Nat) (is : List Instr) (c : Core E) (x : Trail E) : Prop where
  effects : Mmix.performedAll w is c = x.effects
  hidden : (Mmix.performAll w is c).hidden = x.hidden
  temps : ∀ u : Temp, u.number < n → (Mmix.performAll w is c).store u = c.store u
  frame : x.hidden.global .framePointer = c.hidden.global .framePointer

/-- Joined code has one side effect after the other. -/
theorem Leaves.append (his : Leaves w n is c x)
    (hjs : Leaves w m js (Mmix.performAll w is c) y) (hle : n ≤ m) :
    Leaves w n (is ++ js) c ⟨x.effects ++ y.effects, y.hidden⟩ where
  effects := by rw [Mmix.performedAll_append, his.effects, hjs.effects]
  hidden := by rw [Mmix.performAll_append, hjs.hidden]
  temps := by
    intro u hu
    rw [Mmix.performAll_append, hjs.temps u (Nat.lt_of_lt_of_le hu hle), his.temps u hu]
  frame := by rw [hjs.frame, his.hidden, his.frame]

/-- Code that only computes may follow. -/
theorem Leaves.append_quiet (his : Leaves w n is c x)
    (hjs : ∀ d : Core E, Leaves w m js d ⟨[], d.hidden⟩) (hle : n ≤ m) :
    Leaves w n (is ++ js) c x := by
  have hboth := his.append (hjs _) hle
  rwa [List.append_nil, his.hidden] at hboth

/-- A value that is known keeps, also if it is the frame pointer. -/
theorem Leaves.get (h : Leaves w n is c x) (fp : Temp) {u : Temp} (hu : u.number < n) :
    (Mmix.performAll w is c).get fp u = c.get fp u := by
  rw [Core.get, Core.get, h.hidden, h.frame, h.temps u hu]

/-- What is emitted for an operation has the side effect of the operation. -/
theorem leaves_emit {o : Operation} {i : Instr} (ho : o.Proper) (hi : emit fp o s = .ok i rest)
    (hdefs : ∀ d ∈ o.defs, n ≤ d.number)
    (heffects : (Mmix.sideEffect? o.mnemonic (o.inline fp).args
      (o.inputs w (c.get fp) c.hidden)).toList = x.effects)
    (hhidden : Mmix.effect w c.hidden o.mnemonic (o.inline fp).args
      (o.inputs w (c.get fp) c.hidden) = x.hidden)
    (hframe : x.hidden.global .framePointer = c.hidden.global .framePointer) :
    Leaves w n [i] c x := by
  obtain ⟨-, rfl, -⟩ := (emit_eq_ok ho.toPlain).mp hi
  have hperform : Mmix.performAll w [(o.inline fp).instr] c = _ :=
    Operation.perform_inline ho.toReadable fp w c
  refine ⟨?_, ?_, fun u hu => ?_, hframe⟩
  · rw [Mmix.performedAll_singleton, Operation.performed?_inline ho.toReadable, heffects]
  · rw [hperform, hhidden]
  · -- There is at most one temporary that an operation writes.
    have hlen := ho.defs_le
    rw [hperform]
    rcases hds : o.defs with _ | ⟨d, _ | ⟨d', ds⟩⟩
    · rfl
    · exact Mmix.update_of_below (hdefs d (hds ▸ List.mem_cons_self)) hu _
    · rw [hds] at hlen
      simp at hlen

/-- What is emitted for an operation that only computes. -/
theorem leaves_emit_quiet {o : Operation} {i : Instr} (ho : o.Proper)
    (hi : emit fp o s = .ok i rest) (hdefs : ∀ d ∈ o.defs, n ≤ d.number)
    (hquiet : o.mnemonic.isQuiet = true) (hdiv : (o.mnemonic == .div) = false) (c : Core E) :
    Leaves w n [i] c ⟨[], c.hidden⟩ := by
  refine leaves_emit ho hi hdefs ?_ (Mmix.effect_of_quiet hquiet (ne_of_beq_false hdiv) ..) rfl
  rw [Mmix.sideEffect?_of_quiet hquiet]
  rfl

/-- The code of an expression has its side effects and leaves its value in a temporary. -/
structure Evaluates (w : World E) (fp : Temp) (n : Nat) (is : List Instr) (c : Core E) (t : Temp)
    (x : Outcome E) : Prop extends Leaves w n is c x.toTrail where
  value : (Mmix.performAll w is c).get fp t = x.value

/-! ### Parts without calls -/

/-- Loading a word has no side effects. -/
theorem leaves_loadConstant (ht : n ≤ t.number) (v : Word) (c : Core E) :
    Leaves w n ((Operation.loadConstant t v).map Operation.instr) c ⟨[], c.hidden⟩ where
  effects := by
    refine Mmix.performedAll_eq_nil (List.forall_mem_map.mpr fun o ho d => ?_) c
    have hpacks := Operation.packs_of_mem_loadConstant t ho
    refine Operation.performed?_of_quiet hpacks.proper.toReadable ?_ w d
    obtain ⟨group, n, -, rfl | rfl⟩ := hpacks
    · rfl
    · rfl
  hidden := by rw [Operation.performAll_loadConstant]
  temps := by
    intro u hu
    rw [Operation.performAll_loadConstant]
    exact Mmix.update_of_below ht hu _
  frame := rfl

/-- The code of a constant has no side effects and leaves it in a fresh temporary. -/
theorem evaluates_constant {value : Int64} (h : constant fp value s = .ok (is, t) rest)
    (hfp : fp.number < s.next) (c : Core E) :
    Evaluates w fp s.next is c t ⟨⟨[], c.hidden⟩, value.toUInt64⟩ := by
  refine ⟨?_, (computes_constant h hfp c).value⟩
  obtain ⟨-, rfl, h⟩ := constant_eq_ok.mp h
  split at h
  · obtain ⟨i, hi, rfl⟩ := h
    exact (leaves_loadConstant (Nat.le_refl s.next) _ c).append_quiet
      (leaves_emit_quiet Operation.proper_negate hi
        (List.forall_mem_singleton.mpr (Nat.le_refl s.next)) rfl rfl) (Nat.le_refl _)
  · obtain ⟨rfl, -⟩ := h
    exact leaves_loadConstant (Nat.le_refl s.next) _ c

/-- A copy leaves nothing behind but its destination. -/
theorem leaves_emitCopy {dst src : Temp} {i : Instr} (hi : emitCopy fp dst src s = .ok i rest)
    (hdst : n ≤ dst.number) (c : Core E) : Leaves w n [i] c ⟨[], c.hidden⟩ := by
  have hperform : Mmix.performAll w [i] c = _ := perform_emitCopy hi c
  refine ⟨?_, by rw [hperform], fun u hu => ?_, rfl⟩
  · refine Mmix.performedAll_eq_nil (List.forall_mem_singleton.mpr fun d => ?_) c
    obtain ⟨-, rfl, -⟩ := emitCopy_eq_ok.mp hi
    split
    · exact Operation.performed?_of_quiet Operation.proper_copyFramePointer.toReadable rfl w d
    · -- A copy is written as an addition of zero.
      have hproper : (Operation.combineNumber .add dst src 0).Proper :=
        Operation.proper_combineNumber rfl rfl (by decide)
      exact Operation.performed?_of_quiet hproper.toReadable rfl w d
  · rw [hperform]
    exact Mmix.update_of_below hdst hu _

/-- The number of a division is the divisor, which is not one. -/
theorem divides_of_shortcut? {op : BinaryOp} {value : Int64} {m : Mnemonic} {n : Nat}
    (h : shortcut? op value = some (.number m n)) :
    (m = .div ∧ op.divides (.const value) = true ∧ UInt64.ofNat n = value.toUInt64) ∨
      (m ≠ .div ∧ op.divides (.const value) = false) := by
  cases op with
  | div =>
      left
      simp only [shortcut?] at h
      split at h
      · cases h
      next hone =>
        split at h
        · next hpos =>
          cases h
          have hvalue := Word.ofNat_toNat_toInt (Int.le_of_lt (isImmediate_iff.mp hpos).1)
          exact ⟨rfl, decide_eq_true hone, hvalue⟩
        · cases h
  | add | sub | mul =>
      right
      refine ⟨?_, rfl⟩
      simp only [shortcut?] at h
      grind
  | _ => cases h

/-- A number in an operation has no side effects. The remainder of a division is
that by the constant. -/
theorem leaves_applyShortcut {lhs : Temp} {op : BinaryOp} {value : Int64} {sc : Shortcut}
    (hsc : shortcut? op value = some sc) (h : applyShortcut fp lhs sc s = .ok (is, t) rest)
    (c : Core E) : Leaves w s.next is c
      ⟨[], op.settle (.const value) (c.get fp lhs) value.toUInt64 c.hidden⟩ := by
  cases sc with
  | same =>
      obtain ⟨-, rfl, i, hi, rfl⟩ := applyShortcut_same_eq_ok.mp h
      have hdivides : op.divides (.const value) = false := by
        cases op <;> simp only [shortcut?] at hsc <;> simp only [BinaryOp.divides] <;> grind
      rw [BinaryOp.settle, hdivides]
      exact leaves_emitCopy hi (Nat.le_refl _) c
  | number m n =>
      obtain ⟨hm, hn⟩ := mem_of_shortcut?_eq_number hsc
      obtain ⟨-, rfl, i, hi, rfl⟩ := applyShortcut_number_eq_ok.mp h
      have hdefs : ∀ d ∈ (Operation.combineNumber m ⟨s.next⟩ lhs n).defs, s.next ≤ d.number :=
        List.forall_mem_singleton.mpr (Nat.le_refl s.next)
      rw [BinaryOp.settle]
      obtain ⟨rfl, hdivides, hvalue⟩ | ⟨hdiv, hdivides⟩ := divides_of_shortcut? hsc
      · rw [if_pos hdivides, ← hvalue]
        exact leaves_emit (Operation.proper_combineNumber rfl rfl hn) hi hdefs rfl rfl rfl
      · have hop : (Operation.combineNumber m ⟨s.next⟩ lhs n).Proper ∧ m.isQuiet = true := by
          simp only [List.mem_cons, List.not_mem_nil, or_false] at hm
          rcases hm with rfl | rfl | rfl | rfl <;>
            exact ⟨Operation.proper_combineNumber rfl rfl hn, rfl⟩
        rw [hdivides]
        exact leaves_emit_quiet hop.1 hi hdefs hop.2 (beq_false_of_ne hdiv) c

/-- A load shows the address that its base and its offset make up. -/
theorem leaves_emit_load {base : Temp} {offset : Nat} {i : Instr}
    (hi : emit fp (.load t base offset) s = .ok i rest) (hnarrow : offset < UInt8.size)
    (ht : n ≤ t.number) (c : Core E) :
    Leaves w n [i] c ⟨[.load (c.get fp base + UInt64.ofNat offset)], c.hidden⟩ := by
  obtain ⟨b, hb, hargs⟩ := Operation.args_inline_load fp t base offset
  refine leaves_emit (Operation.proper_load hnarrow) hi (List.forall_mem_singleton.mpr ht) ?_ rfl
    rfl
  rw [hargs]
  exact congrArg Option.toList (Mmix.sideEffect?_ldo hb _ _)

/-- A load takes its side effect from where its address points. -/
theorem leaves_loadAt {base : Temp} {offset : Int} (h : loadAt fp base offset s = .ok (is, t) rest)
    (hnarrow : offset.natAbs < UInt8.size) (c : Core E) :
    Leaves w s.next is c ⟨[.load (displace (c.get fp base) offset)], c.hidden⟩ := by
  obtain ⟨-, rfl, h⟩ := loadAt_eq_ok.mp h
  rw [displace]
  split at h
  · next hoffset =>
      obtain ⟨i, hi, rfl⟩ := h
      rw [if_pos hoffset]
      exact leaves_emit_load hi (by omega) (Nat.le_refl s.next) c
  · next hoffset =>
      obtain ⟨i, mid, j, hi, hj, rfl⟩ := h
      rw [if_neg hoffset]
      have hsub := leaves_emit_quiet (w := w) (Operation.proper_combineNumber rfl rfl (by omega)) hi
        (List.forall_mem_singleton.mpr (Nat.le_refl s.next)) rfl rfl c
      have hplace := computes_emit (w := w) (Operation.proper_combineNumber rfl rfl (by omega)) hi
        rfl (Nat.le_refl s.next) rfl rfl c
      have hload := leaves_emit_load (w := w) hj (by decide) (Nat.le_refl s.next)
        (Mmix.performAll w [i] c)
      have hboth := hsub.append hload (Nat.le_refl _)
      -- The address is in the temporary, and the load has no offset.
      rw [hsub.hidden, hplace.value, Word.add_ofNat_zero] at hboth
      exact hboth

/-- The operation of a unary operator leaves nothing behind but its destination. -/
theorem leaves_unaryOperation {op : UnaryOp} {src : Temp} {i : Instr}
    (hi : emit fp (unaryOperation op t src) s = .ok i rest) (ht : n ≤ t.number) (c : Core E) :
    Leaves w n [i] c ⟨[], c.hidden⟩ := by
  have hdefs : ∀ d ∈ [t], n ≤ d.number := List.forall_mem_singleton.mpr ht
  cases op with
  | neg => exact leaves_emit_quiet Operation.proper_negate hi hdefs rfl rfl c
  | not => exact leaves_emit_quiet (Operation.proper_test .zero) hi hdefs rfl rfl c

/-- A division without a shortcut is carried out. -/
theorem divides_of_operandShortcut? {op : BinaryOp} {rhs : Expr}
    (h : operandShortcut? op rhs = none) : op.divides rhs = (op == .div || op == .mod) := by
  cases op with
  | div =>
      cases rhs with
      | const value =>
          refine decide_eq_true fun hone => ?_
          simp [operandShortcut?, shortcut?, hone] at h
      | _ => rfl
  | _ => rfl

/-- A comparison leaves nothing behind but its destination. -/
theorem leaves_comparison {cond : Condition} {lhs rhs : Temp}
    (h : (comparison cond t lhs rhs).mapM (emit fp) s = .ok is rest) (ht : n ≤ t.number)
    (c : Core E) : Leaves w n is c ⟨[], c.hidden⟩ := by
  have hdefs : ∀ d ∈ [t], n ≤ d.number := List.forall_mem_singleton.mpr ht
  have hcmp : (Operation.combine .cmp t lhs rhs).Proper := Operation.proper_combine rfl rfl
  have htest : (Operation.test cond t t).Proper := Operation.proper_test cond
  obtain ⟨rfl, -, hemit⟩ := emit_of_mapM_eq_ok (by simp [comparison, hcmp.toPlain, htest.toPlain]) h
  exact (leaves_emit_quiet hcmp (hemit _ (by simp [comparison])) hdefs rfl rfl c).append_quiet
    (leaves_emit_quiet htest (hemit _ (by simp [comparison])) hdefs rfl rfl) (Nat.le_refl _)

/-- Only a division leaves anything behind. -/
theorem leaves_binaryOperations {op : BinaryOp} {rhs : Expr} {left right : Temp}
    (hsc : operandShortcut? op rhs = none)
    (h : (binaryOperations op t left right).mapM (emit fp) s = .ok is rest) (ht : n ≤ t.number)
    (c : Core E) :
    Leaves w n is c ⟨[], op.settle rhs (c.get fp left) (c.get fp right) c.hidden⟩ := by
  have hdefs : ∀ d ∈ [t], n ≤ d.number := List.forall_mem_singleton.mpr ht
  have hone : ∀ m : Mnemonic, [Operation.combine m t left right].mapM (emit fp) s = .ok is rest →
      m.commas = 2 → m.namesLabel = false → m.isQuiet = true → (m == .div) = false →
        Leaves w n is c ⟨[], c.hidden⟩ := by
    intro m h hcommas hlabel hquiet hdiv
    have hproper : (Operation.combine m t left right).Proper :=
      Operation.proper_combine hcommas hlabel
    obtain ⟨rfl, -, hemit⟩ := emit_of_mapM_eq_ok (by simpa using hproper.toPlain) h
    exact leaves_emit_quiet hproper (hemit _ (List.mem_singleton_self _)) hdefs hquiet hdiv c
  have hdivide : ∀ {i : Instr} {s' rest' : Supply},
      emit fp (.combine .div t left right) s' = .ok i rest' → Leaves w n [i] c
        ⟨[], { c.hidden with remainder := Mmix.residue (c.get fp left) (c.get fp right) }⟩ :=
    fun hi => leaves_emit (Operation.proper_combine rfl rfl) hi hdefs rfl rfl rfl
  rw [BinaryOp.settle, divides_of_operandShortcut? hsc]
  cases op with
  | add | sub | mul | and | or => exact hone _ h rfl rfl rfl rfl
  | eq | ne | lt | gt | le | ge => exact leaves_comparison h ht c
  | div =>
      have hdiv : (Operation.combine .div t left right).Proper := Operation.proper_combine rfl rfl
      obtain ⟨rfl, -, hemit⟩ := emit_of_mapM_eq_ok (by simp [binaryOperations, hdiv.toPlain]) h
      exact hdivide (hemit _ (by simp [binaryOperations]))
  | mod =>
      have hdiv : (Operation.combine .div t left right).Proper := Operation.proper_combine rfl rfl
      have hget : (Operation.getRemainder t).Proper := Operation.proper_getRemainder
      obtain ⟨rfl, -, hemit⟩ :=
        emit_of_mapM_eq_ok (by simp [binaryOperations, hdiv.toPlain, hget.toPlain]) h
      exact (hdivide (hemit _ (by simp [binaryOperations]))).append_quiet
        (leaves_emit_quiet hget (hemit _ (by simp [binaryOperations])) hdefs rfl rfl)
        (Nat.le_refl _)

/-- An argument that is stored at an offset in a temporary shows with that offset. -/
theorem leaves_emit_storeArgAt {value offset : Temp} {i : Instr}
    (hi : emit fp (.storeArgAt value offset) s = .ok i rest) (c : Core E) :
    Leaves w n [i] c ⟨[.storeArgument (c.get fp offset) (c.get fp value)],
      { c.hidden with
        memory := c.hidden.memory.store (c.hidden.global .stackPointer + c.get fp offset)
          (c.get fp value) }⟩ := by
  obtain ⟨a, -, b, hargs⟩ := Operation.args_inline_storeArgAt fp value offset
  refine leaves_emit Operation.proper_storeArgAt hi (List.forall_mem_nil _) ?_ rfl rfl
  rw [hargs]
  rfl

/-- An argument is stored in its place, with its value. -/
theorem leaves_storeArg {value : Temp} {k : Nat} (h : storeArg fp value k s = .ok is rest)
    (hfp : fp.number < s.next) (hvalue : value.number < s.next) (c : Core E) :
    Leaves w s.next is c ⟨[.storeArgument (UInt64.ofNat (8 * k)) (c.get fp value)],
      { c.hidden with
        memory := c.hidden.memory.store (c.hidden.argPlace k) (c.get fp value) }⟩ := by
  replace h := storeArg_eq_ok.mp h
  split at h
  · next hsmall =>
    obtain ⟨i, hi, rfl⟩ := h
    obtain ⟨a, -, hargs⟩ := Operation.args_inline_storeArg fp value (8 * k)
    refine leaves_emit (Operation.proper_storeArg (narrow_of_le_maxImmediate hsmall)) hi
      (List.forall_mem_nil _) ?_ rfl rfl
    rw [hargs]
    rfl
  · obtain ⟨-, i, hi, rfl⟩ := h
    have hload := leaves_loadConstant (w := w) (t := ⟨s.next⟩) (Nat.le_refl s.next)
      (UInt64.ofNat (8 * k)) c
    have hplace := computes_loadConstant (w := w) (c := c) (fresh_ne hfp) (Nat.le_refl s.next)
      (UInt64.ofNat (8 * k))
    have hboth := hload.append (leaves_emit_storeArgAt hi _) (Nat.le_refl s.next)
    -- The distance is in the new temporary, and the value where it was.
    rw [hplace.value, hload.get fp hvalue, hload.hidden] at hboth
    exact hboth

/-! ### Expressions -/

/-- What is selected for an expression does what the expression does. -/
def EvaluatesValue (w : World E) (fp : Temp) (e : Expr) : Prop :=
  ∀ ⦃s rest : Supply⦄ ⦃is : List Instr⦄ ⦃t : Temp⦄, (∀ l ∈ e.labels, l.Plain) →
    fp.number < s.next → (∀ u ∈ e.temps, u.number < s.next) → expr fp e s = .ok (is, t) rest →
      ∀ (c : Core E) (store : Temp → Word), (∀ u ∈ e.temps, c.store u = store u) →
        Evaluates w fp s.next is c t (e.evaluate w fp store c.hidden)

/-- What is selected for arguments does what passing them does. -/
def EvaluatesArgs (w : World E) (fp : Temp) (index : Nat) (es : List Expr) : Prop :=
  ∀ ⦃s rest : Supply⦄ ⦃is : List Instr⦄, (∀ l ∈ Expr.argLabels es, l.Plain) →
    fp.number < s.next → (∀ u ∈ Expr.argTemps es, u.number < s.next) →
      args fp index es s = .ok is rest →
        ∀ (c : Core E) (store : Temp → Word), (∀ u ∈ Expr.argTemps es, c.store u = store u) →
          Leaves w s.next is c (Expr.pass w fp store index es c.hidden)

/-- The code of an expression behind other code. -/
theorem Evaluates.append {z : Outcome E} (his : Leaves w n is c x)
    (hjs : Evaluates w fp m js (Mmix.performAll w is c) t z) (hle : n ≤ m) :
    Evaluates w fp n (is ++ js) c t ⟨⟨x.effects ++ z.effects, z.hidden⟩, z.value⟩ where
  toLeaves := his.append hjs.toLeaves hle
  value := by rw [Mmix.performAll_append, hjs.value]

/-- Folding leaves out a constant, which has no side effects. -/
theorem evaluate_folded (w : World E) (fp : Temp) (store : Temp → Word) (addr : Expr)
    (h : Hidden E) :
    addr.evaluate w fp store h =
      ⟨((folded addr).1.evaluate w fp store h).toTrail,
        displace ((folded addr).1.evaluate w fp store h).value (folded addr).2⟩ := by
  obtain hfolded | ⟨op, base, value, offset, rfl, hoffset, hfolded⟩ := folded_cases addr
  · rw [hfolded, displace_zero]
  · have hdivides : op.divides (.const value) = false := by
      cases op with
      | div | mod => simp [offset?] at hoffset
      | _ => rfl
    rw [hfolded, displace_of_offset? hoffset, Expr.evaluate, Expr.evaluate, BinaryOp.settle,
      hdivides]
    simp

/-- The case of loads: the base is evaluated, and the load shows the whole address. -/
theorem evaluates_mem {addr : Expr} (hbase : EvaluatesValue w fp (folded addr).1) :
    EvaluatesValue w fp (.mem addr) := by
  intro s rest is t hlabels hfp htemps h c store hstore
  obtain ⟨is, base, mid, js, hb, hjs, rfl⟩ := expr_mem_eq_ok.mp h
  have hdisplaced := displaced_folded addr
  have hlabels' := fun l hl => hlabels l (hdisplaced.labels l hl)
  have htemps' := fun u hu => htemps u (hdisplaced.temps u hu)
  have hle := (emits_expr hlabels' htemps' hb).1.le
  have his := hbase hlabels' hfp htemps' hb c store fun u hu => hstore u (hdisplaced.temps u hu)
  have hload : Evaluates w fp mid.next js (Mmix.performAll w is c) t ⟨⟨_, _⟩, _⟩ :=
    ⟨leaves_loadAt hjs hdisplaced.narrow _, (computes_loadAt hjs hdisplaced.narrow _).value⟩
  rw [his.value, his.hidden] at hload
  rw [Expr.evaluate, evaluate_folded]
  exact .append his.toLeaves hload hle

/-- The case of unary operators. -/
theorem evaluates_unary {op : UnaryOp} {e : Expr} (he : EvaluatesValue w fp e) :
    EvaluatesValue w fp (.unary op e) := by
  intro s rest is t hlabels hfp htemps h c store hstore
  obtain ⟨is, src, mid, i, hsrc, -, rfl, hi, rfl⟩ := expr_unary_eq_ok.mp h
  have hle := (emits_expr (e := e) hlabels htemps hsrc).1.le
  have his := he hlabels hfp htemps hsrc c store hstore
  refine ⟨his.append_quiet (leaves_unaryOperation hi (Nat.le_refl mid.next)) hle, ?_⟩
  have hop := computes_unaryOperation (w := w) hi (Nat.le_refl mid.next) (Mmix.performAll w is c)
  rw [Mmix.performAll_append, hop.value, his.value]
  rfl

/-- The left operand comes first, and it keeps its value until the right one is known. -/
theorem evaluates_binary {op : BinaryOp} {lhs rhs : Expr} (hlhs : EvaluatesValue w fp lhs)
    (hrhs : EvaluatesValue w fp rhs) : EvaluatesValue w fp (.binary op lhs rhs) := by
  intro s rest is t hlabels hfp htemps h c store hstore
  rw [Expr.labels, List.forall_mem_append] at hlabels
  rw [Expr.temps, List.forall_mem_append] at htemps hstore
  obtain ⟨is, left, mid, hleft, h⟩ := expr_binary_eq_ok.mp h
  obtain ⟨hemits, hbelow⟩ := emits_expr hlabels.1 htemps.1 hleft
  have his := hlhs hlabels.1 hfp htemps.1 hleft c store hstore.1
  rw [Expr.evaluate]
  rcases h with ⟨sc, js, hsc, hjs, rfl⟩ | ⟨js, right, next, ks, hsc, hright, -, rfl, hks, rfl⟩
  · obtain ⟨value, rfl, hvalue⟩ := exists_const_of_operandShortcut? hsc
    have hop : Evaluates w fp mid.next js (Mmix.performAll w is c) t ⟨⟨_, _⟩, _⟩ :=
      ⟨leaves_applyShortcut hvalue hjs _, (computes_applyShortcut hvalue hjs _).value⟩
    rw [his.value, his.hidden] at hop
    exact .append his.toLeaves hop hemits.le
  · have htemps2 : ∀ u ∈ rhs.temps, u.number < mid.next :=
      fun u hu => Nat.lt_of_lt_of_le (htemps.2 u hu) hemits.le
    obtain ⟨hemits2, -⟩ := emits_expr hlabels.2 htemps2 hright
    have hjs := hrhs hlabels.2 (Nat.lt_of_lt_of_le hfp hemits.le) htemps2 hright
      (Mmix.performAll w is c) store
      fun u hu => (his.temps u (htemps.2 u hu)).trans (hstore.2 u hu)
    rw [his.hidden] at hjs
    have hboth := Evaluates.append his.toLeaves hjs hemits.le
    have hop : Evaluates w fp next.next ks (Mmix.performAll w (is ++ js) c) ⟨next.next⟩
        ⟨⟨_, _⟩, _⟩ :=
      ⟨leaves_binaryOperations hsc hks (Nat.le_refl next.next) _,
        (computes_binaryOperations hks (Nat.le_refl next.next) _).value⟩
    have hkept : (Mmix.performAll w (is ++ js) c).get fp left =
        (lhs.evaluate w fp store c.hidden).value := by
      rw [Mmix.performAll_append, hjs.get fp hbelow, his.value]
    rw [hkept, hboth.value, hboth.hidden] at hop
    have hall := Evaluates.append hboth.toLeaves hop (Nat.le_trans hemits.le hemits2.le)
    rwa [List.append_nil] at hall

/-- A call comes behind its arguments. -/
theorem leaves_call {l : Label} {i : Instr} (hframe : w.KeepsFrame) (hl : l.Plain)
    (his : Leaves w n is c x) (hi : emit fp (.call l) s = .ok i rest) :
    Leaves w n (is ++ [i]) c ⟨x.effects ++ [.call l], w.callee l x.hidden⟩ := by
  have hcall : ∀ d : Core E, Leaves w n [i] d ⟨[.call l], w.callee l d.hidden⟩ := fun d =>
    leaves_emit (Operation.proper_call hl) hi (List.forall_mem_nil _) rfl rfl (hframe l d.hidden)
  have hboth := his.append (hcall _) (Nat.le_refl n)
  rwa [his.hidden] at hboth

/-- The result of a call is loaded from where the stack pointer points. -/
theorem perform_emit_loadResult {i : Instr} (hi : emit fp (.loadResult t) s = .ok i rest)
    (c : Core E) : Mmix.perform w i c =
      ⟨Function.update c.store t (c.hidden.memory.load (c.hidden.global .stackPointer)),
        c.hidden⟩ := by
  obtain ⟨-, rfl, -⟩ := (emit_eq_ok Operation.proper_loadResult.toPlain).mp hi
  rw [Operation.perform_inline Operation.proper_loadResult.toReadable]
  show Core.mk (Function.update c.store t
    (c.hidden.memory.load (c.hidden.global .stackPointer + 0))) _ = _
  rw [UInt64.add_zero]
  rfl

/-- What a call returned is loaded from the stack pointer. -/
theorem evaluates_emit_loadResult {i : Instr} (hi : emit fp (.loadResult t) s = .ok i rest)
    (ht : n ≤ t.number) (c : Core E) : Evaluates w fp n [i] c t
      ⟨⟨[.loadResult], c.hidden⟩, c.hidden.memory.load (c.hidden.global .stackPointer)⟩ := by
  have hne : t ≠ fp := by
    rintro rfl
    exact ((emit_eq_ok Operation.proper_loadResult.toPlain).mp hi).1 (List.mem_singleton_self t)
  have hperform : Mmix.performAll w [i] c = _ := perform_emit_loadResult hi c
  refine ⟨leaves_emit Operation.proper_loadResult hi (List.forall_mem_singleton.mpr ht) rfl rfl
    rfl, ?_⟩
  rw [hperform]
  exact Mmix.get_update hne _ _

/-- The case of calls: the arguments are passed, the procedure is called and
its result is loaded. -/
theorem evaluates_call {l : Label} {es : List Expr} (hframe : w.KeepsFrame)
    (hes : EvaluatesArgs w fp 0 es) : EvaluatesValue w fp (.call l es) := by
  intro s rest is t hlabels hfp htemps h c store hstore
  rw [Expr.labels, List.forall_mem_cons] at hlabels
  obtain ⟨is, mid, i, next, j, his, hi, -, rfl, hj, rfl⟩ := expr_call_eq_ok.mp h
  have hle := (emits_args hlabels.2 htemps his).le
  obtain ⟨-, -, rfl⟩ := (emit_eq_ok (Operation.proper_call hlabels.1).toPlain).mp hi
  have hcall := leaves_call hframe hlabels.1 (hes hlabels.2 hfp htemps his c store hstore) hi
  have hload := evaluates_emit_loadResult (w := w) hj (Nat.le_refl next.next)
    (Mmix.performAll w (is ++ [i]) c)
  rw [hcall.hidden] at hload
  have hall := Evaluates.append hcall hload hle
  rw [List.append_assoc, List.append_assoc] at hall
  rw [Expr.evaluate]
  exact hall

/-- What is selected for expressions and arguments does what they do. -/
theorem evaluates_mutual (hframe : w.KeepsFrame) (fp : Temp) :
    (∀ e, EvaluatesValue w fp e) ∧ ∀ index es, EvaluatesArgs w fp index es := by
  refine expr_induct ?const ?address ?temp (fun addr => evaluates_mem)
    (fun op e => evaluates_unary) (fun op lhs rhs => evaluates_binary)
    (fun l es => evaluates_call hframe) ?nil ?cons
  case const =>
    intro value s rest is t _ hfp _ h c store _
    rw [expr] at h
    rw [Expr.evaluate]
    exact evaluates_constant h hfp c
  case address =>
    intro l s rest is t hlabels _ _ h c store _
    obtain ⟨-, rfl, i, hi, rfl⟩ := expr_address_eq_ok.mp h
    have hproper : (Operation.loadAddress ⟨s.next⟩ l).Proper :=
      Operation.proper_loadAddress (hlabels l (List.mem_singleton_self l))
    rw [Expr.evaluate]
    exact ⟨leaves_emit_quiet hproper hi (List.forall_mem_singleton.mpr (Nat.le_refl s.next)) rfl
      rfl c, (computes_emit hproper hi rfl (Nat.le_refl s.next) rfl rfl c).value⟩
  case temp =>
    intro t s rest is u _ _ _ h c store hstore
    obtain ⟨rfl, rfl, rfl⟩ := expr_temp_eq_ok.mp h
    rw [Expr.evaluate]
    refine ⟨⟨rfl, rfl, fun _ _ => rfl, rfl⟩, ?_⟩
    show Core.get fp c u = _
    rw [Core.get, Core.get, hstore u (List.mem_singleton_self u)]
  case nil =>
    intro index s rest is _ _ _ h c store _
    obtain ⟨rfl, rfl⟩ := args_nil_eq_ok.mp h
    rw [Expr.pass]
    exact ⟨rfl, rfl, fun _ _ => rfl, rfl⟩
  case cons =>
    intro index e es ihe ihes s rest is hlabels hfp htemps h c store hstore
    rw [Expr.argLabels, List.forall_mem_append] at hlabels
    rw [Expr.argTemps, List.forall_mem_append] at htemps hstore
    obtain ⟨is, value, mid, js, next, ks, his, hjs, hks, rfl⟩ := args_cons_eq_ok.mp h
    obtain ⟨hemits, hbelow⟩ := emits_expr hlabels.1 htemps.1 his
    have hemits2 := emits_storeArg hjs hbelow
    have hle := Nat.le_trans hemits.le hemits2.le
    have hvalue := ihe hlabels.1 hfp htemps.1 his c store hstore.1
    have hstored := leaves_storeArg (w := w) hjs (Nat.lt_of_lt_of_le hfp hemits.le) hbelow
      (Mmix.performAll w is c)
    rw [hvalue.value, hvalue.hidden] at hstored
    have hone := hvalue.toLeaves.append hstored hemits.le
    -- The other arguments come after this one is stored.
    have hothers := ihes hlabels.2 (Nat.lt_of_lt_of_le hfp hle)
      (fun u hu => Nat.lt_of_lt_of_le (htemps.2 u hu) hle) hks
      (Mmix.performAll w (is ++ js) c) store
      fun u hu => (hone.temps u (htemps.2 u hu)).trans (hstore.2 u hu)
    rw [hone.hidden] at hothers
    rw [Expr.pass]
    exact hone.append hothers hle

/-- The code of an expression does what the expression does to the temporaries as they are. -/
theorem evaluates_expr {e : Expr} (hframe : w.KeepsFrame) (hlabels : ∀ l ∈ e.labels, l.Plain)
    (hfp : fp.number < s.next) (htemps : ∀ u ∈ e.temps, u.number < s.next)
    (h : expr fp e s = .ok (is, t) rest) (c : Core E) :
    Evaluates w fp s.next is c t (e.evaluate w fp c.store c.hidden) :=
  (evaluates_mutual hframe fp).1 e hlabels hfp htemps h c c.store fun _ _ => rfl

/-! ### Statements -/

/-- A call and its arguments, without the result. -/
theorem leaves_passing {l : Label} {es : List Expr} (hframe : w.KeepsFrame)
    (hlabels : ∀ k ∈ (Expr.call l es).labels, k.Plain) (hfp : fp.number < s.next)
    (htemps : ∀ u ∈ (Expr.call l es).temps, u.number < s.next)
    (h : call fp l es s = .ok is rest) (c : Core E) :
    let passed := Expr.pass w fp c.store 0 es c.hidden
    Leaves w s.next is c ⟨passed.effects ++ [.call l], w.callee l passed.hidden⟩ := by
  rw [Expr.labels, List.forall_mem_cons] at hlabels
  obtain ⟨js, mid, i, hjs, hi, rfl⟩ := call_eq_ok.mp h
  exact leaves_call hframe hlabels.1
    ((evaluates_mutual hframe fp).2 0 es hlabels.2 hfp htemps hjs c c.store fun _ _ => rfl) hi

/-- The instructions have side effects and leave something behind, up to the temporaries from
`n` on. -/
structure Executes (w : World E) (n : Nat) (is : List Instr) (c : Core E)
    (done : List Mmix.SideEffect × Core E) : Prop where
  effects : Mmix.performedAll w is c = done.1
  hidden : (Mmix.performAll w is c).hidden = done.2.hidden
  temps : ∀ u : Temp, u.number < n → (Mmix.performAll w is c).store u = done.2.store u

/-- Code that keeps the temporaries. -/
theorem Leaves.executes (h : Leaves w n is c x) :
    Executes w n is c (x.effects, ⟨c.store, x.hidden⟩) :=
  ⟨h.effects, h.hidden, h.temps⟩

/-- An instruction that writes a temporary, behind code that keeps them. -/
theorem Leaves.executes_update {dst : Temp} {v : Word} {i : Instr} {last : List Mmix.SideEffect}
    (his : Leaves w n is c x)
    (hlast : Mmix.perform w i (Mmix.performAll w is c) =
      ⟨Function.update (Mmix.performAll w is c).store dst v, (Mmix.performAll w is c).hidden⟩)
    (heffects : Mmix.performedAll w [i] (Mmix.performAll w is c) = last) :
    Executes w n (is ++ [i]) c
      (x.effects ++ last, ⟨Function.update c.store dst v, x.hidden⟩) := by
  have hperform := (Mmix.performAll_append w is [i] c).trans hlast
  refine ⟨?_, ?_, fun u hu => ?_⟩
  · rw [Mmix.performedAll_append, his.effects, heffects]
  · rw [hperform, his.hidden]
  · rw [hperform]
    by_cases hdst : u = dst
    · rw [hdst]
      simp only [Function.update_self]
    · simp only [Function.update_of_ne hdst, his.temps u hu]

/-- The code of an assignment does what the assignment does. -/
theorem executes_assign {dst : Temp} {src : Expr} (hframe : w.KeepsFrame)
    (hlabels : ∀ l ∈ src.labels, l.Plain) (hfp : fp.number < s.next)
    (htemps : ∀ u ∈ src.temps, u.number < s.next) (h : assign fp dst src s = .ok is rest)
    (c : Core E) :
    Executes w s.next is c (Stmt.execute w fp c (.move (.temp dst) src)) := by
  obtain ⟨-, ⟨l, es, js, mid, i, rfl, hcall, hi, rfl⟩ |
    ⟨js, value, mid, i, -, hvalue, hi, rfl⟩⟩ := assign_eq_ok.mp h
  · have hjs := leaves_passing hframe hlabels hfp htemps hcall c
    have hload := evaluates_emit_loadResult (w := w) hi (Nat.zero_le _) (Mmix.performAll w js c)
    have hall := hjs.executes_update (perform_emit_loadResult hi _) hload.effects
    rw [hjs.hidden, List.append_assoc] at hall
    exact hall
  · have hjs := evaluates_expr hframe hlabels hfp htemps hvalue c
    have hall := hjs.executes_update (perform_emitCopy hi _)
      (leaves_emitCopy hi (Nat.zero_le _) _).effects
    rw [hjs.value, List.append_nil] at hall
    exact hall

/-- A store shows the address that its base and its offset make up, and the value. -/
theorem leaves_emit_store {value base : Temp} {offset : Nat} {i : Instr}
    (hi : emit fp (.store value base offset) s = .ok i rest) (hnarrow : offset < UInt8.size)
    (c : Core E) :
    let a := c.get fp base + UInt64.ofNat offset
    Leaves w n [i] c ⟨[.store a (c.get fp value)],
      { c.hidden with memory := c.hidden.memory.store a (c.get fp value) }⟩ := by
  obtain ⟨a, -, b, hb, hargs⟩ := Operation.args_inline_store fp value base offset
  refine leaves_emit (Operation.proper_store hnarrow) hi (List.forall_mem_nil _) ?_ rfl rfl
  rw [hargs]
  exact congrArg Option.toList (Mmix.sideEffect?_sto hb _ _ _)

/-- The value of a store and the store itself, behind code for the address. -/
theorem leaves_storing {src : Expr} {base value : Temp} {offset : Nat} {i : Instr}
    {mid next : Supply} (hframe : w.KeepsFrame) (hsrc : ∀ l ∈ src.labels, l.Plain)
    (hfp : fp.number < n) (htemps : ∀ u ∈ src.temps, u.number < n) (hle : n ≤ mid.next)
    (hbase : base.number < mid.next) (his : Leaves w n is c y)
    (hvalue : expr fp src mid = .ok (js, value) next)
    (hi : emit fp (.store value base offset) next = .ok i rest) (hnarrow : offset < UInt8.size) :
    let a := (Mmix.performAll w is c).get fp base + UInt64.ofNat offset
    let x := src.evaluate w fp c.store y.hidden
    Leaves w n (is ++ js ++ [i]) c ⟨y.effects ++ x.effects ++ [.store a x.value],
      { x.hidden with memory := x.hidden.memory.store a x.value }⟩ := by
  have hjs := (evaluates_mutual hframe fp).1 src hsrc (Nat.lt_of_lt_of_le hfp hle)
    (fun u hu => Nat.lt_of_lt_of_le (htemps u hu) hle) hvalue (Mmix.performAll w is c) c.store
    fun u hu => his.temps u (htemps u hu)
  rw [his.hidden] at hjs
  have hboth := Evaluates.append his hjs hle
  have hstore := leaves_emit_store (w := w) (n := n) hi hnarrow (Mmix.performAll w (is ++ js) c)
  -- The address is still there when the value is known.
  have hkept : (Mmix.performAll w (is ++ js) c).get fp base =
      (Mmix.performAll w is c).get fp base := by
    rw [Mmix.performAll_append, hjs.get fp hbase]
  rw [hkept, hboth.value, hboth.hidden] at hstore
  exact hboth.toLeaves.append hstore (Nat.le_refl n)

/-- The address of a store comes before the value. -/
theorem leaves_store {addr src : Expr} (hframe : w.KeepsFrame)
    (haddr : ∀ l ∈ addr.labels, l.Plain) (hsrc : ∀ l ∈ src.labels, l.Plain)
    (hfp : fp.number < s.next) (haddrTemps : ∀ u ∈ addr.temps, u.number < s.next)
    (hsrcTemps : ∀ u ∈ src.temps, u.number < s.next) (h : store fp addr src s = .ok is rest)
    (c : Core E) :
    let a := addr.evaluate w fp c.store c.hidden
    let x := src.evaluate w fp c.store a.hidden
    Leaves w s.next is c ⟨a.effects ++ x.effects ++ [.store a.value x.value],
      { x.hidden with memory := x.hidden.memory.store a.value x.value }⟩ := by
  obtain ⟨is, base, mid, hbase, h⟩ := store_eq_ok.mp h
  have hdisplaced := displaced_folded addr
  have hnarrow := hdisplaced.narrow
  have hlabels := fun l hl => haddr l (hdisplaced.labels l hl)
  have htemps := fun u hu => haddrTemps u (hdisplaced.temps u hu)
  obtain ⟨hemits, hbelow⟩ := emits_expr hlabels htemps hbase
  have his := evaluates_expr hframe hlabels hfp htemps hbase c
  rw [evaluate_folded, displace]
  split at h
  · next hoffset =>
      obtain ⟨js, value, next, i, hvalue, hi, rfl⟩ := h
      have hall := leaves_storing hframe hsrc hfp hsrcTemps hemits.le hbelow his.toLeaves hvalue hi
        (by omega)
      rw [his.value] at hall
      rw [if_pos hoffset]
      exact hall
  · next hoffset =>
      obtain ⟨-, i, next, js, value, last, j, hi, hvalue, hj, rfl⟩ := h
      have hproper :
          (Operation.combineNumber .sub ⟨mid.next⟩ base (-(folded addr).2).toNat).Proper :=
        Operation.proper_combineNumber rfl rfl (by omega)
      obtain ⟨-, -, rfl⟩ := (emit_eq_ok hproper.toPlain).mp hi
      -- The offset is subtracted first, into a temporary of its own.
      have hsub := his.append_quiet (leaves_emit_quiet hproper hi
        (List.forall_mem_singleton.mpr (Nat.le_refl mid.next)) rfl rfl) hemits.le
      have hplace := (computes_emit (w := w) hproper hi rfl (Nat.le_refl mid.next) rfl rfl
        (Mmix.performAll w is c)).value
      have hall := leaves_storing hframe hsrc hfp hsrcTemps
        (Nat.le_trans hemits.le (Nat.le_succ mid.next)) (Nat.lt_succ_self mid.next) hsub hvalue hj
        (by decide)
      rw [Mmix.performAll_append, hplace, Word.add_ofNat_zero] at hall
      rw [if_neg hoffset, ← his.value]
      exact hall

/-- A statement that does not set a label has its side effects and leaves what it should. -/
theorem executes_stmt {st : Stmt} (hframe : w.KeepsFrame) (hlabels : ∀ l ∈ st.labels, l.Plain)
    (hfp : fp.number < s.next) (htemps : ∀ u ∈ st.temps, u.number < s.next)
    (h : stmt fp st s = .ok is rest) (hlabel : st.label? = none) (c : Core E) :
    Executes w s.next is c (st.execute w fp c) := by
  cases st with
  | move dst src =>
      rw [Stmt.labels, List.forall_mem_append] at hlabels
      rw [Stmt.temps, List.forall_mem_append] at htemps
      cases dst with
      | temp dst =>
          exact executes_assign hframe hlabels.2 hfp htemps.2 h c
      | mem addr =>
          have haddr : ∀ l ∈ addr.labels, l.Plain := hlabels.1
          have haddrTemps : ∀ u ∈ addr.temps, u.number < s.next := htemps.1
          rw [stmt] at h
          exact (leaves_store hframe haddr hlabels.2 hfp haddrTemps htemps.2 h c).executes
      | _ => exact absurd h throw_ne_ok
  | branch cond pos neg =>
      rw [Stmt.labels, List.forall_mem_append] at hlabels
      obtain ⟨js, value, mid, i, hvalue, hi, rfl⟩ := stmt_branch_eq_ok.mp h
      have hle := (emits_expr hlabels.1 htemps hvalue).1.le
      have hjs := evaluates_expr hframe hlabels.1 hfp htemps hvalue c
      exact (hjs.append_quiet (leaves_emit_quiet
        (Operation.proper_branch (hlabels.2 pos List.mem_cons_self)) hi (List.forall_mem_nil _) rfl
        rfl) hle).executes
  | jump target =>
      obtain ⟨i, hi, rfl⟩ := stmt_jump_eq_ok.mp h
      exact (leaves_emit_quiet (Operation.proper_jump (hlabels target List.mem_cons_self)) hi
        (List.forall_mem_nil _) rfl rfl c).executes
  | label l => cases hlabel
  | eval e =>
      obtain ⟨l, es, rfl, hcall⟩ | ⟨hcall, t, hvalue⟩ := stmt_eval_eq_ok.mp h
      · exact (leaves_passing hframe hlabels hfp htemps hcall c).executes
      · have hjs := evaluates_expr hframe hlabels hfp htemps hvalue c
        rw [Stmt.execute]
        · exact hjs.toLeaves.executes
        · exact hcall

/-- Code behind which control goes on. -/
theorem proceeds_of_sequential (h : ∀ i ∈ is, i.Sequential) : Mmix.Proceeds is := by
  obtain rfl | ⟨js, i, rfl⟩ := List.eq_nil_or_concat is
  · exact .inl rfl
  · rw [List.concat_eq_append, List.forall_mem_append, List.forall_mem_singleton] at h
    obtain ⟨hlabel, m, as, hread, -⟩ := h.2.straight
    refine .inr ⟨js, i, List.concat_eq_append, fun j hj => (h.1 j hj).straight, hlabel, ?_⟩
    rw [hread]
    rfl

/-- An operation that may jump stands behind such code. -/
theorem proceeds_concat {o : Operation} {i : Instr} (h : ∀ j ∈ js, j.Sequential)
    (hi : emit fp o s = .ok i rest) (ho : o.Proper) : Mmix.Proceeds (js ++ [i]) := by
  obtain ⟨-, rfl, -⟩ := (emit_eq_ok ho.toPlain).mp hi
  have hread : Mmix.read? (o.inline fp).instr.template = _ :=
    Operation.read?_template (ho.toReadable.inline fp)
  refine .inr ⟨js, _, rfl, fun j hj => (h j hj).straight, rfl, ?_⟩
  rw [hread]
  rfl

/-- Only the last instruction of a statement may jump. -/
theorem proceeds_stmt {st : Stmt} (hlabels : ∀ l ∈ st.labels, l.Plain)
    (htemps : ∀ u ∈ st.temps, u.number < s.next) (h : stmt fp st s = .ok is rest)
    (hlabel : st.label? = none) : Mmix.Proceeds is := by
  cases st with
  | move dst src =>
      rw [Stmt.labels, List.forall_mem_append] at hlabels
      rw [Stmt.temps, List.forall_mem_append] at htemps
      cases dst with
      | temp dst =>
          have hdst := htemps.1 dst (List.mem_singleton_self dst)
          exact proceeds_of_sequential (emitsAll_assign hlabels.2 hdst htemps.2 h).all
      | mem addr =>
          rw [stmt] at h
          exact proceeds_of_sequential
            (emitsAll_store h hlabels.1 hlabels.2 htemps.1 htemps.2).all
      | _ => exact absurd h throw_ne_ok
  | branch cond pos neg =>
      rw [Stmt.labels, List.forall_mem_append] at hlabels
      obtain ⟨js, value, mid, i, hvalue, hi, rfl⟩ := stmt_branch_eq_ok.mp h
      exact proceeds_concat (emits_expr hlabels.1 htemps hvalue).1.sequential hi
        (Operation.proper_branch (hlabels.2 pos List.mem_cons_self))
  | jump target =>
      obtain ⟨i, hi, rfl⟩ := stmt_jump_eq_ok.mp h
      exact proceeds_concat (List.forall_mem_nil _) hi
        (Operation.proper_jump (hlabels target List.mem_cons_self))
  | label l => cases hlabel
  | eval e =>
      obtain ⟨l, es, rfl, hcall⟩ | ⟨-, t, hvalue⟩ := stmt_eval_eq_ok.mp h
      · rw [Stmt.labels, Expr.labels, List.forall_mem_cons] at hlabels
        exact proceeds_of_sequential (emitsAll_call hlabels.1 hlabels.2 htemps hcall).all
      · exact proceeds_of_sequential (emits_expr hlabels htemps hvalue).1.sequential

/-- The code of a statement has the side effects of the statement, in order: the kinds of side
effects that its text shows are those of the tree, for any labels and any supply. If labels are
plain and the temporaries of the statement are not in the supply, a run through the code,
wherever it stands, has the addresses and values of the tree too, and leaves the same behind. -/
theorem stmt_keeps_side_effects {fp : Temp} {st : Stmt} {s rest : Supply} {is : List Instr}
    (h : stmt fp st s = .ok is rest) :
    is.filterMap Instr.effectKind? = st.effectKinds ∧
      ((∀ l ∈ st.labels, l.Plain) → fp.number < s.next → (∀ u ∈ st.temps, u.number < s.next) →
        ∀ {E : Type} (w : World E), w.KeepsFrame → ∀ (before after : List Instr) (c : Core E),
          let code := before ++ is ++ after
          let start : Mmix.State E := ⟨.line before.length, c⟩
          let reached := (Mmix.run w code start is.length).1.core
          let done := st.execute w fp c
          Mmix.sideEffects w code start is.length = done.1 ∧
            reached.hidden = done.2.hidden ∧
            ∀ u : Temp, u.number < s.next → reached.store u = done.2.store u) := by
  refine ⟨gives_stmt fp st h, fun hlabels hfp htemps E w hframe before after c => ?_⟩
  cases hlabel : st.label? with
  | none =>
      have hexecutes := executes_stmt hframe hlabels hfp htemps h hlabel c
      obtain ⟨htrace, hcore⟩ := (proceeds_stmt hlabels htemps h hlabel).trace w before after c
      simp only [htrace, hcore]
      exact ⟨hexecutes.effects, hexecutes.hidden, hexecutes.temps⟩
  | some l =>
      cases st with
      | label l =>
          obtain ⟨rfl, rfl⟩ := pure_eq_ok.mp h
          obtain ⟨htrace, hcore⟩ := Mmix.trace_label (i := .ofKind (.label l)) rfl w before after c
          simp only [htrace, hcore]
          exact ⟨rfl, rfl, fun _ _ => rfl⟩
      | _ => cases hlabel

/-- `Mem(place() - 8) := f(Mem(fp + 16) - Mem(t2), g(t1))`: the address of the store comes first,
the operands of the difference come from left to right, and the call among the arguments stores
its own argument after the first one of the outer call is stored. -/
theorem nested_calls_keep_side_effects :
    let st : Stmt := .move (.mem (.binary .sub (.call ⟨"place"⟩ []) (.const 8)))
      (.call ⟨"f"⟩ [.binary .sub (.mem (.binary .add (.temp ⟨0⟩) (.const 16))) (.mem (.temp ⟨2⟩)),
        .call ⟨"g"⟩ [.temp ⟨1⟩]])
    let w : World Unit := ⟨fun _ => 0, fun l h =>
      { h with
        memory := h.memory.store (h.global .stackPointer) (if l = ⟨"place"⟩ then 1000 else 7) }⟩
    let c : Core Unit := ⟨fun t => UInt64.ofNat (100 * t.number),
      ⟨fun r => if r = .framePointer then 500 else 2000, 0, id, ()⟩⟩
    ∃ is rest, stmt ⟨0⟩ st ⟨3⟩ = .ok is rest ∧
      is.filterMap Instr.effectKind? =
        [.call ⟨"place"⟩, .loadResult, .load, .load, .storeArgument, .storeArgument, .call ⟨"g"⟩,
          .loadResult, .storeArgument, .call ⟨"f"⟩, .loadResult, .store] ∧
      Mmix.sideEffects w is ⟨.line 0, c⟩ is.length =
        [.call ⟨"place"⟩, .loadResult, .load 516, .load 200, .storeArgument 0 39,
          .storeArgument 0 100, .call ⟨"g"⟩, .loadResult, .storeArgument 8 7, .call ⟨"f"⟩,
          .loadResult, .store 992 7] := by
  intro st w c
  have hsome : ((stmt ⟨0⟩ st).run' ⟨3⟩).isSome = true := by decide +kernel
  obtain ⟨is, rest, h⟩ := exists_of_isSome_run hsome
  have hlabels : ∀ l ∈ st.labels, l.Plain := by decide
  have htemps : ∀ u ∈ st.temps, u.number < 3 := by decide
  obtain ⟨hkinds, htrace⟩ := stmt_keeps_side_effects h
  obtain ⟨heffects, -⟩ := htrace hlabels (by decide) htemps w (fun _ _ => rfl) [] [] c
  refine ⟨is, rest, h, hkinds, ?_⟩
  rw [List.nil_append, List.append_nil] at heffects
  refine heffects.trans ?_
  decide +kernel

end Select

end MmixCodegen
