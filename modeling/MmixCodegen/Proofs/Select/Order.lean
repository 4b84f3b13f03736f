import MmixCodegen.Proofs.Assembly
import MmixCodegen.Proofs.Select.Shape

/-!
# `MmixCodegen.Proofs.Select.Order`: kinds of side effects keep their order

Besides its temporaries, code touches memory and calls procedures. `Instr.effectKind?` reads
from the text of an instruction which of this it does, and `Stmt.effectKinds` lists what a
statement does when its operands are evaluated from left to right.

`Select.gives_stmt` says that the two agree, for any labels and any supply: nothing is dropped,
done twice or moved between kinds. A folded address or a number in an operation leaves out the
code of a constant, which has no side effects; naming the frame pointer by its register rewrites
operands, and the mnemonic stays in front of them (`Select.mnemonic_of_emit`). Which addresses
and values the side effects have is left to `MmixCodegen.Proofs.Select.Trace`.

`Select.Gives` states this for a computation, and there is one lemma for each function that
selects instructions.
-/

set_option autoImplicit false

namespace MmixCodegen

/-- What kinds of things code does besides computing temporaries. -/
inductive EffectKind where
  /-- Load a word from an address. -/
  | load
  /-- Store a word at an address. -/
  | store
  /-- Load what a call left at the stack pointer. -/
  | loadResult
  /-- Store an argument at a distance from the stack pointer. -/
  | storeArgument
  | call (l : Label)
deriving DecidableEq, Repr

/-! ### The kinds of side effects of tree code -/

namespace Expr

mutual

/-- The kinds of the side effects of an expression, from left to right. -/
def effectKinds : Expr → List EffectKind
  | const _ | address _ | temp _ => []
  | mem addr => addr.effectKinds ++ [.load]
  | unary _ e => e.effectKinds
  | binary _ lhs rhs => lhs.effectKinds ++ rhs.effectKinds
  | call l args => argEffectKinds args ++ [.call l, .loadResult]

/-- The kinds of the side effects of a list of arguments: each is stored as soon as it is known. -/
def argEffectKinds : List Expr → List EffectKind
  | [] => []
  | e :: es => e.effectKinds ++ [.storeArgument] ++ argEffectKinds es

end

end Expr

/-- The kinds of the side effects of a statement. The result of a call that is a statement of its
own is not loaded. -/
def Stmt.effectKinds : Stmt → List EffectKind
  | move (.mem addr) src => addr.effectKinds ++ src.effectKinds ++ [.store]
  | move _ src => src.effectKinds
  | branch cond _ _ => cond.effectKinds
  | jump _ | label _ => []
  | eval (.call l args) => Expr.argEffectKinds args ++ [.call l]
  | eval e => e.effectKinds

/-! ### The kinds of side effects of instructions -/

namespace Instr

/-- The text behind the first comma of an instruction. -/
def laterOperands (i : Instr) : List Char :=
  (i.template.toList.dropWhile (· ≠ ',')).drop 1

/-- The stack pointer as an operand that others follow. -/
def stackOperand : List Char :=
  Register.stackPointer.name.toList ++ [',']

/-- The kind of the side effect of an instruction, as its text shows it. -/
def effectKind? (i : Instr) : Option EffectKind :=
  match Mnemonic.ofName? (i.template.toList.takeWhile (· ≠ ' ')) with
  | some .ldo => some (if i.laterOperands = stackOperand ++ ['0'] then .loadResult else .load)
  | some .sto => some (if stackOperand.isPrefixOf i.laterOperands then .storeArgument else .store)
  | some .pushj => some (.call ⟨String.ofList i.laterOperands⟩)
  | _ => none

end Instr

/-- Whether operations with the mnemonic have no side effects. -/
def Mnemonic.isQuiet : Mnemonic → Bool
  | ldo | sto | pushj => false
  | _ => true

namespace Instr

variable {i : Instr} {m : Mnemonic} {first rest : List Char}

/-- The name of a mnemonic holds no comma. -/
theorem comma_notMem_name (m : Mnemonic) : ',' ∉ m.name.toList := by
  cases m with
  | set group => cases group <;> decide
  | inc group => cases group <;> decide
  | zeroOrSet cond => cases cond <;> decide
  | _ => decide

/-- The mnemonic of a template is what stands in front of its first blank. -/
theorem ofName?_of_template (h : i.template.toList = m.name.toList ++ ' ' :: rest) :
    Mnemonic.ofName? (i.template.toList.takeWhile (· ≠ ' ')) = some m := by
  have hall : ∀ c ∈ m.name.toList, decide (c ≠ ' ') = true := by
    intro c hc
    refine decide_eq_true ?_
    rintro rfl
    exact Operation.blank_notMem_name m hc
  rw [h, List.takeWhile_append_of_pos hall]
  simp [Mnemonic.ofName?_name]

/-- The later operands are what stands behind the first comma. -/
theorem laterOperands_of_template
    (h : i.template.toList = m.name.toList ++ ' ' :: (first ++ ',' :: rest))
    (hfirst : ',' ∉ first) :
    i.laterOperands = rest := by
  have hall : ∀ c ∈ m.name.toList ++ ' ' :: first, decide (c ≠ ',') = true := by
    intro c hc
    refine decide_eq_true ?_
    rintro rfl
    rw [List.mem_append, List.mem_cons] at hc
    rcases hc with hc | hc | hc
    · exact comma_notMem_name m hc
    · exact absurd hc (by decide)
    · exact hfirst hc
  rw [laterOperands, h, ← List.cons_append, ← List.append_assoc, List.dropWhile_append_of_pos hall]
  simp

/-- An instruction with a quiet mnemonic has no side effect. -/
theorem effectKind?_of_quiet (hm : m.isQuiet = true)
    (h : i.template.toList = m.name.toList ++ ' ' :: rest) : i.effectKind? = none := by
  rw [effectKind?, ofName?_of_template h]
  cases m with
  | ldo | sto | pushj => cases hm
  | _ => rfl

end Instr

namespace Operation

variable {o : Operation} {a b : Arg} {as : List Arg}

/-- The text of an operation with several operands. -/
theorem toList_template_cons (h : o.args = a :: b :: as) :
    o.template.toList = o.mnemonic.name.toList ++
      ' ' :: (a.text.toList ++ ',' :: [','].intercalate
        ((b :: as).map fun a => a.text.toList)) := by
  rw [toList_template, h, List.map_cons, List.map_cons, List.intercalate_cons_cons]
  simp

/-- The text behind the first comma is that of all operands but the first one. -/
theorem laterOperands_of_args {i : Instr} (hi : i.template = o.template) (h : o.args = a :: b :: as)
    (ha : ',' ∉ a.text.toList) :
    i.laterOperands = [','].intercalate ((b :: as).map fun a => a.text.toList) :=
  Instr.laterOperands_of_template (hi ▸ toList_template_cons h) ha

/-- The template of an operation shows its mnemonic. -/
theorem ofName?_of_template {i : Instr} (hi : i.template = o.template) :
    Mnemonic.ofName? (i.template.toList.takeWhile (· ≠ ' ')) = some o.mnemonic :=
  Instr.ofName?_of_template (hi ▸ toList_template o)

/-- The first two operands of a load or a store, other than the stack pointer. -/
def accessArgs : List Arg :=
  [.slot (.write 0), .slot (.read 0), .slot (.read 1), .register .framePointer]

/-- The first operands of loads and stores hold no comma. -/
theorem comma_notMem_of_mem_accessArgs (ha : a ∈ accessArgs) : ',' ∉ a.text.toList := by
  revert a
  decide

/-- The base of a load or a store is not taken for the stack pointer. -/
theorem not_isPrefixOf_of_mem_accessArgs (hb : b ∈ accessArgs) (cs : List Char) :
    Instr.stackOperand.isPrefixOf (b.text.toList ++ cs) = false := by
  simp only [accessArgs, List.mem_cons, List.not_mem_nil, or_false] at hb
  rcases hb with rfl | rfl | rfl | rfl <;> rfl

/-- The base of an emitted load is not the stack pointer. -/
theorem args_inline_load (fp dst base : Temp) (n : Nat) :
    ∃ b ∈ accessArgs, ((load dst base n).inline fp).args = [.slot (.write 0), b, .number n] := by
  rw [args]
  by_cases hbase : base = fp <;>
    simp [inline, load, Operand.inline, Operand.args, hbase, accessArgs]

/-- The base of an emitted store is not the stack pointer. -/
theorem args_inline_store (fp value base : Temp) (n : Nat) :
    ∃ a ∈ accessArgs, ∃ b ∈ accessArgs,
      ((store value base n).inline fp).args = [a, b, .number n] := by
  rw [args]
  by_cases hvalue : value = fp <;> by_cases hbase : base = fp <;>
    simp [inline, store, Operand.inline, Operand.args, hvalue, hbase, accessArgs]

/-- The base of an emitted argument is the stack pointer. -/
theorem args_inline_storeArg (fp value : Temp) (n : Nat) :
    ∃ a ∈ accessArgs,
      ((storeArg value n).inline fp).args = [a, .register .stackPointer, .number n] := by
  rw [args]
  by_cases hvalue : value = fp <;>
    simp [inline, storeArg, Operand.inline, Operand.args, hvalue, accessArgs]

/-- The base of an emitted argument is the stack pointer, also if its distance is computed. -/
theorem args_inline_storeArgAt (fp value offset : Temp) :
    ∃ a ∈ accessArgs, ∃ c,
      ((storeArgAt value offset).inline fp).args = [a, .register .stackPointer, c] := by
  rw [args]
  by_cases hvalue : value = fp <;> by_cases hoffset : offset = fp <;>
    simp [inline, storeArgAt, Operand.inline, Operand.args, hvalue, hoffset, accessArgs]

section Access

variable {i : Instr} {c : Arg} (hi : i.template = o.template) (ha : a ∈ accessArgs)

include hi ha

/-- The later operands of a load or a store are its base and its offset. -/
theorem laterOperands_of_access (h : o.args = [a, b, c]) :
    i.laterOperands = b.text.toList ++ ',' :: c.text.toList := by
  rw [laterOperands_of_args hi h (comma_notMem_of_mem_accessArgs ha)]
  simp

/-- A load whose base is not the stack pointer. -/
theorem effectKind?_of_load (hm : o.mnemonic = .ldo) (h : o.args = [a, b, c])
    (hb : b ∈ accessArgs) :
    i.effectKind? = some .load := by
  have hnot := not_isPrefixOf_of_mem_accessArgs hb (',' :: c.text.toList)
  rw [Instr.effectKind?, ofName?_of_template hi, hm, laterOperands_of_access hi ha h]
  refine congrArg some (if_neg fun heq => ?_)
  rw [heq] at hnot
  exact absurd hnot (by decide)

/-- A store whose base is not the stack pointer. -/
theorem effectKind?_of_store (hm : o.mnemonic = .sto) (h : o.args = [a, b, c])
    (hb : b ∈ accessArgs) : i.effectKind? = some .store := by
  rw [Instr.effectKind?, ofName?_of_template hi, hm, laterOperands_of_access hi ha h,
    not_isPrefixOf_of_mem_accessArgs hb]
  rfl

/-- A store with the stack pointer as its base stores an argument. -/
theorem effectKind?_of_storeArg (hm : o.mnemonic = .sto)
    (h : o.args = [a, .register .stackPointer, c]) : i.effectKind? = some .storeArgument := by
  rw [Instr.effectKind?, ofName?_of_template hi, hm, laterOperands_of_access hi ha h]
  rfl

end Access

end Operation

namespace Select

variable {fp : Temp} {o : Operation} {s rest : Supply} {i : Instr}

/-! ### Emitted operations -/

/-- What is emitted has the mnemonic of the operation, whatever its labels are. -/
theorem mnemonic_of_emit (h : emit fp o s = .ok i rest) :
    ∃ cs, i.template.toList = o.mnemonic.name.toList ++ ' ' :: cs := by
  obtain ⟨-, -, template, uses, hinline, rfl⟩ := inlineFramePointer_of_emit h
  obtain ⟨-, rfl, -⟩ | ⟨hexpand, -⟩ := inlineFramePointer_cases hinline
  · exact ⟨_, o.toList_template⟩
  · rw [Template.expand] at hexpand
    obtain ⟨ds, hjoin, h⟩ := MmixCodegen.bind_eq_ok.mp hexpand
    cases h
    -- The mnemonic and the blank are scanned as they are.
    have hplain : Template.mark ∉ o.mnemonic.name.toList ++ [' '] := by
      rw [List.mem_append, not_or]
      exact ⟨Operation.mark_notMem_name _, by decide⟩
    rw [Template.scan, Operation.toList_template,
      ← List.singleton_append (l := [','].intercalate _),
      ← List.append_assoc, Template.scanFrom_plain hplain] at hjoin
    obtain ⟨es, rfl⟩ := Template.exists_append_of_join hjoin
    refine ⟨es, ?_⟩
    show (String.ofList _).toList = _
    rw [String.toList_ofList, List.append_assoc, List.singleton_append]

/-- A quiet operation is emitted as an instruction without side effects. -/
theorem effectKind?_of_emit_quiet (h : emit fp o s = .ok i rest) (ho : o.mnemonic.isQuiet = true) :
    i.effectKind? = none := by
  obtain ⟨cs, hcs⟩ := mnemonic_of_emit h
  exact Instr.effectKind?_of_quiet ho hcs

/-- What reads no temporary is emitted as it is. -/
theorem template_of_emit (h : emit fp o s = .ok i rest) (huses : o.uses = []) :
    i.template = o.template := by
  obtain ⟨-, -, template, uses, hinline, rfl⟩ := inlineFramePointer_of_emit h
  rw [huses] at hinline
  cases hinline
  rfl

/-- A call is emitted as a call of the same label. -/
theorem effectKind?_of_emit_call {l : Label} (h : emit fp (.call l) s = .ok i rest) :
    i.effectKind? = some (.call l) := by
  have hi := template_of_emit h rfl
  have hargs : (Operation.call l).args = [.slot .window, .label l] := rfl
  rw [Instr.effectKind?, Operation.ofName?_of_template hi,
    Operation.laterOperands_of_args hi hargs (by decide)]
  simp [Operation.call, Arg.text]

/-- Loading what a call returned is told from other loads. -/
theorem effectKind?_of_emit_loadResult {dst : Temp} (h : emit fp (.loadResult dst) s = .ok i rest) :
    i.effectKind? = some .loadResult := by
  have hi := template_of_emit h rfl
  rw [Instr.effectKind?, Operation.ofName?_of_template hi,
    Operation.laterOperands_of_access hi (by decide) rfl]
  rfl

/-- A load is emitted as a load, whatever its base is. -/
theorem effectKind?_of_emit_load {dst base : Temp} {n : Nat}
    (h : emit fp (.load dst base n) s = .ok i rest) : i.effectKind? = some .load := by
  obtain ⟨-, rfl, -⟩ := (emit_eq_ok (Operation.plain_load n)).mp h
  obtain ⟨b, hb, hargs⟩ := Operation.args_inline_load fp dst base n
  exact Operation.effectKind?_of_load rfl (by decide) rfl hargs hb

/-- A store is emitted as a store, whatever its base is. -/
theorem effectKind?_of_emit_store {value base : Temp} {n : Nat}
    (h : emit fp (.store value base n) s = .ok i rest) : i.effectKind? = some .store := by
  obtain ⟨-, rfl, -⟩ := (emit_eq_ok (Operation.plain_store n)).mp h
  obtain ⟨a, ha, b, hb, hargs⟩ := Operation.args_inline_store fp value base n
  exact Operation.effectKind?_of_store rfl ha rfl hargs hb

/-- Storing an argument at a number is emitted as such. -/
theorem effectKind?_of_emit_storeArg {value : Temp} {n : Nat}
    (h : emit fp (.storeArg value n) s = .ok i rest) : i.effectKind? = some .storeArgument := by
  obtain ⟨-, rfl, -⟩ := (emit_eq_ok (Operation.plain_storeArg n)).mp h
  obtain ⟨a, ha, hargs⟩ := Operation.args_inline_storeArg fp value n
  exact Operation.effectKind?_of_storeArg rfl ha rfl hargs

/-- Storing an argument at an offset in a temporary is emitted as such. -/
theorem effectKind?_of_emit_storeArgAt {value offset : Temp}
    (h : emit fp (.storeArgAt value offset) s = .ok i rest) :
    i.effectKind? = some .storeArgument := by
  obtain ⟨-, rfl, -⟩ := (emit_eq_ok Operation.proper_storeArgAt.toPlain).mp h
  obtain ⟨a, ha, c, hargs⟩ := Operation.args_inline_storeArgAt fp value offset
  exact Operation.effectKind?_of_storeArg rfl ha rfl hargs

/-- A copy has no side effect. -/
theorem effectKind?_of_emitCopy {dst src : Temp} (h : emitCopy fp dst src s = .ok i rest) :
    i.effectKind? = none := by
  obtain ⟨-, rfl, -⟩ := emitCopy_eq_ok.mp h
  split
  · exact Instr.effectKind?_of_quiet (m := .add) rfl (Operation.toList_template _)
  · have htext : (Instr.copy dst src).template.toList =
        Mnemonic.add.name.toList ++ ' ' :: "`d0,`s0,0".toList := by
      show Instr.moveTemplate.toList = _
      decide
    exact Instr.effectKind?_of_quiet rfl htext

/-! ### Computations -/

section Gives

variable {α β : Type} {P : α → Prop} {Q : β → Prop}

/-- Whatever the computation gives has the property. -/
def Gives (P : α → Prop) (x : Select α) : Prop :=
  ∀ ⦃s rest : Supply⦄ ⦃a : α⦄, x s = .ok a rest → P a

/-- A result by itself is what is given. -/
theorem gives_pure {a : α} (h : P a) : Gives P (pure a) := by
  intro s rest b hb
  obtain ⟨rfl, -⟩ := pure_eq_ok.mp hb
  exact h

/-- What the second part gives holds of the whole. -/
theorem Gives.bind {x : Select α} {f : α → Select β} (hx : Gives P x)
    (hf : ∀ a, P a → Gives Q (f a)) : Gives Q (x >>= f) := by
  intro s rest b h
  obtain ⟨a, mid, ha, h⟩ := bind_eq_ok.mp h
  exact hf a (hx ha) h

/-- It does not matter which temporary is fresh. -/
theorem Gives.of_fresh {f : Temp → Select β} (hf : ∀ t, Gives Q (f t)) : Gives Q (fresh >>= f) :=
  Gives.bind (P := fun _ => True) (fun _ _ _ _ => trivial) fun t _ => hf t

end Gives

/-- The kinds of the side effects of code. -/
def effectKinds (is : List Instr) : List EffectKind :=
  is.filterMap Instr.effectKind?

/-- No instructions have no side effects. -/
@[simp]
theorem effectKinds_nil : effectKinds [] = [] :=
  rfl

/-- The side effects of code in two parts are those of one and then those of the other. -/
@[simp]
theorem effectKinds_append (is js : List Instr) :
    effectKinds (is ++ js) = effectKinds is ++ effectKinds js :=
  List.filterMap_append

/-- The first instruction comes with the first side effect, if it has one. -/
@[simp]
theorem effectKinds_cons (i : Instr) (is : List Instr) :
    effectKinds (i :: is) = i.effectKind?.toList ++ effectKinds is := by
  cases h : i.effectKind? <;> simp [effectKinds, h]

/-- Loading a constant has no side effects. -/
theorem effectKinds_loadConstant (dst : Temp) (value : UInt64) :
    effectKinds ((Operation.loadConstant dst value).map Operation.instr) = [] := by
  rw [effectKinds, List.filterMap_eq_nil_iff]
  intro i hi
  obtain ⟨o, ho, rfl⟩ := List.mem_map.mp hi
  have hquiet : o.mnemonic.isQuiet = true := by
    obtain ⟨group, n, -, rfl | rfl⟩ := Operation.packs_of_mem_loadConstant dst ho
    · rfl
    · rfl
  exact Instr.effectKind?_of_quiet hquiet (Operation.toList_template o)

/-- Whatever is emitted for a quiet operation has no side effect. -/
theorem gives_emit_quiet (fp : Temp) (ho : o.mnemonic.isQuiet = true) :
    Gives (fun i => i.effectKind? = none) (emit fp o) :=
  fun _ _ _ h => effectKind?_of_emit_quiet h ho

/-- Whatever is emitted for quiet operations in a row has no side effects. -/
theorem gives_mapM_emit {os : List Operation} (hos : ∀ o ∈ os, o.mnemonic.isQuiet = true) :
    Gives (fun is => effectKinds is = []) (os.mapM (emit fp)) := by
  induction os with
  | nil => exact gives_pure rfl
  | cons o os ih =>
      rw [List.forall_mem_cons] at hos
      rw [List.mapM_cons]
      refine (gives_emit_quiet fp hos.1).bind fun i hi => (ih hos.2).bind fun is his => ?_
      exact gives_pure (by simp [hi, his])

/-- The code of a constant has no side effects. -/
theorem gives_constant (fp : Temp) (value : Int64) :
    Gives (fun v : Value => effectKinds v.1 = []) (constant fp value) := by
  refine Gives.of_fresh fun dst => ?_
  split
  · refine (gives_emit_quiet fp rfl).bind fun i hi => ?_
    exact gives_pure (by simp [effectKinds_loadConstant, hi])
  · exact gives_pure (effectKinds_loadConstant _ _)

/-- An operation with a small number has no side effects. -/
theorem gives_applyShortcut {sc : Shortcut} (fp lhs : Temp)
    (hsc : ∀ m n, sc = .number m n → m ∈ [.add, .sub, .mul, .div]) :
    Gives (fun v : Value => effectKinds v.1 = []) (applyShortcut fp lhs sc) := by
  cases sc with
  | same =>
      refine Gives.of_fresh fun dst => Gives.bind (fun _ _ _ => effectKind?_of_emitCopy)
        fun i hi => ?_
      exact gives_pure (by simp [hi])
  | number m n =>
      have hm : m.isQuiet = true := by
        have hmem := hsc m n rfl
        simp only [List.mem_cons, List.not_mem_nil, or_false] at hmem
        rcases hmem with rfl | rfl | rfl | rfl <;> rfl
      refine Gives.of_fresh fun dst => (gives_emit_quiet fp hm).bind fun i hi => ?_
      exact gives_pure (by simp [hi])

/-- The code of a load loads once. -/
theorem gives_loadAt (fp base : Temp) (offset : Int) :
    Gives (fun v : Value => effectKinds v.1 = [.load]) (loadAt fp base offset) := by
  refine Gives.of_fresh fun dst => ?_
  split
  · refine Gives.bind (fun _ _ _ => effectKind?_of_emit_load) fun i hi => ?_
    exact gives_pure (by simp [hi])
  · refine (gives_emit_quiet fp rfl).bind fun i hi =>
      Gives.bind (fun _ _ _ => effectKind?_of_emit_load) fun j hj => ?_
    exact gives_pure (by simp [hi, hj])

/-- The code that stores an argument stores once. -/
theorem gives_storeArg (fp value : Temp) (index : Nat) :
    Gives (fun is => effectKinds is = [.storeArgument]) (storeArg fp value index) := by
  unfold storeArg
  dsimp only
  split
  · refine Gives.bind (fun _ _ _ => effectKind?_of_emit_storeArg) fun i hi => ?_
    exact gives_pure (by simp [hi])
  · refine Gives.of_fresh fun slot =>
      Gives.bind (fun _ _ _ => effectKind?_of_emit_storeArgAt) fun i hi => ?_
    exact gives_pure (by simp [effectKinds_loadConstant, hi])

/-! ### Expressions -/

/-- The constant of a folded address is not selected, and it has no side effects. -/
theorem effectKinds_folded (addr : Expr) : (folded addr).1.effectKinds = addr.effectKinds := by
  obtain hfolded | ⟨op, base, value, offset, rfl, -, hfolded⟩ := folded_cases addr
  · rw [hfolded]
  · rw [hfolded, Expr.effectKinds, Expr.effectKinds, List.append_nil]

/-- The operations of a binary operator have no side effects. -/
theorem quiet_of_mem_binaryOperations {op : BinaryOp} {dst lhs rhs : Temp} {o : Operation}
    (h : o ∈ binaryOperations op dst lhs rhs) : o.mnemonic.isQuiet = true := by
  cases op <;>
    simp only [binaryOperations, comparison, List.mem_cons, List.not_mem_nil, or_false] at h
  case mod | eq | ne | lt | gt | le | ge => rcases h with rfl | rfl <;> rfl
  all_goals
    subst h
    rfl

/-- The case of binary operators: the left operand comes first, and a constant on the right that
is left out has no side effects. -/
theorem gives_binary {op : BinaryOp} {lhs rhs : Expr}
    (hlhs : Gives (fun v : Value => effectKinds v.1 = lhs.effectKinds) (expr fp lhs))
    (hrhs : Gives (fun v : Value => effectKinds v.1 = rhs.effectKinds) (expr fp rhs)) :
    Gives (fun v : Value => effectKinds v.1 = (Expr.binary op lhs rhs).effectKinds)
      (expr fp (.binary op lhs rhs)) := by
  rw [expr, Expr.effectKinds]
  refine hlhs.bind fun left his => ?_
  cases hsc : operandShortcut? op rhs with
  | some sc =>
      -- There is a shortcut for constants only, and these have no side effects.
      obtain ⟨value, rfl, -⟩ := exists_const_of_operandShortcut? hsc
      refine (gives_applyShortcut fp _ fun m n h => (mem_of_operandShortcut? hsc m n h).1).bind
        fun _ hjs => gives_pure ?_
      rw [effectKinds_append, his, hjs, Expr.effectKinds]
  | none =>
      refine hrhs.bind fun _ hjs => Gives.of_fresh fun dst =>
        (gives_mapM_emit fun o => quiet_of_mem_binaryOperations).bind fun _ hks => gives_pure ?_
      rw [effectKinds_append, effectKinds_append, his, hjs, hks, List.append_nil]

/-- Expressions and arguments together, along their recursion. -/
theorem gives_mutual (fp : Temp) :
    (∀ e : Expr, Gives (fun v : Value => effectKinds v.1 = e.effectKinds) (expr fp e)) ∧
      ∀ index es, Gives (fun is => effectKinds is = Expr.argEffectKinds es) (args fp index es) := by
  refine expr_induct ?const ?address ?temp ?mem ?unary (fun op lhs rhs => gives_binary) ?call ?nil
    ?cons
  case const =>
    intro value
    rw [expr]
    exact gives_constant fp value
  case address =>
    intro l
    rw [expr]
    refine Gives.of_fresh fun dst => (gives_emit_quiet fp rfl).bind fun i hi => gives_pure ?_
    simp [hi, Expr.effectKinds]
  case temp =>
    intro t
    rw [expr]
    exact gives_pure rfl
  case mem =>
    intro addr ih
    rw [expr_mem, Expr.effectKinds, ← effectKinds_folded]
    exact ih.bind fun _ his => (gives_loadAt _ _ _).bind fun _ hjs =>
      gives_pure (by rw [effectKinds_append, his, hjs])
  case unary =>
    intro op e ih
    rw [expr, Expr.effectKinds]
    have hop : ∀ dst src, (unaryOperation op dst src).mnemonic.isQuiet = true := by
      cases op <;> exact fun _ _ => rfl
    refine ih.bind fun _ his => Gives.of_fresh fun dst =>
      (gives_emit_quiet fp (hop _ _)).bind fun i hi => gives_pure ?_
    simp [his, hi]
  case call =>
    intro l es ih
    rw [expr, Expr.effectKinds]
    refine ih.bind fun _ his => Gives.bind (fun _ _ _ => effectKind?_of_emit_call) fun i hi =>
      Gives.of_fresh fun dst =>
        Gives.bind (fun _ _ _ => effectKind?_of_emit_loadResult) fun j hj => gives_pure ?_
    simp [his, hi, hj]
  case nil =>
    intro index
    rw [args]
    exact gives_pure rfl
  case cons =>
    intro index e es ihe ihes
    rw [args, Expr.argEffectKinds]
    refine ihe.bind fun _ his => (gives_storeArg _ _ _).bind fun _ hjs =>
      ihes.bind fun _ hks => gives_pure ?_
    rw [effectKinds_append, effectKinds_append, his, hjs, hks]

/-- The code of an expression has its kinds of side effects, in order. -/
theorem gives_expr (fp : Temp) (e : Expr) :
    Gives (fun v : Value => effectKinds v.1 = e.effectKinds) (expr fp e) :=
  (gives_mutual fp).1 e

/-! ### Statements -/

/-- The code of a call stores its arguments and then calls. -/
theorem gives_call (fp : Temp) (l : Label) (es : List Expr) :
    Gives (fun is => effectKinds is = Expr.argEffectKinds es ++ [.call l]) (call fp l es) := by
  refine ((gives_mutual fp).2 0 es).bind fun _ his =>
    Gives.bind (fun _ _ _ => effectKind?_of_emit_call) fun i hi => gives_pure ?_
  simp [his, hi]

/-- Leaving the offset of an address aside leaves out no side effect. -/
theorem gives_address (fp : Temp) (addr : Expr) :
    Gives (fun v : Value × Int => effectKinds v.1.1 = addr.effectKinds) (address fp addr) := by
  rw [address_eq, ← effectKinds_folded]
  exact (gives_expr fp _).bind fun _ his => gives_pure his

/-- The code of a store has the side effects of its address, those of its value, and then stores. -/
theorem gives_store (fp : Temp) (addr src : Expr) :
    Gives (fun is => effectKinds is = addr.effectKinds ++ src.effectKinds ++ [.store])
      (store fp addr src) := by
  refine (gives_address fp addr).bind fun place his => ?_
  dsimp only
  split
  · refine (gives_expr fp src).bind fun _ hjs =>
      Gives.bind (fun _ _ _ => effectKind?_of_emit_store) fun i hi => gives_pure ?_
    simp [his, hjs, hi]
  · refine Gives.of_fresh fun t => (gives_emit_quiet fp rfl).bind fun i hi =>
      (gives_expr fp src).bind fun _ hjs =>
        Gives.bind (fun _ _ _ => effectKind?_of_emit_store) fun j hj => gives_pure ?_
    simp [his, hjs, hi, hj]

/-- The code of an assignment has the side effects of its source. -/
theorem gives_assign (fp dst : Temp) (src : Expr) :
    Gives (fun is => effectKinds is = src.effectKinds) (assign fp dst src) := by
  unfold assign
  split
  · exact fun _ _ _ h => absurd h throw_ne_ok
  · split
    · next l es =>
      refine (gives_call fp l es).bind fun _ his =>
        Gives.bind (fun _ _ _ => effectKind?_of_emit_loadResult) fun i hi => gives_pure ?_
      simp [his, hi, Expr.effectKinds]
    · refine (gives_expr fp src).bind fun _ his =>
        Gives.bind (fun _ _ _ => effectKind?_of_emitCopy) fun i hi => gives_pure ?_
      simp [his, hi]

/-- The code of a statement has its kinds of side effects, in order. -/
theorem gives_stmt (fp : Temp) (st : Stmt) :
    Gives (fun is => effectKinds is = st.effectKinds) (stmt fp st) := by
  cases st with
  | move dst src =>
      cases dst with
      | temp dst => exact gives_assign fp dst src
      | mem addr =>
          rw [stmt]
          exact gives_store fp addr src
      | _ => exact fun _ _ _ h => absurd h throw_ne_ok
  | branch cond pos neg =>
      refine (gives_expr fp cond).bind fun _ his => (gives_emit_quiet fp rfl).bind fun i hi =>
        gives_pure ?_
      simp [his, hi, Stmt.effectKinds]
  | jump target =>
      refine (gives_emit_quiet fp rfl).bind fun i hi => gives_pure ?_
      simp [hi, Stmt.effectKinds]
  | label l => exact gives_pure rfl
  | eval e =>
      cases e with
      | call l es => exact gives_call fp l es
      | _ => exact (gives_expr fp _).bind fun _ his => gives_pure his

/-- A computation that gives something succeeds. -/
theorem exists_of_isSome_run {α : Type} {x : Select α} {s : Supply}
    (h : (x.run' s).isSome = true) : ∃ a rest, x s = .ok a rest := by
  cases hx : x s with
  | ok a rest => exact ⟨a, rest, rfl⟩
  | error e rest =>
      -- What a run gives depends on `x s` only.
      have hnone : x.run' s = none := by
        show EStateM.run' (fun _ => x s) s = none
        rw [hx]
        rfl
      rw [hnone] at h
      cases h

end Select

end MmixCodegen
