import MmixCodegen.Proofs.Select.Program
import MmixCodegen.Proofs.Select.Order
import MmixCodegen.Proofs.Spill.Held

/-!
# `MmixCodegen.Proofs.Select.Modest`: selected code has few operands

Each instruction that is selected is `Modest`: it reads two temporaries and writes one at most,
and if it jumps, it writes none. This is about operands alone, and so it holds whatever the
labels are, also where their text makes an instruction that cannot be expanded.
-/

set_option autoImplicit false

namespace MmixCodegen

namespace Operation

variable {o : Operation}

/-- An operation with as few operands as those that are selected. -/
structure Modest (o : Operation) : Prop where
  uses : o.uses.length ≤ 2
  defs : o.defs.length ≤ 1
  jump : o.targets ≠ [] → o.defs = [] ∧ o.uses.length ≤ 1

/-- An operation that does not jump. -/
theorem modest_of (o : Operation) (huses : o.uses.length ≤ 2) (hdefs : o.defs.length ≤ 1)
    (htargets : o.targets = []) : o.Modest :=
  ⟨huses, hdefs, fun hjumps => absurd htargets hjumps⟩

/-- The instruction of a modest operation is modest. -/
theorem Modest.instr (h : o.Modest) : o.instr.Modest :=
  ⟨h.uses, h.defs, h.jump⟩

/-- The instructions that load a constant are modest. -/
theorem modest_loadConstant {dst : Temp} {value : UInt64} {i : Instr}
    (hi : i ∈ (loadConstant dst value).map Operation.instr) : i.Modest := by
  obtain ⟨o, ho, rfl⟩ := List.mem_map.mp hi
  obtain ⟨group, n, -, rfl | rfl⟩ := packs_of_mem_loadConstant dst ho
  · exact (modest_of (.set group dst n) (Nat.zero_le 2) (Nat.le_refl 1) rfl).instr
  · exact (modest_of (.inc group dst n) (Nat.le_succ 1) (Nat.le_refl 1) rfl).instr

end Operation

namespace Select

variable {fp : Temp}

/-- All instructions of the list are modest. -/
def AllModest (is : List Instr) : Prop :=
  ∀ i ∈ is, i.Modest

/-- Modest lists may be joined. -/
theorem AllModest.append {is js : List Instr} (his : AllModest is) (hjs : AllModest js) :
    AllModest (is ++ js) :=
  List.forall_mem_append.mpr ⟨his, hjs⟩

/-- A modest instruction may be added at the end. -/
theorem AllModest.concat {is : List Instr} {i : Instr} (his : AllModest is) (hi : i.Modest) :
    AllModest (is ++ [i]) :=
  his.append (List.forall_mem_singleton.mpr hi)

/-! ### Operations -/

/-- What is emitted for a modest operation is modest. -/
theorem modest_emit (fp : Temp) {o : Operation} (ho : o.Modest) :
    Gives Instr.Modest (emit fp o) := by
  intro s rest i h
  obtain ⟨-, -, template, rfl⟩ := operands_of_emit h
  -- Naming the frame pointer by its register leaves fewer operands.
  have hle := List.length_filter_le (· ≠ fp) o.uses
  refine ⟨Nat.le_trans hle ho.uses, ho.defs, fun hjumps => ?_⟩
  obtain ⟨hdefs, huses⟩ := ho.jump hjumps
  exact ⟨hdefs, Nat.le_trans hle huses⟩

/-- A copy is modest, also one of the frame pointer. -/
theorem modest_emitCopy (fp dst src : Temp) : Gives Instr.Modest (emitCopy fp dst src) := by
  intro s rest i h
  obtain ⟨-, rfl, -⟩ := emitCopy_eq_ok.mp h
  split
  · exact (Operation.modest_of (.copyFramePointer dst) (Nat.zero_le 2) (Nat.le_refl 1) rfl).instr
  · exact ⟨Nat.le_succ 1, Nat.le_refl 1, fun hjumps => absurd rfl hjumps⟩

/-- What is emitted for modest operations in a row is modest. -/
theorem modest_mapM_emit {os : List Operation} (hos : ∀ o ∈ os, o.Modest) :
    Gives AllModest (os.mapM (emit fp)) := by
  induction os with
  | nil => exact gives_pure (List.forall_mem_nil _)
  | cons o os ih =>
      rw [List.forall_mem_cons] at hos
      rw [List.mapM_cons]
      refine (modest_emit fp hos.1).bind fun i hi => (ih hos.2).bind fun is his => ?_
      exact gives_pure (List.forall_mem_cons.mpr ⟨hi, his⟩)

/-- The instructions of a constant are modest. -/
theorem modest_constant (fp : Temp) (value : Int64) :
    Gives (fun v : Value => AllModest v.1) (constant fp value) := by
  refine Gives.of_fresh fun dst => ?_
  split
  · refine (modest_emit fp (Operation.modest_of (.negate dst dst) (Nat.le_succ 1) (Nat.le_refl 1)
      rfl)).bind fun i hi => gives_pure ?_
    exact AllModest.concat (fun _ => Operation.modest_loadConstant) hi
  · exact gives_pure fun _ => Operation.modest_loadConstant

/-- An operation with a small number is modest. -/
theorem modest_applyShortcut (fp lhs : Temp) (sc : Shortcut) :
    Gives (fun v : Value => AllModest v.1) (applyShortcut fp lhs sc) := by
  cases sc with
  | same =>
      refine Gives.of_fresh fun dst => (modest_emitCopy fp dst lhs).bind fun i hi => ?_
      exact gives_pure (List.forall_mem_singleton.mpr hi)
  | number m n =>
      refine Gives.of_fresh fun dst => (modest_emit fp (Operation.modest_of
        (.combineNumber m dst lhs n) (Nat.le_succ 1) (Nat.le_refl 1) rfl)).bind fun i hi => ?_
      exact gives_pure (List.forall_mem_singleton.mpr hi)

/-- The instructions of a load are modest. -/
theorem modest_loadAt (fp base : Temp) (offset : Int) :
    Gives (fun v : Value => AllModest v.1) (loadAt fp base offset) := by
  have hload : ∀ dst base n, (Operation.load dst base n).Modest := fun dst base n =>
    Operation.modest_of (.load dst base n) (Nat.le_succ 1) (Nat.le_refl 1) rfl
  refine Gives.of_fresh fun dst => ?_
  split
  · refine (modest_emit fp (hload _ _ _)).bind fun i hi => ?_
    exact gives_pure (List.forall_mem_singleton.mpr hi)
  · refine (modest_emit fp (Operation.modest_of (.combineNumber .sub dst base _) (Nat.le_succ 1)
      (Nat.le_refl 1) rfl)).bind fun i hi => (modest_emit fp (hload _ _ _)).bind fun j hj => ?_
    exact gives_pure (List.forall_mem_cons.mpr ⟨hi, List.forall_mem_singleton.mpr hj⟩)

/-- The instructions that store an argument are modest. -/
theorem modest_storeArg (fp value : Temp) (index : Nat) :
    Gives AllModest (storeArg fp value index) := by
  unfold storeArg
  dsimp only
  split
  · refine (modest_emit fp (Operation.modest_of (.storeArg value _) (Nat.le_succ 1) (Nat.zero_le 1)
      rfl)).bind fun i hi => ?_
    exact gives_pure (List.forall_mem_singleton.mpr hi)
  · refine Gives.of_fresh fun slot => (modest_emit fp (Operation.modest_of (.storeArgAt value slot)
      (Nat.le_refl 2) (Nat.zero_le 1) rfl)).bind fun i hi => gives_pure ?_
    exact AllModest.concat (fun _ => Operation.modest_loadConstant) hi

/-- A call has no temporaries as operands. -/
theorem modest_call (l : Label) : (Operation.call l).Modest :=
  Operation.modest_of (.call l) (Nat.zero_le 2) (Nat.zero_le 1) rfl

/-- Loading what a call returned writes one temporary. -/
theorem modest_loadResult (dst : Temp) : (Operation.loadResult dst).Modest :=
  Operation.modest_of (.loadResult dst) (Nat.zero_le 2) (Nat.le_refl 1) rfl

/-! ### Expressions -/

/-- Expressions and arguments together, along their recursion. -/
theorem modest_mutual (fp : Temp) :
    (∀ e : Expr, Gives (fun v : Value => AllModest v.1) (expr fp e)) ∧
      ∀ index es, Gives AllModest (args fp index es) := by
  refine expr_induct ?const ?address ?temp ?mem ?unary ?binary ?call ?nil ?cons
  case const =>
    intro value
    rw [expr]
    exact modest_constant fp value
  case address =>
    intro l
    rw [expr]
    refine Gives.of_fresh fun dst => (modest_emit fp (Operation.modest_of (.loadAddress dst l)
      (Nat.zero_le 2) (Nat.le_refl 1) rfl)).bind fun i hi => ?_
    exact gives_pure (List.forall_mem_singleton.mpr hi)
  case temp =>
    intro t
    rw [expr]
    exact gives_pure (List.forall_mem_nil _)
  case mem =>
    intro addr ih
    rw [expr_mem]
    exact ih.bind fun _ his => (modest_loadAt _ _ _).bind fun _ hjs => gives_pure (his.append hjs)
  case unary =>
    intro op e ih
    rw [expr]
    have hop : ∀ dst src, (unaryOperation op dst src).Modest := by
      cases op <;> exact fun _ _ => Operation.modest_of _ (Nat.le_succ 1) (Nat.le_refl 1) rfl
    refine ih.bind fun _ his => Gives.of_fresh fun dst =>
      (modest_emit fp (hop _ _)).bind fun i hi => ?_
    exact gives_pure (his.concat hi)
  case binary =>
    intro op lhs rhs ihl ihr
    rw [expr]
    refine ihl.bind fun left his => ?_
    cases operandShortcut? op rhs with
    | some sc =>
        exact (modest_applyShortcut fp _ sc).bind fun _ hjs => gives_pure (his.append hjs)
    | none =>
        have hops : ∀ dst right, ∀ o ∈ binaryOperations op dst left.2 right, o.Modest :=
          fun dst right o ho => Operation.modest_of o (mem_binaryOperations ho).1.uses_le
            (mem_binaryOperations ho).1.defs_le (mem_binaryOperations ho).2.1.targets
        refine ihr.bind fun _ hjs => Gives.of_fresh fun dst =>
          (modest_mapM_emit (hops dst _)).bind fun _ hks => ?_
        exact gives_pure ((his.append hjs).append hks)
  case call =>
    intro l es ih
    rw [expr]
    refine ih.bind fun is his => (modest_emit fp (modest_call l)).bind fun i hi =>
      Gives.of_fresh fun dst => (modest_emit fp (modest_loadResult dst)).bind fun j hj => ?_
    rw [List.append_cons]
    exact gives_pure ((his.concat hi).concat hj)
  case nil =>
    intro index
    rw [args]
    exact gives_pure (List.forall_mem_nil _)
  case cons =>
    intro index e es ihe ihes
    rw [args]
    refine ihe.bind fun _ his => (modest_storeArg _ _ _).bind fun _ hjs =>
      ihes.bind fun _ hks => ?_
    exact gives_pure ((his.append hjs).append hks)

/-- The instructions of an expression are modest. -/
theorem modest_expr (fp : Temp) (e : Expr) :
    Gives (fun v : Value => AllModest v.1) (expr fp e) :=
  (modest_mutual fp).1 e

/-! ### Statements -/

/-- The instructions of a call without its result are modest. -/
theorem modest_callStmt (fp : Temp) (l : Label) (es : List Expr) :
    Gives AllModest (call fp l es) :=
  ((modest_mutual fp).2 0 es).bind fun _ his =>
    (modest_emit fp (modest_call l)).bind fun _ hi => gives_pure (his.concat hi)

/-- The instructions of an address are modest. -/
theorem modest_address (fp : Temp) (addr : Expr) :
    Gives (fun v : Value × Int => AllModest v.1.1) (address fp addr) := by
  rw [address_eq]
  exact (modest_expr fp _).bind fun _ his => gives_pure his

/-- The instructions of a store are modest. -/
theorem modest_store (fp : Temp) (addr src : Expr) : Gives AllModest (store fp addr src) := by
  have hstore : ∀ value base n, (Operation.store value base n).Modest := fun _ _ _ =>
    Operation.modest_of (.store _ _ _) (Nat.le_refl 2) (Nat.zero_le 1) rfl
  refine (modest_address fp addr).bind fun place his => ?_
  dsimp only
  split
  · refine (modest_expr fp src).bind fun _ hjs => (modest_emit fp (hstore _ _ _)).bind
      fun i hi => ?_
    exact gives_pure ((his.append hjs).concat hi)
  · refine Gives.of_fresh fun t => (modest_emit fp (Operation.modest_of (.combineNumber .sub t _ _)
      (Nat.le_succ 1) (Nat.le_refl 1) rfl)).bind fun i hi => (modest_expr fp src).bind fun _ hjs =>
        (modest_emit fp (hstore _ _ _)).bind fun j hj => ?_
    exact gives_pure (((his.concat hi).append hjs).concat hj)

/-- The instructions of an assignment are modest. -/
theorem modest_assign (fp dst : Temp) (src : Expr) : Gives AllModest (assign fp dst src) := by
  unfold assign
  split
  · exact fun _ _ _ h => absurd h throw_ne_ok
  · split
    · exact (modest_callStmt fp _ _).bind fun _ his =>
        (modest_emit fp (modest_loadResult dst)).bind fun _ hi => gives_pure (his.concat hi)
    · exact (modest_expr fp _).bind fun _ his =>
        (modest_emitCopy fp dst _).bind fun _ hi => gives_pure (his.concat hi)

/-- The instructions of a statement are modest. -/
theorem modest_stmt (fp : Temp) (st : Stmt) : Gives AllModest (stmt fp st) := by
  cases st with
  | move dst src =>
      cases dst with
      | temp dst => exact modest_assign fp dst src
      | mem addr =>
          rw [stmt]
          exact modest_store fp addr src
      | _ => exact fun _ _ _ h => absurd h throw_ne_ok
  | branch cond pos neg =>
      have hbranch : ∀ value, (Operation.branch value pos neg).Modest := fun _ =>
        ⟨Nat.le_succ 1, Nat.zero_le 1, fun _ => ⟨rfl, Nat.le_refl 1⟩⟩
      exact (modest_expr fp cond).bind fun _ his =>
        (modest_emit fp (hbranch _)).bind fun _ hi => gives_pure (his.concat hi)
  | jump target =>
      have hjump : (Operation.jump target).Modest :=
        ⟨Nat.zero_le 2, Nat.zero_le 1, fun _ => ⟨rfl, Nat.zero_le 1⟩⟩
      exact (modest_emit fp hjump).bind fun _ hi => gives_pure (List.forall_mem_singleton.mpr hi)
  | label l =>
      refine gives_pure (List.forall_mem_singleton.mpr ?_)
      exact ⟨Nat.zero_le 2, Nat.zero_le 1, fun hjumps => absurd rfl hjumps⟩
  | eval e =>
      cases e with
      | call l es => exact modest_callStmt fp l es
      | _ => exact (modest_expr fp _).bind fun _ his => gives_pure his

/-- The instructions of statements are modest. -/
theorem modest_stmts (fp : Temp) (body : List Stmt) : Gives AllModest (stmts fp body) := by
  induction body with
  | nil => exact gives_pure (List.forall_mem_nil _)
  | cons st body ih =>
      exact (modest_stmt fp st).bind fun _ his => ih.bind fun _ hjs => gives_pure (his.append hjs)

end Select

/-- Selected code has few operands, whatever its labels are. -/
theorem Program.Selects.modest {ps : List Procedure} {rs : List Routine} {supply last : Supply}
    (h : Selects supply ps rs last) : ∀ r ∈ rs, ∀ i ∈ r.instrs, i.Modest := by
  induction h with
  | nil => exact List.forall_mem_nil _
  | cons head _ ih => exact List.forall_mem_cons.mpr ⟨Select.modest_stmts _ _ head, ih⟩

end MmixCodegen
