import MmixCodegen.Proofs.Select.Inversion

/-!
# `MmixCodegen.Proofs.Select.Shape`: the instructions that are selected

Whatever is selected for an expression does not jump: it is `Sequential`. Its
instructions write temporaries that were fresh, and mention only those below the supply
that is left. `Select.Emits` puts this together for a list of instructions and the two
ends of the supply, so that lists that are joined have joined supplies
(`Emits.append`). There is one lemma for each function that selects instructions;
`emits_expr` and `emits_args` follow their recursion.
-/

set_option autoImplicit false

namespace MmixCodegen

namespace Operation

/-- Control goes on behind the operation. -/
structure Sequential (o : Operation) : Prop where
  not_jmp : o.mnemonic ≠ .jmp
  not_bnz : o.mnemonic ≠ .bnz
  targets : o.targets = []

variable {o : Operation} {fp : Temp}

/-- Naming the frame pointer by its register keeps an operation proper. -/
theorem Proper.inline (h : o.Proper) (hfp : fp ∉ o.defs) : (o.inline fp).Proper where
  toReadable := h.toReadable.inline fp
  uses_le := by
    rw [uses_inline hfp]
    exact Nat.le_trans (List.length_filter_le _ _) h.uses_le
  defs_le := by
    rw [defs_inline]
    exact h.defs_le

/-- A mnemonic other than `JMP` and `BNZ`, and no targets: control goes on. -/
theorem sequential_of (hjmp : (o.mnemonic == .jmp) = false) (hbnz : (o.mnemonic == .bnz) = false)
    (htargets : o.targets = []) : o.Sequential :=
  ⟨ne_of_beq_false hjmp, ne_of_beq_false hbnz, htargets⟩

/-- Naming the frame pointer by its register adds no jump. -/
theorem Sequential.inline (h : o.Sequential) (fp : Temp) : (o.inline fp).Sequential :=
  ⟨h.not_jmp, h.not_bnz, h.targets⟩

end Operation

/-- The instruction of an operation behind which control goes on, or a copy. -/
inductive Instr.Sequential : Instr → Prop
  | oper {o : Operation} (proper : o.Proper) (sequential : o.Sequential) : Sequential o.instr
  | copy (dst src : Temp) : Sequential (.copy dst src)

namespace Instr.Sequential

variable {i : Instr}

/-- The machine goes straight through sequential instructions. -/
theorem straight (h : i.Sequential) : Mmix.Straight i := by
  cases h with
  | oper proper sequential =>
      exact Operation.straight_instr proper.toReadable sequential.not_jmp sequential.not_bnz
  | copy dst src => exact Mmix.straight_copy dst src

/-- A sequential instruction sets no label. -/
theorem label?_eq_none (h : i.Sequential) : i.label? = none := by
  cases h <;> rfl

end Instr.Sequential

namespace Select

/-- Instructions for which the supply went from `first` to `last`. -/
structure Emits (first last : Nat) (is : List Instr) : Prop where
  le : first ≤ last
  sequential : ∀ i ∈ is, i.Sequential
  /-- They mention nothing that is still in the supply. -/
  below : ∀ i ∈ is, ∀ t ∈ i.operands, t.number < last
  /-- They write what was in the supply. -/
  fresh : ∀ i ∈ is, ∀ t ∈ i.defs, first ≤ t.number

namespace Emits

variable {first mid last : Nat} {is js : List Instr}

/-- No instructions may leave some of the supply unused. -/
theorem nil (h : first ≤ last) : Emits first last [] where
  le := h
  sequential := nofun
  below := nofun
  fresh := nofun

/-- Lists that are joined have joined supplies. -/
theorem append (his : Emits first mid is) (hjs : Emits mid last js) :
    Emits first last (is ++ js) where
  le := Nat.le_trans his.le hjs.le
  sequential := fun i hi => (List.mem_append.mp hi).elim (his.sequential i) (hjs.sequential i)
  below := by
    intro i hi t ht
    rcases List.mem_append.mp hi with hi | hi
    · exact Nat.lt_of_lt_of_le (his.below i hi t ht) hjs.le
    · exact hjs.below i hi t ht
  fresh := by
    intro i hi t ht
    rcases List.mem_append.mp hi with hi | hi
    · exact his.fresh i hi t ht
    · exact Nat.le_trans his.le (hjs.fresh i hi t ht)

/-- Instructions that all write the same part of the supply. -/
theorem of_forall (hle : first ≤ last) (h : ∀ i ∈ is, Emits first last [i]) :
    Emits first last is where
  le := hle
  sequential := fun i hi => (h i hi).sequential i (List.mem_singleton_self i)
  below := fun i hi => (h i hi).below i (List.mem_singleton_self i)
  fresh := fun i hi => (h i hi).fresh i (List.mem_singleton_self i)

/-- An instruction with fresh destinations is a list of its own. -/
theorem singleton {i : Instr} (hle : first ≤ last) (hi : i.Sequential)
    (huses : ∀ t ∈ i.uses, t.number < last)
    (hdefs : ∀ t ∈ i.defs, first ≤ t.number ∧ t.number < last) : Emits first last [i] where
  le := hle
  sequential := fun j hj => List.mem_singleton.mp hj ▸ hi
  below := by
    intro j hj t ht
    cases List.mem_singleton.mp hj
    exact (List.mem_append.mp ht).elim (huses t) fun ht => (hdefs t ht).2
  fresh := by
    intro j hj t ht
    cases List.mem_singleton.mp hj
    exact (hdefs t ht).1

end Emits

variable {fp t : Temp} {s rest : Supply} {is : List Instr} {first : Nat}

/-- What is emitted for an operation on temporaries below the supply. -/
theorem emits_emit {o : Operation} {i : Instr} (h : emit fp o s = .ok i rest) (ho : o.Proper)
    (hseq : o.Sequential) (hle : first ≤ s.next) (huses : ∀ t ∈ o.uses, t.number < s.next)
    (hdefs : ∀ t ∈ o.defs, first ≤ t.number ∧ t.number < s.next) :
    Emits first s.next [i] ∧ rest = s := by
  obtain ⟨hfp, rfl, rfl⟩ := (emit_eq_ok ho.toPlain).mp h
  refine ⟨Emits.singleton hle (.oper (ho.inline hfp) (hseq.inline fp)) ?_ ?_, rfl⟩
  · intro t ht
    have ht : t ∈ (o.inline fp).uses := ht
    rw [Operation.uses_inline hfp] at ht
    exact huses t (List.mem_of_mem_filter ht)
  · intro t ht
    have ht : t ∈ (o.inline fp).defs := ht
    rw [Operation.defs_inline] at ht
    exact hdefs t ht

/-- Each operation that loads a constant writes its destination only. -/
theorem emits_loadConstant {dst : Temp} {last : Nat} (hfirst : first ≤ dst.number)
    (hlast : dst.number < last) {v : UInt64} {i : Instr}
    (hi : i ∈ (Operation.loadConstant dst v).map Operation.instr) : Emits first last [i] := by
  have hle : first ≤ last := Nat.le_trans hfirst (Nat.le_of_lt hlast)
  have hdst : ∀ t ∈ [dst], first ≤ t.number ∧ t.number < last := by
    intro t ht
    cases List.mem_singleton.mp ht
    exact ⟨hfirst, hlast⟩
  obtain ⟨o, ho, rfl⟩ := List.mem_map.mp hi
  obtain ⟨group, n, hn, rfl | rfl⟩ := Operation.packs_of_mem_loadConstant dst ho
  · exact .singleton hle
      (.oper (Operation.proper_set group hn) (Operation.sequential_of rfl rfl rfl)) nofun hdst
  · exact .singleton hle
      (.oper (Operation.proper_inc group hn) (Operation.sequential_of rfl rfl rfl))
      (fun t ht => (hdst t ht).2) hdst

/-- The instructions of a constant write a fresh temporary. -/
theorem emits_constant {value : Int64} (h : constant fp value s = .ok (is, t) rest) :
    Emits s.next rest.next is ∧ t.number < rest.next := by
  obtain ⟨-, rfl, h⟩ := constant_eq_ok.mp h
  have hle : s.next ≤ s.next + 1 := Nat.le_succ _
  split at h
  · obtain ⟨i, hi, rfl⟩ := h
    obtain ⟨hneg, rfl⟩ :=
      emits_emit hi Operation.proper_negate (Operation.sequential_of rfl rfl rfl) hle
      (by simp [Operation.negate, Operation.uses, Operand.read?])
      (by simp [Operation.negate, Operation.defs, Operand.write?])
    refine ⟨.of_forall hle fun j hj => ?_, Nat.lt_succ_self _⟩
    rcases List.mem_append.mp hj with hj | hj
    · exact emits_loadConstant (Nat.le_refl _) (Nat.lt_succ_self _) hj
    · exact List.mem_singleton.mp hj ▸ hneg
  · obtain ⟨rfl, rfl⟩ := h
    exact ⟨.of_forall hle fun j hj => emits_loadConstant (Nat.le_refl _) (Nat.lt_succ_self _) hj,
      Nat.lt_succ_self _⟩

/-- A copy writes its destination. -/
theorem emits_emitCopy {dst src : Temp} {i : Instr} (h : emitCopy fp dst src s = .ok i rest)
    (hfirst : first ≤ dst.number) (hdst : dst.number < s.next) (hsrc : src.number < s.next) :
    Emits first s.next [i] ∧ rest = s := by
  obtain ⟨-, rfl, hrest⟩ := emitCopy_eq_ok.mp h
  have hle : first ≤ s.next := Nat.le_trans hfirst (Nat.le_of_lt hdst)
  have hdefs : ∀ t ∈ [dst], first ≤ t.number ∧ t.number < s.next := by
    intro t ht
    cases List.mem_singleton.mp ht
    exact ⟨hfirst, hdst⟩
  refine ⟨?_, hrest⟩
  split
  · exact .singleton hle
      (.oper Operation.proper_copyFramePointer (Operation.sequential_of rfl rfl rfl)) nofun hdefs
  · refine .singleton hle (.copy dst src) (fun t ht => ?_) hdefs
    cases List.mem_singleton.mp ht
    exact hsrc

/-- An operation with a small number writes a fresh temporary. -/
theorem emits_applyShortcut {lhs : Temp} {sc : Shortcut}
    (hsc : ∀ m n, sc = .number m n → m ∈ [.add, .sub, .mul, .div] ∧ n < UInt8.size)
    (h : applyShortcut fp lhs sc s = .ok (is, t) rest) (hlhs : lhs.number < s.next) :
    Emits s.next rest.next is ∧ t.number < rest.next := by
  have hle : s.next ≤ s.next + 1 := Nat.le_succ _
  have hlhs : lhs.number < s.next + 1 := Nat.lt_succ_of_lt hlhs
  cases sc with
  | same =>
      obtain ⟨-, rfl, i, hi, rfl⟩ := applyShortcut_same_eq_ok.mp h
      obtain ⟨hcopy, rfl⟩ := emits_emitCopy hi (Nat.le_refl _) (Nat.lt_succ_self _) hlhs
      exact ⟨hcopy, Nat.lt_succ_self _⟩
  | number m n =>
      have hm : m.commas = 2 ∧ m.namesLabel = false ∧ m ≠ .jmp ∧ m ≠ .bnz := by
        have hmem := (hsc m n rfl).1
        simp only [List.mem_cons, List.not_mem_nil, or_false] at hmem
        rcases hmem with rfl | rfl | rfl | rfl <;> decide
      obtain ⟨-, rfl, i, hi, rfl⟩ := applyShortcut_number_eq_ok.mp h
      obtain ⟨hop, rfl⟩ := emits_emit hi
        (Operation.proper_combineNumber hm.1 hm.2.1 (hsc m n rfl).2) ⟨hm.2.2.1, hm.2.2.2, rfl⟩ hle
        (by simpa [Operation.combineNumber, Operation.uses, Operand.read?] using hlhs)
        (by simp [Operation.combineNumber, Operation.defs, Operand.write?])
      exact ⟨hop, Nat.lt_succ_self _⟩

/-- A load with an offset writes a fresh temporary. -/
theorem emits_loadAt {base : Temp} {offset : Int} (h : loadAt fp base offset s = .ok (is, t) rest)
    (hnarrow : offset.natAbs < UInt8.size) (hbase : base.number < s.next) :
    Emits s.next rest.next is ∧ t.number < rest.next := by
  have hle : s.next ≤ s.next + 1 := Nat.le_succ _
  have hbase : base.number < s.next + 1 := Nat.lt_succ_of_lt hbase
  obtain ⟨-, rfl, h⟩ := loadAt_eq_ok.mp h
  split at h
  · obtain ⟨i, hi, rfl⟩ := h
    obtain ⟨hload, rfl⟩ := emits_emit hi (Operation.proper_load (by omega))
      (Operation.sequential_of rfl rfl rfl) hle
      (by simpa [Operation.load, Operation.uses, Operand.read?] using hbase)
      (by simp [Operation.load, Operation.defs, Operand.write?])
    exact ⟨hload, Nat.lt_succ_self _⟩
  · obtain ⟨i, mid, j, hi, hj, rfl⟩ := h
    obtain ⟨hsub, rfl⟩ := emits_emit hi (Operation.proper_combineNumber rfl rfl (by omega))
      (Operation.sequential_of rfl rfl rfl) hle
      (by simpa [Operation.combineNumber, Operation.uses, Operand.read?] using hbase)
      (by simp [Operation.combineNumber, Operation.defs, Operand.write?])
    obtain ⟨hload, rfl⟩ := emits_emit hj (Operation.proper_load (by decide))
      (Operation.sequential_of rfl rfl rfl) hle
      (by simp [Operation.load, Operation.uses, Operand.read?])
      (by simp [Operation.load, Operation.defs, Operand.write?])
    -- Both operations write the one new temporary, so they do not join like lists do.
    refine ⟨.of_forall hle fun k hk => ?_, Nat.lt_succ_self _⟩
    rcases List.mem_cons.mp hk with rfl | hk
    · exact hsub
    · exact List.mem_singleton.mp hk ▸ hload

/-- Storing an argument writes at most a fresh temporary for the offset. -/
theorem emits_storeArg {value : Temp} {index : Nat} (h : storeArg fp value index s = .ok is rest)
    (hvalue : value.number < s.next) : Emits s.next rest.next is := by
  replace h := storeArg_eq_ok.mp h
  split at h
  · next hsmall =>
    obtain ⟨i, hi, rfl⟩ := h
    obtain ⟨hstore, rfl⟩ := emits_emit hi
      (Operation.proper_storeArg (narrow_of_le_maxImmediate hsmall))
      (Operation.sequential_of rfl rfl rfl) (Nat.le_refl _)
      (by simpa [Operation.storeArg, Operation.uses, Operand.read?] using hvalue)
      (by simp [Operation.storeArg, Operation.defs, Operand.write?])
    exact hstore
  · obtain ⟨-, i, hi, rfl⟩ := h
    have hle : s.next ≤ s.next + 1 := Nat.le_succ _
    have hvalue : value.number < s.next + 1 := Nat.lt_succ_of_lt hvalue
    obtain ⟨hstore, rfl⟩ :=
      emits_emit hi Operation.proper_storeArgAt (Operation.sequential_of rfl rfl rfl) hle
      (by simpa [Operation.storeArgAt, Operation.uses, Operand.read?] using hvalue)
      (by simp [Operation.storeArgAt, Operation.defs, Operand.write?])
    refine .of_forall hle fun k hk => ?_
    rcases List.mem_append.mp hk with hk | hk
    · exact emits_loadConstant (Nat.le_refl _) (Nat.lt_succ_self _) hk
    · exact List.mem_singleton.mp hk ▸ hstore

/-- The operations of a binary operator read its operands and write its destination. -/
theorem mem_binaryOperations {op : BinaryOp} {dst lhs rhs : Temp} {o : Operation}
    (h : o ∈ binaryOperations op dst lhs rhs) :
    o.Proper ∧ o.Sequential ∧ (∀ t ∈ o.uses, t = dst ∨ t = lhs ∨ t = rhs) ∧ o.defs = [dst] := by
  have hcombine : ∀ m o, o ∈ [Operation.combine m dst lhs rhs] → m.commas = 2 →
      m.namesLabel = false → (m == .jmp) = false → (m == .bnz) = false → o.Proper ∧
        o.Sequential ∧ (∀ t ∈ o.uses, t = dst ∨ t = lhs ∨ t = rhs) ∧ o.defs = [dst] := by
    intro m o ho hcommas hlabel hjmp hbnz
    cases List.mem_singleton.mp ho
    refine ⟨Operation.proper_combine hcommas hlabel, Operation.sequential_of hjmp hbnz rfl, ?_, rfl⟩
    intro t ht
    have ht : t ∈ [lhs, rhs] := ht
    simpa using Or.inr ht
  have hcompare : ∀ cond o, o ∈ comparison cond dst lhs rhs → o.Proper ∧ o.Sequential ∧
      (∀ t ∈ o.uses, t = dst ∨ t = lhs ∨ t = rhs) ∧ o.defs = [dst] := by
    intro cond o ho
    rcases List.mem_cons.mp ho with rfl | ho
    · exact hcombine .cmp _ (List.mem_singleton_self _) rfl rfl rfl rfl
    · cases List.mem_singleton.mp ho
      refine ⟨Operation.proper_test cond, Operation.sequential_of rfl rfl rfl, ?_, rfl⟩
      simp [Operation.test, Operation.uses, Operand.read?]
  -- Only `mod` and the comparisons take two operations.
  cases op with
  | mod =>
      rcases List.mem_cons.mp h with rfl | h
      · exact hcombine .div _ (List.mem_singleton_self _) rfl rfl rfl rfl
      · cases List.mem_singleton.mp h
        exact ⟨Operation.proper_getRemainder, Operation.sequential_of rfl rfl rfl,
          List.forall_mem_nil _, rfl⟩
  | add | sub | mul | div | and | or => exact hcombine _ _ h rfl rfl rfl rfl
  | eq | ne | lt | gt | le | ge => exact hcompare _ _ h

/-- The operations of a binary operator draw nothing from the supply. -/
theorem emits_binaryOperations {op : BinaryOp} {lhs rhs : Temp}
    (h : (binaryOperations op t lhs rhs).mapM (emit fp) s = .ok is rest) (hle : first ≤ s.next)
    (hfirst : first ≤ t.number) (ht : t.number < s.next) (hlhs : lhs.number < s.next)
    (hrhs : rhs.number < s.next) : Emits first s.next is ∧ rest = s := by
  obtain ⟨rfl, hrest, hemit⟩ :=
    emit_of_mapM_eq_ok (fun o ho => (mem_binaryOperations ho).1.toPlain) h
  refine ⟨.of_forall hle fun i hi => ?_, hrest⟩
  obtain ⟨o, ho, rfl⟩ := List.mem_map.mp hi
  obtain ⟨hproper, hseq, huses, hdefs⟩ := mem_binaryOperations ho
  refine (emits_emit (hemit o ho) hproper hseq hle (fun u hu => ?_) ?_).1
  · rcases huses u hu with rfl | rfl | rfl
    · exact ht
    · exact hlhs
    · exact hrhs
  · simpa [hdefs] using ⟨hfirst, ht⟩

/-! ### Expressions -/

/-- What is selected for an expression whose temporaries are below the supply. -/
def EmitsValue (fp : Temp) (e : Expr) : Prop :=
  ∀ ⦃s rest : Supply⦄ ⦃is : List Instr⦄ ⦃t : Temp⦄, (∀ l ∈ e.labels, l.Plain) →
    (∀ u ∈ e.temps, u.number < s.next) → expr fp e s = .ok (is, t) rest →
      Emits s.next rest.next is ∧ t.number < rest.next

/-- What is selected for arguments whose temporaries are below the supply. -/
def EmitsArgs (fp : Temp) (index : Nat) (es : List Expr) : Prop :=
  ∀ ⦃s rest : Supply⦄ ⦃is : List Instr⦄, (∀ l ∈ Expr.argLabels es, l.Plain) →
    (∀ u ∈ Expr.argTemps es, u.number < s.next) → args fp index es s = .ok is rest →
      Emits s.next rest.next is

/-- The case of binary operators, with and without a constant on the right. -/
theorem emits_binary {op : BinaryOp} {lhs rhs : Expr} (hlhs : EmitsValue fp lhs)
    (hrhs : EmitsValue fp rhs) : EmitsValue fp (.binary op lhs rhs) := by
  intro s rest is t hlabels htemps h
  rw [Expr.labels, List.forall_mem_append] at hlabels
  rw [Expr.temps, List.forall_mem_append] at htemps
  obtain ⟨is, left, mid, hleft, h⟩ := expr_binary_eq_ok.mp h
  obtain ⟨his, hleft⟩ := hlhs hlabels.1 htemps.1 hleft
  rcases h with ⟨sc, js, hsc, hjs, rfl⟩ | ⟨js, right, next, ks, -, hright, -, rfl, hks, rfl⟩
  · obtain ⟨hjs, ht⟩ := emits_applyShortcut (mem_of_operandShortcut? hsc) hjs hleft
    exact ⟨his.append hjs, ht⟩
  · obtain ⟨hjs, hright⟩ := hrhs hlabels.2
      (fun u hu => Nat.lt_of_lt_of_le (htemps.2 u hu) his.le) hright
    obtain ⟨hops, rfl⟩ := emits_binaryOperations hks (Nat.le_succ next.next) (Nat.le_refl _)
      (Nat.lt_succ_self _) (Nat.lt_succ_of_lt (Nat.lt_of_lt_of_le hleft hjs.le))
      (Nat.lt_succ_of_lt hright)
    exact ⟨(his.append hjs).append hops, Nat.lt_succ_self _⟩

/-- The case of calls. -/
theorem emits_call {l : Label} {es : List Expr} (hes : EmitsArgs fp 0 es) :
    EmitsValue fp (.call l es) := by
  intro s rest is t hlabels htemps h
  rw [Expr.labels, List.forall_mem_cons] at hlabels
  obtain ⟨is, mid, i, next, j, his, hi, -, rfl, hj, rfl⟩ := expr_call_eq_ok.mp h
  obtain ⟨hcall, rfl⟩ :=
    emits_emit hi (Operation.proper_call hlabels.1) (Operation.sequential_of rfl rfl rfl)
    (Nat.le_refl _) nofun nofun
  obtain ⟨hload, rfl⟩ :=
    emits_emit hj Operation.proper_loadResult (Operation.sequential_of rfl rfl rfl)
    (Nat.le_succ _) nofun (by simp [Operation.loadResult, Operation.defs, Operand.write?])
  exact ⟨(hes hlabels.2 htemps his).append (hcall.append hload), Nat.lt_succ_self _⟩

/-- The case of unary operators. -/
theorem emits_unary {op : UnaryOp} {e : Expr} (he : EmitsValue fp e) :
    EmitsValue fp (.unary op e) := by
  intro s rest is t hlabels htemps h
  obtain ⟨is, src, mid, i, his, -, rfl, hi, rfl⟩ := expr_unary_eq_ok.mp h
  obtain ⟨his, hsrc⟩ := he hlabels htemps his
  have hsrc : src.number < mid.next + 1 := Nat.lt_succ_of_lt hsrc
  obtain ⟨hop, rfl⟩ : Emits mid.next (mid.next + 1) [i] ∧ rest = ⟨mid.next + 1⟩ := by
    cases op with
    | neg =>
        exact emits_emit hi Operation.proper_negate (Operation.sequential_of rfl rfl rfl)
          (Nat.le_succ _)
          (by simpa [unaryOperation, Operation.negate, Operation.uses, Operand.read?] using hsrc)
          (by simp [unaryOperation, Operation.negate, Operation.defs, Operand.write?])
    | not =>
        exact emits_emit hi (Operation.proper_test .zero) (Operation.sequential_of rfl rfl rfl)
          (Nat.le_succ _)
          (by simpa [unaryOperation, Operation.test, Operation.uses, Operand.read?] using hsrc)
          (by simp [unaryOperation, Operation.test, Operation.defs, Operand.write?])
  exact ⟨his.append hop, Nat.lt_succ_self _⟩

/-- Expressions and arguments together, along their recursion. -/
theorem emits_mutual (fp : Temp) :
    (∀ e, EmitsValue fp e) ∧ ∀ index es, EmitsArgs fp index es := by
  refine expr_induct ?const ?address ?temp ?mem (fun op e => emits_unary)
    (fun op lhs rhs => emits_binary) (fun l es => emits_call) ?nil ?cons
  case const =>
    intro value s rest is t _ _ h
    rw [expr] at h
    exact emits_constant h
  case address =>
    intro l s rest is t hlabels _ h
    obtain ⟨-, rfl, i, hi, rfl⟩ := expr_address_eq_ok.mp h
    obtain ⟨hload, rfl⟩ := emits_emit hi
      (Operation.proper_loadAddress (hlabels l (List.mem_singleton_self l)))
      (Operation.sequential_of rfl rfl rfl) (Nat.le_succ s.next) (List.forall_mem_nil _)
      (by simp [Operation.loadAddress, Operation.defs, Operand.write?])
    exact ⟨hload, Nat.lt_succ_self _⟩
  case temp =>
    intro t s rest is u _ htemps h
    obtain ⟨rfl, rfl, rfl⟩ := expr_temp_eq_ok.mp h
    exact ⟨.nil (Nat.le_refl _), htemps u (List.mem_singleton_self u)⟩
  case mem =>
    intro addr ih s rest is t hlabels htemps h
    obtain ⟨is, base, mid, js, hbase, hload, rfl⟩ := expr_mem_eq_ok.mp h
    -- Folding takes only a constant away, so what `addr` promises still holds.
    have hdisplaced := displaced_folded addr
    obtain ⟨his, hbelow⟩ := ih (fun l hl => hlabels l (hdisplaced.labels l hl))
      (fun u hu => htemps u (hdisplaced.temps u hu)) hbase
    obtain ⟨hjs, ht⟩ := emits_loadAt hload hdisplaced.narrow hbelow
    exact ⟨his.append hjs, ht⟩
  case nil =>
    intro index s rest is _ _ h
    obtain ⟨rfl, rfl⟩ := args_nil_eq_ok.mp h
    exact .nil (Nat.le_refl _)
  case cons =>
    intro index e es ihe ihes s rest is hlabels htemps h
    rw [Expr.argLabels, List.forall_mem_append] at hlabels
    rw [Expr.argTemps, List.forall_mem_append] at htemps
    obtain ⟨is, value, mid, js, next, ks, his, hjs, hks, rfl⟩ := args_cons_eq_ok.mp h
    obtain ⟨his, hvalue⟩ := ihe hlabels.1 htemps.1 his
    have hjs := emits_storeArg hjs hvalue
    have hks := ihes hlabels.2
      (fun u hu => Nat.lt_of_lt_of_le (htemps.2 u hu) (Nat.le_trans his.le hjs.le)) hks
    exact (his.append hjs).append hks

/-- The instructions of an expression are sequential, and write fresh temporaries only. -/
theorem emits_expr {e : Expr} (hlabels : ∀ l ∈ e.labels, l.Plain)
    (htemps : ∀ u ∈ e.temps, u.number < s.next) (h : expr fp e s = .ok (is, t) rest) :
    Emits s.next rest.next is ∧ t.number < rest.next :=
  (emits_mutual fp).1 e hlabels htemps h

/-- The instructions of arguments are sequential, and write fresh temporaries only. -/
theorem emits_args {index : Nat} {es : List Expr} (hlabels : ∀ l ∈ Expr.argLabels es, l.Plain)
    (htemps : ∀ u ∈ Expr.argTemps es, u.number < s.next) (h : args fp index es s = .ok is rest) :
    Emits s.next rest.next is :=
  (emits_mutual fp).2 index es hlabels htemps h

end Select

end MmixCodegen
