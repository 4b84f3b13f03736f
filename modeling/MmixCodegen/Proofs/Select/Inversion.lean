import MmixCodegen.Select
import MmixCodegen.Proofs.Mmix.Word
import MmixCodegen.Proofs.Select.Emit

/-!
# `MmixCodegen.Proofs.Select.Inversion`: what a selection is made of

When selection succeeds, the instructions are put together from those of the parts, and the
supply has passed through the parts in order. There is one equation for each function that
selects instructions, from `constant_eq_ok` to `stmts_cons_eq_ok`, so that what is proved about
selected code does not have to take these functions apart again.

The address of a load or a store is treated in one way in both: a small constant that is added
or subtracted becomes an offset. `folded` is the base and the offset, `expr_mem` and `address_eq`
say that selection goes on with them, and `displaced_folded` that they make up the address.
`expr_induct` is the recursion of `expr` and `args` with loads as one case.
-/

set_option autoImplicit false

namespace MmixCodegen

namespace Select

variable {fp t : Temp} {s rest : Supply} {is : List Instr}

/-! ### Values -/

/-- A constant is loaded into a fresh temporary. One whose negation is small is loaded negated,
and negated again. -/
theorem constant_eq_ok {value : Int64} : constant fp value s = .ok (is, t) rest ↔
    s.next < Supply.limit ∧ t = ⟨s.next⟩ ∧
      if isImmediate (-value.toInt) then
        ∃ i, emit fp (.negate t t) ⟨s.next + 1⟩ = .ok i rest ∧
          is = (Operation.loadConstant t (-value).toUInt64).map Operation.instr ++ [i]
      else is = (Operation.loadConstant t value.toUInt64).map Operation.instr ∧
        rest = ⟨s.next + 1⟩ := by
  rw [constant, fresh_bind_eq_ok]
  split
  · simp only [bind_eq_ok, pure_eq_ok, Prod.mk.injEq]
    grind
  · simp only [pure_eq_ok, Prod.mk.injEq]
    grind

/-- An operator that changes nothing becomes a copy into a fresh temporary. -/
theorem applyShortcut_same_eq_ok {lhs : Temp} : applyShortcut fp lhs .same s = .ok (is, t) rest ↔
    s.next < Supply.limit ∧ t = ⟨s.next⟩ ∧
      ∃ i, emitCopy fp t lhs ⟨s.next + 1⟩ = .ok i rest ∧ is = [i] := by
  rw [applyShortcut, fresh_bind_eq_ok]
  simp only [bind_eq_ok, pure_eq_ok, Prod.mk.injEq]
  grind

/-- An operator with a small constant becomes one operation with the number in it. -/
theorem applyShortcut_number_eq_ok {lhs : Temp} {m : Mnemonic} {n : Nat} :
    applyShortcut fp lhs (.number m n) s = .ok (is, t) rest ↔
      s.next < Supply.limit ∧ t = ⟨s.next⟩ ∧
        ∃ i, emit fp (.combineNumber m t lhs n) ⟨s.next + 1⟩ = .ok i rest ∧ is = [i] := by
  rw [applyShortcut, fresh_bind_eq_ok]
  simp only [bind_eq_ok, pure_eq_ok, Prod.mk.injEq]
  grind

/-- A load with a negative offset subtracts first, since offsets in operations are not negative. -/
theorem loadAt_eq_ok {base : Temp} {offset : Int} : loadAt fp base offset s = .ok (is, t) rest ↔
    s.next < Supply.limit ∧ t = ⟨s.next⟩ ∧
      if 0 ≤ offset then
        ∃ i, emit fp (.load t base offset.toNat) ⟨s.next + 1⟩ = .ok i rest ∧ is = [i]
      else ∃ i mid j,
        emit fp (.combineNumber .sub t base (-offset).toNat) ⟨s.next + 1⟩ = .ok i mid ∧
          emit fp (.load t t 0) mid = .ok j rest ∧ is = [i, j] := by
  rw [loadAt, fresh_bind_eq_ok]
  split
  · simp only [bind_eq_ok, pure_eq_ok, Prod.mk.injEq]
    grind
  · simp only [bind_eq_ok, pure_eq_ok, Prod.mk.injEq]
    grind

/-- An argument is stored at a number if that is small, and otherwise at an offset that is
loaded first. -/
theorem storeArg_eq_ok {value : Temp} {index : Nat} : storeArg fp value index s = .ok is rest ↔
    if 8 * index ≤ maxImmediate then
      ∃ i, emit fp (.storeArg value (8 * index)) s = .ok i rest ∧ is = [i]
    else s.next < Supply.limit ∧
      ∃ i, emit fp (.storeArgAt value ⟨s.next⟩) ⟨s.next + 1⟩ = .ok i rest ∧
        is = (Operation.loadConstant ⟨s.next⟩ (UInt64.ofNat (8 * index))).map Operation.instr ++
          [i] := by
  rw [storeArg]
  split
  · simp only [bind_eq_ok, pure_eq_ok]
    grind
  · rw [fresh_bind_eq_ok]
    simp only [bind_eq_ok, pure_eq_ok]
    grind

/-! ### Addresses -/

/-- The base of an address, and the offset from it that a load or a store takes. -/
def folded : Expr → Expr × Int
  | .binary op base (.const value) =>
      match offset? op value with
      | some offset => (base, offset)
      | none => (.binary op base (.const value), 0)
  | addr => (addr, 0)

/-- An address is its base, or it has a constant offset. -/
theorem folded_cases (addr : Expr) : folded addr = (addr, 0) ∨
    ∃ op base value offset, addr = .binary op base (.const value) ∧
      offset? op value = some offset ∧ folded addr = (base, offset) := by
  unfold folded
  split
  · next op base value =>
      split
      · next offset hoffset => exact .inr ⟨op, base, value, offset, rfl, hoffset, rfl⟩
      · exact .inl rfl
  · exact .inl rfl

/-- Selecting an address selects its base, and keeps the offset aside. -/
theorem address_eq (fp : Temp) (addr : Expr) : address fp addr = (do
    let v ← expr fp (folded addr).1
    return (v, (folded addr).2) : Select (Value × Int)) := by
  unfold folded
  split
  · next op base value =>
      cases hoffset : offset? op value with
      | some offset => simp only [address, hoffset]
      | none => simp only [address, hoffset]
  · next hnot =>
      rw [address]
      exact hnot

/-- A load selects the base of its address, and loads with the offset. -/
theorem expr_mem (fp : Temp) (addr : Expr) : expr fp (.mem addr) = (do
    let v ← expr fp (folded addr).1
    let u ← loadAt fp v.2 (folded addr).2
    return (v.1 ++ u.1, u.2) : Select Value) := by
  unfold folded
  split
  · next op base value =>
      cases hoffset : offset? op value with
      | some offset => simp only [expr, hoffset]
      | none => simp only [expr, hoffset]
  · next hnot =>
      rw [expr]
      exact hnot

/-- The address is the value of `base` with an offset. -/
structure Displaced (addr base : Expr) (offset : Int) : Prop where
  labels : ∀ l ∈ base.labels, l ∈ addr.labels
  temps : ∀ u ∈ base.temps, u ∈ addr.temps
  callFree : addr.callFree = true → base.callFree = true
  narrow : offset.natAbs < UInt8.size
  value : ∀ symbols temps memory,
    displace (base.eval symbols temps memory) offset = addr.eval symbols temps memory

/-- The base and the offset that an address is folded to make up the address. -/
theorem displaced_folded (addr : Expr) : Displaced addr (folded addr).1 (folded addr).2 := by
  obtain hfolded | ⟨op, base, value, offset, rfl, hoffset, hfolded⟩ := folded_cases addr
  · rw [hfolded]
    exact ⟨fun _ => id, fun _ => id, id, Nat.succ_pos 255, fun _ _ _ => displace_zero _⟩
  · rw [hfolded]
    exact ⟨fun _ => List.mem_append_left _, fun _ => List.mem_append_left _,
      fun hcalls => (Bool.and_eq_true_iff.mp hcalls).1, natAbs_of_offset? hoffset,
      fun _ _ _ => displace_of_offset? hoffset _⟩

/-! ### Expressions -/

/-- The recursion of selection. A load selects the base of its address. -/
theorem expr_induct {P : Expr → Prop} {Q : Nat → List Expr → Prop} (const : ∀ v, P (.const v))
    (address : ∀ l, P (.address l)) (temp : ∀ t, P (.temp t))
    (mem : ∀ addr, P (folded addr).1 → P (.mem addr)) (unary : ∀ op e, P e → P (.unary op e))
    (binary : ∀ op lhs rhs, P lhs → P rhs → P (.binary op lhs rhs))
    (call : ∀ l es, Q 0 es → P (.call l es)) (nil : ∀ index, Q index [])
    (cons : ∀ index e es, P e → Q (index + 1) es → Q index (e :: es)) :
    (∀ e, P e) ∧ ∀ index es, Q index es := by
  refine expr.mutual_induct P Q const address temp ?memOffset ?memBinary ?mem unary binary call nil
    cons
  case memOffset =>
    intro op base value offset hoffset ih
    exact mem _ (by simpa only [folded, hoffset] using ih)
  case memBinary =>
    intro op base value hoffset ih
    exact mem _ (by simpa only [folded, hoffset] using ih)
  case mem =>
    intro addr hnot ih
    obtain hfolded | ⟨op, base, value, _, haddr, _⟩ := folded_cases addr
    · exact mem addr (by rwa [hfolded])
    · exact absurd haddr (hnot op base value)

/-- The address of a label is loaded into a fresh temporary. -/
theorem expr_address_eq_ok {l : Label} : expr fp (.address l) s = .ok (is, t) rest ↔
    s.next < Supply.limit ∧ t = ⟨s.next⟩ ∧
      ∃ i, emit fp (.loadAddress t l) ⟨s.next + 1⟩ = .ok i rest ∧ is = [i] := by
  rw [expr, fresh_bind_eq_ok]
  simp only [bind_eq_ok, pure_eq_ok, Prod.mk.injEq]
  grind

/-- A temporary is its own value, and takes no instructions. -/
theorem expr_temp_eq_ok {u : Temp} : expr fp (.temp u) s = .ok (is, t) rest ↔
    is = [] ∧ t = u ∧ rest = s := by
  rw [expr, pure_eq_ok, Prod.mk.injEq, and_assoc]

/-- A load consists of the base of its address and of the load itself. -/
theorem expr_mem_eq_ok {addr : Expr} : expr fp (.mem addr) s = .ok (is, t) rest ↔
    ∃ js base mid ks, expr fp (folded addr).1 s = .ok (js, base) mid ∧
      loadAt fp base (folded addr).2 mid = .ok (ks, t) rest ∧ is = js ++ ks := by
  rw [expr_mem]
  simp only [bind_eq_ok, pure_eq_ok, Prod.exists, Prod.mk.injEq]
  grind

/-- A unary operator comes behind its operand. -/
theorem expr_unary_eq_ok {op : UnaryOp} {e : Expr} : expr fp (.unary op e) s = .ok (is, t) rest ↔
    ∃ js src mid i, expr fp e s = .ok (js, src) mid ∧ mid.next < Supply.limit ∧ t = ⟨mid.next⟩ ∧
      emit fp (unaryOperation op t src) ⟨mid.next + 1⟩ = .ok i rest ∧ is = js ++ [i] := by
  rw [expr]
  simp only [bind_eq_ok, fresh_eq_ok, pure_eq_ok, Prod.exists, Prod.mk.injEq]
  grind

/-- A binary operator comes behind its left operand and, unless the right one is a constant that
can be part of the operation, behind the right one. -/
theorem expr_binary_eq_ok {op : BinaryOp} {lhs rhs : Expr} :
    expr fp (.binary op lhs rhs) s = .ok (is, t) rest ↔
      ∃ js left mid, expr fp lhs s = .ok (js, left) mid ∧
        ((∃ sc ks, operandShortcut? op rhs = some sc ∧
            applyShortcut fp left sc mid = .ok (ks, t) rest ∧ is = js ++ ks) ∨
          ∃ ks right next ls, operandShortcut? op rhs = none ∧
            expr fp rhs mid = .ok (ks, right) next ∧ next.next < Supply.limit ∧ t = ⟨next.next⟩ ∧
              (binaryOperations op t left right).mapM (emit fp) ⟨next.next + 1⟩ = .ok ls rest ∧
                is = js ++ ks ++ ls) := by
  rw [expr]
  cases hsc : operandShortcut? op rhs with
  | some sc =>
      simp only [bind_eq_ok, pure_eq_ok, Prod.exists, Prod.mk.injEq]
      grind
  | none =>
      simp only [bind_eq_ok, fresh_eq_ok, pure_eq_ok, Prod.exists, Prod.mk.injEq]
      grind

/-- The mnemonic of a shortcut is that of an arithmetic operation, and its number
fits into a byte. -/
theorem mem_of_shortcut?_eq_number {op : BinaryOp} {value : Int64} {m : Mnemonic} {n : Nat}
    (h : shortcut? op value = some (.number m n)) :
    m ∈ [.add, .sub, .mul, .div] ∧ n < UInt8.size := by
  have hpos : ∀ c, isImmediate c = true → c.toNat < UInt8.size := by
    intro c hc
    have hle := (isImmediate_iff.mp hc).2
    simp only [UInt8.size]
    omega
  cases op <;> simp only [shortcut?] at h <;> grind

/-- Only a constant operand has a shortcut. -/
theorem exists_const_of_operandShortcut? {op : BinaryOp} {rhs : Expr} {sc : Shortcut}
    (h : operandShortcut? op rhs = some sc) :
    ∃ value, rhs = .const value ∧ shortcut? op value = some sc := by
  cases rhs with
  | const value => exact ⟨value, rfl, h⟩
  | _ => cases h

/-- The shortcut for an operand has one of four mnemonics, and a number of eight bits. -/
theorem mem_of_operandShortcut? {op : BinaryOp} {rhs : Expr} {sc : Shortcut}
    (h : operandShortcut? op rhs = some sc) :
    ∀ m n, sc = .number m n → m ∈ [.add, .sub, .mul, .div] ∧ n < UInt8.size := by
  rintro m n rfl
  obtain ⟨value, rfl, hvalue⟩ := exists_const_of_operandShortcut? h
  exact mem_of_shortcut?_eq_number hvalue

/-- A call consists of its arguments, the call itself, and a load of what it returned. -/
theorem expr_call_eq_ok {l : Label} {es : List Expr} :
    expr fp (.call l es) s = .ok (is, t) rest ↔
      ∃ js mid i next j, args fp 0 es s = .ok js mid ∧ emit fp (.call l) mid = .ok i next ∧
        next.next < Supply.limit ∧ t = ⟨next.next⟩ ∧
          emit fp (.loadResult t) ⟨next.next + 1⟩ = .ok j rest ∧ is = js ++ [i, j] := by
  rw [expr]
  simp only [bind_eq_ok, fresh_eq_ok, pure_eq_ok, Prod.mk.injEq]
  grind

/-- No arguments take no instructions. -/
theorem args_nil_eq_ok {index : Nat} : args fp index [] s = .ok is rest ↔ is = [] ∧ rest = s := by
  rw [args, pure_eq_ok]

/-- An argument is computed and stored before the next one is looked at. -/
theorem args_cons_eq_ok {index : Nat} {e : Expr} {es : List Expr} :
    args fp index (e :: es) s = .ok is rest ↔
      ∃ js value mid ks next ls, expr fp e s = .ok (js, value) mid ∧
        storeArg fp value index mid = .ok ks next ∧ args fp (index + 1) es next = .ok ls rest ∧
          is = js ++ ks ++ ls := by
  rw [args]
  simp only [bind_eq_ok, pure_eq_ok, Prod.exists]
  grind

/-! ### Statements -/

/-- A call whose result is not needed consists of its arguments and the call. -/
theorem call_eq_ok {l : Label} {es : List Expr} : call fp l es s = .ok is rest ↔
    ∃ js mid i, args fp 0 es s = .ok js mid ∧ emit fp (.call l) mid = .ok i rest ∧
      is = js ++ [i] := by
  rw [call]
  simp only [bind_eq_ok, pure_eq_ok]
  grind

/-- An assignment either loads what a call returned right into its destination, or copies a
value. The frame pointer cannot be assigned to. -/
theorem assign_eq_ok {dst : Temp} {src : Expr} : assign fp dst src s = .ok is rest ↔ dst ≠ fp ∧
    ((∃ l es js mid i, src = .call l es ∧ call fp l es s = .ok js mid ∧
        emit fp (.loadResult dst) mid = .ok i rest ∧ is = js ++ [i]) ∨
      ∃ js value mid i, (∀ l es, src ≠ .call l es) ∧ expr fp src s = .ok (js, value) mid ∧
        emitCopy fp dst value mid = .ok i rest ∧ is = js ++ [i]) := by
  rw [assign.eq_def]
  split
  · next hdst => simp [hdst, throw_ne_ok]
  · split
    · simp only [bind_eq_ok, pure_eq_ok]
      grind
    · simp only [bind_eq_ok, pure_eq_ok, Prod.exists]
      grind

/-- A store computes the base of its address before the value. A negative offset is subtracted
in between. -/
theorem store_eq_ok {addr src : Expr} : store fp addr src s = .ok is rest ↔
    ∃ js base mid, expr fp (folded addr).1 s = .ok (js, base) mid ∧
      if 0 ≤ (folded addr).2 then
        ∃ ks value next i, expr fp src mid = .ok (ks, value) next ∧
          emit fp (.store value base (folded addr).2.toNat) next = .ok i rest ∧
            is = js ++ ks ++ [i]
      else mid.next < Supply.limit ∧ ∃ i next ks value last j,
        emit fp (.combineNumber .sub ⟨mid.next⟩ base (-(folded addr).2).toNat) ⟨mid.next + 1⟩ =
            .ok i next ∧
          expr fp src next = .ok (ks, value) last ∧
            emit fp (.store value ⟨mid.next⟩ 0) last = .ok j rest ∧
              is = js ++ [i] ++ ks ++ [j] := by
  rw [store, address_eq]
  by_cases hoffset : 0 ≤ (folded addr).2
  · simp only [bind_assoc, pure_bind, if_pos hoffset, bind_eq_ok, pure_eq_ok, Prod.exists]
    grind
  · simp only [bind_assoc, pure_bind, if_neg hoffset, bind_eq_ok, fresh_eq_ok, pure_eq_ok,
      Prod.exists]
    grind

/-- A branch comes behind its condition. -/
theorem stmt_branch_eq_ok {cond : Expr} {pos neg : Label} :
    stmt fp (.branch cond pos neg) s = .ok is rest ↔ ∃ js value mid i,
      expr fp cond s = .ok (js, value) mid ∧ emit fp (.branch value pos neg) mid = .ok i rest ∧
        is = js ++ [i] := by
  rw [stmt]
  simp only [bind_eq_ok, pure_eq_ok, Prod.exists]
  grind

/-- A jump is a single instruction. -/
theorem stmt_jump_eq_ok {target : Label} : stmt fp (.jump target) s = .ok is rest ↔
    ∃ i, emit fp (.jump target) s = .ok i rest ∧ is = [i] := by
  rw [stmt]
  simp only [bind_eq_ok, pure_eq_ok]
  grind

/-- An expression for its effects is a call without its result, or a value that is dropped. -/
theorem stmt_eval_eq_ok {e : Expr} : stmt fp (.eval e) s = .ok is rest ↔
    (∃ l es, e = .call l es ∧ call fp l es s = .ok is rest) ∨
      (∀ l es, e ≠ .call l es) ∧ ∃ t, expr fp e s = .ok (is, t) rest := by
  cases e with
  | call l es => simp [stmt]
  | _ =>
      rw [stmt]
      · simp only [bind_eq_ok, pure_eq_ok, Prod.exists]
        grind
      · rintro l es ⟨⟩

/-- Statements are selected one after the other. -/
theorem stmts_cons_eq_ok {st : Stmt} {body : List Stmt} :
    stmts fp (st :: body) s = .ok is rest ↔ ∃ js mid ks, stmt fp st s = .ok js mid ∧
      stmts fp body mid = .ok ks rest ∧ is = js ++ ks := by
  rw [stmts]
  simp only [bind_eq_ok, pure_eq_ok]
  grind

end Select

end MmixCodegen
