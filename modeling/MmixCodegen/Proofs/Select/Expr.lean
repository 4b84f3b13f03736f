import MmixCodegen.Proofs.Select.Shape

/-!
# `MmixCodegen.Proofs.Select.Expr`: what is selected for an expression computes its value

`Mmix.Core.Keeps` says that some instructions leave alone what they should: the
temporaries below the supply, the registers that operations name, and memory.
`Select.Computes` adds that a temporary ends up with a given value. There is one lemma
for each function that selects instructions, and `computes_expr` follows the recursion of
`Select.expr`: without calls, the temporary of an expression ends up with the value that
the expression has before its instructions are carried out.
-/

set_option autoImplicit false

namespace MmixCodegen

namespace Mmix

variable {E : Type} {fp : Temp} {m n : Nat} {c d e : Core E}

/-- The temporaries below `n` keep their values, and so do registers and memory. -/
structure Core.Keeps (fp : Temp) (n : Nat) (c d : Core E) : Prop where
  temps : ∀ t : Temp, t.number < n → d.get fp t = c.get fp t
  global : d.hidden.global = c.hidden.global
  memory : d.hidden.memory = c.hidden.memory

/-- Nothing changes if nothing is done. -/
theorem Core.Keeps.refl (fp : Temp) (n : Nat) (c : Core E) : c.Keeps fp n c :=
  ⟨fun _ _ => rfl, rfl, rfl⟩

/-- What is kept twice is kept, up to the lower one of the bounds. -/
theorem Core.Keeps.trans (hcd : c.Keeps fp n d) (hde : d.Keeps fp m e) (hle : n ≤ m) :
    c.Keeps fp n e where
  temps := fun t ht => (hde.temps t (Nat.lt_of_lt_of_le ht hle)).trans (hcd.temps t ht)
  global := hde.global.trans hcd.global
  memory := hde.memory.trans hcd.memory

/-- Writing a temporary that is not below `n` changes none of those that are. -/
theorem update_of_below {store : Temp → Word} {t u : Temp} (ht : n ≤ t.number) (hu : u.number < n)
    (v : Word) : Function.update store t v u = store u := by
  have hne : u ≠ t := by
    rintro rfl
    omega
  exact Function.update_of_ne hne _ _

/-- Writing a temporary that is not below `n`. -/
theorem Core.Keeps.update {t : Temp} (ht : n ≤ t.number) (v : Word) {h : Hidden E}
    (hglobal : h.global = c.hidden.global) (hmemory : h.memory = c.hidden.memory) :
    c.Keeps fp n ⟨Function.update c.store t v, h⟩ where
  temps := by
    intro u hu
    simp only [get, hglobal, update_of_below ht hu]
  global := hglobal
  memory := hmemory

/-- A temporary other than the frame pointer holds what was written to it. -/
theorem get_update {t : Temp} (ht : t ≠ fp) (v : Word) (h : Hidden E) :
    Core.get fp ⟨Function.update c.store t v, h⟩ t = v := by
  simp only [Core.get, if_neg ht, Function.update_self]

end Mmix

namespace Select

open Mmix (Core)

variable {E : Type} {w : Mmix.World E} {fp t : Temp} {n : Nat} {c : Core E} {v : Word}
  {s rest : Supply} {is js : List Instr}

/-- The instructions leave a value in a temporary and keep the rest. -/
structure Computes (w : Mmix.World E) (fp : Temp) (n : Nat) (is : List Instr) (c : Core E)
    (t : Temp) (v : Word) : Prop where
  keeps : c.Keeps fp n (Mmix.performAll w is c)
  value : (Mmix.performAll w is c).get fp t = v

/-- A value may be computed behind code that keeps what should be kept. -/
theorem Computes.append {m : Nat} (his : c.Keeps fp n (Mmix.performAll w is c))
    (hjs : Computes w fp m js (Mmix.performAll w is c) t v) (hle : n ≤ m) :
    Computes w fp n (is ++ js) c t v := by
  constructor
  · rw [Mmix.performAll_append]
    exact his.trans hjs.keeps hle
  · rw [Mmix.performAll_append]
    exact hjs.value

/-- What is emitted for an operation computes the value of the operation. -/
theorem computes_emit {o : Operation} {i : Instr} (ho : o.Proper) (hi : emit fp o s = .ok i rest)
    (hdefs : o.defs = [t]) (ht : n ≤ t.number) (hsto : (o.mnemonic == .sto) = false)
    (hpushj : (o.mnemonic == .pushj) = false) (c : Core E) :
    Computes w fp n [i] c t (Mmix.value c.hidden (((o.inline fp).uses.map c.store).headD 0)
      o.mnemonic (o.inputs w (c.get fp) c.hidden)) := by
  obtain ⟨hfp, rfl, -⟩ := (emit_eq_ok ho.toPlain).mp hi
  have hne : t ≠ fp := by
    rintro rfl
    exact hfp (hdefs ▸ List.mem_singleton_self t)
  obtain ⟨hglobal, hmemory⟩ := Mmix.effect_keeps w c.hidden (ne_of_beq_false hsto)
    (ne_of_beq_false hpushj) (o.inline fp).args (o.inputs w (c.get fp) c.hidden)
  have hperform := Operation.perform_inline ho.toReadable fp w c
  rw [hdefs] at hperform
  constructor
  · show c.Keeps fp n (Mmix.perform w (o.inline fp).instr c)
    rw [hperform]
    exact .update ht _ hglobal hmemory
  · show (Mmix.perform w (o.inline fp).instr c).get fp t = _
    rw [hperform]
    exact Mmix.get_update hne _ _

/-- What is emitted for a store replaces an octabyte. -/
theorem perform_emit_sto {o : Operation} {i : Instr} (ho : o.Proper) (hi : emit fp o s = .ok i rest)
    (hsto : o.mnemonic = .sto) (hdefs : o.defs = []) {z x y : Word}
    (hinputs : o.inputs w (c.get fp) c.hidden = [z, x, y]) :
    Mmix.perform w i c =
      ⟨c.store, { c.hidden with memory := c.hidden.memory.store (x + y) z }⟩ := by
  obtain ⟨-, rfl, -⟩ := (emit_eq_ok ho.toPlain).mp hi
  rw [Operation.perform_inline ho.toReadable, hdefs, hinputs, hsto]
  rfl

/-- Loading a constant leaves it in the destination. -/
theorem computes_loadConstant (hne : t ≠ fp) (ht : n ≤ t.number) (v : Word) :
    Computes w fp n ((Operation.loadConstant t v).map Operation.instr) c t v := by
  constructor
  · rw [Operation.performAll_loadConstant]
    exact .update ht v rfl rfl
  · rw [Operation.performAll_loadConstant]
    exact Mmix.get_update hne v _

/-- A fresh temporary is not the frame pointer. -/
theorem fresh_ne (hfp : fp.number < s.next) : (⟨s.next⟩ : Temp) ≠ fp := by
  rintro rfl
  exact Nat.lt_irrefl _ hfp

/-- The instructions of a constant leave it in a fresh temporary, negated twice or not at all. -/
theorem computes_constant {value : Int64} (h : constant fp value s = .ok (is, t) rest)
    (hfp : fp.number < s.next) (c : Core E) : Computes w fp s.next is c t value.toUInt64 := by
  obtain ⟨-, rfl, h⟩ := constant_eq_ok.mp h
  have hload : ∀ v, Computes w fp s.next ((Operation.loadConstant ⟨s.next⟩ v).map Operation.instr)
      c ⟨s.next⟩ v := computes_loadConstant (fresh_ne hfp) (Nat.le_refl _)
  split at h
  · obtain ⟨i, hi, rfl⟩ := h
    refine .append (hload _).keeps ?_ (Nat.le_refl _)
    have hneg := computes_emit (w := w) Operation.proper_negate hi rfl (Nat.le_refl _) rfl rfl
      (Mmix.performAll w
        ((Operation.loadConstant ⟨s.next⟩ (-value).toUInt64).map Operation.instr) c)
    refine ⟨hneg.keeps, hneg.value.trans ?_⟩
    -- The negation of the negated constant.
    show -(Mmix.performAll w _ c).get fp ⟨s.next⟩ = value.toUInt64
    rw [(hload _).value, Int64.toUInt64_neg, UInt64.neg_neg]
  · obtain ⟨rfl, -⟩ := h
    exact hload _

/-- A copy writes the value of its source, also if that is the frame pointer. -/
theorem perform_emitCopy {dst src : Temp} {i : Instr} (hi : emitCopy fp dst src s = .ok i rest)
    (c : Core E) :
    Mmix.perform w i c = ⟨Function.update c.store dst (c.get fp src), c.hidden⟩ := by
  obtain ⟨-, rfl, -⟩ := emitCopy_eq_ok.mp hi
  by_cases hsrc : src = fp
  · rw [if_pos hsrc, Operation.perform_instr Operation.proper_copyFramePointer.toReadable,
      Core.get, if_pos hsrc]
    show Core.mk (Function.update c.store dst (c.hidden.global .framePointer + 0)) _ = _
    rw [UInt64.add_zero]
    rfl
  · rw [if_neg hsrc, Mmix.perform_copy, Core.get, if_neg hsrc]

/-- A copy leaves the value of its source in its destination. -/
theorem computes_emitCopy {dst src : Temp} {i : Instr} (hi : emitCopy fp dst src s = .ok i rest)
    (hdst : n ≤ dst.number) (c : Core E) : Computes w fp n [i] c dst (c.get fp src) := by
  obtain ⟨hne, -⟩ := emitCopy_eq_ok.mp hi
  have hperform : Mmix.performAll w [i] c = _ := perform_emitCopy hi c
  constructor
  · rw [hperform]
    exact .update hdst _ rfl rfl
  · rw [hperform]
    exact Mmix.get_update hne _ _

/-- An operation with a small number computes what the operator gives with the constant. -/
theorem computes_applyShortcut {lhs : Temp} {op : BinaryOp} {value : Int64} {sc : Shortcut}
    (hsc : shortcut? op value = some sc) (h : applyShortcut fp lhs sc s = .ok (is, t) rest)
    (c : Core E) : Computes w fp s.next is c t (op.apply (c.get fp lhs) value.toUInt64) := by
  cases sc with
  | same =>
      obtain ⟨-, rfl, i, hi, rfl⟩ := applyShortcut_same_eq_ok.mp h
      rw [apply_of_shortcut?_eq_same hsc]
      exact computes_emitCopy hi (Nat.le_refl _) c
  | number m n =>
      obtain ⟨hm, hn⟩ := mem_of_shortcut?_eq_number hsc
      obtain ⟨-, rfl, i, hi, rfl⟩ := applyShortcut_number_eq_ok.mp h
      have hproper : (Operation.combineNumber m ⟨s.next⟩ lhs n).Proper ∧
          (m == .sto) = false ∧ (m == .pushj) = false := by
        simp only [List.mem_cons, List.not_mem_nil, or_false] at hm
        rcases hm with rfl | rfl | rfl | rfl <;>
          exact ⟨Operation.proper_combineNumber rfl rfl hn, rfl, rfl⟩
      have hop := computes_emit (w := w) hproper.1 hi rfl (Nat.le_refl _) hproper.2.1 hproper.2.2 c
      exact ⟨hop.keeps, hop.value.trans (value_of_shortcut?_eq_number hsc c.hidden _ _)⟩

/-- A load leaves the octabyte at base and offset in a fresh temporary. -/
theorem computes_loadAt {base : Temp} {offset : Int}
    (h : loadAt fp base offset s = .ok (is, t) rest) (hnarrow : offset.natAbs < UInt8.size)
    (c : Core E) :
    Computes w fp s.next is c t (c.hidden.memory.load (displace (c.get fp base) offset)) := by
  obtain ⟨-, rfl, h⟩ := loadAt_eq_ok.mp h
  rw [displace]
  split at h
  · next hoffset =>
      obtain ⟨i, hi, rfl⟩ := h
      rw [if_pos hoffset]
      have hload := computes_emit (w := w) (Operation.proper_load (by omega)) hi rfl
        (Nat.le_refl _) rfl rfl c
      exact ⟨hload.keeps, hload.value⟩
  · next hoffset =>
      obtain ⟨i, mid, j, hi, hj, rfl⟩ := h
      rw [if_neg hoffset]
      have hsub := computes_emit (w := w) (Operation.proper_combineNumber rfl rfl (by omega)) hi
        rfl (Nat.le_refl _) rfl rfl c
      have hload := computes_emit (w := w) (Operation.proper_load (by decide)) hj rfl
        (Nat.le_refl _) rfl rfl (Mmix.performAll w [i] c)
      refine .append hsub.keeps ⟨hload.keeps, hload.value.trans ?_⟩ (Nat.le_refl _)
      -- The address is in the temporary, and memory is as it was.
      show (Mmix.performAll w [i] c).hidden.memory.load
        ((Mmix.performAll w [i] c).get fp ⟨s.next⟩ + 0) = _
      rw [hsub.keeps.memory, hsub.value, UInt64.add_zero]
      rfl

/-- The operation of a unary operator computes what the operator gives. -/
theorem computes_unaryOperation {op : UnaryOp} {src : Temp} {i : Instr}
    (hi : emit fp (unaryOperation op t src) s = .ok i rest) (ht : n ≤ t.number) (c : Core E) :
    Computes w fp n [i] c t (op.apply (c.get fp src)) := by
  cases op with
  | neg =>
      have hop := computes_emit (w := w) Operation.proper_negate hi rfl ht rfl rfl c
      exact ⟨hop.keeps, hop.value⟩
  | not =>
      have hop := computes_emit (w := w) (Operation.proper_test .zero) hi rfl ht rfl rfl c
      exact ⟨hop.keeps, hop.value⟩

/-- A comparison and a test of its result compute the comparison. -/
theorem computes_comparison {cond : Condition} {lhs rhs : Temp}
    (h : (comparison cond t lhs rhs).mapM (emit fp) s = .ok is rest) (ht : n ≤ t.number)
    (c : Core E) : Computes w fp n is c t
      (Word.ofBool (cond.test (Mmix.order (c.get fp lhs) (c.get fp rhs)))) := by
  have hcmp : (Operation.combine .cmp t lhs rhs).Proper := Operation.proper_combine rfl rfl
  have htest : (Operation.test cond t t).Proper := Operation.proper_test cond
  obtain ⟨rfl, -, hemit⟩ := emit_of_mapM_eq_ok (by simp [comparison, hcmp.toPlain, htest.toPlain]) h
  have hone := computes_emit (w := w) hcmp (hemit _ (by simp [comparison])) rfl ht rfl rfl c
  have htwo := computes_emit (w := w) htest (hemit _ (by simp [comparison])) rfl ht rfl rfl
    (Mmix.performAll w [((Operation.combine .cmp t lhs rhs).inline fp).instr] c)
  refine .append hone.keeps ⟨htwo.keeps, htwo.value.trans ?_⟩ (Nat.le_refl _)
  show Word.ofBool (cond.test (Core.get fp _ t)) = _
  rw [hone.value]
  rfl

/-- A division, followed by getting the remainder, computes the remainder. -/
theorem computes_mod {lhs rhs : Temp}
    (h : (binaryOperations .mod t lhs rhs).mapM (emit fp) s = .ok is rest) (ht : n ≤ t.number)
    (c : Core E) : Computes w fp n is c t (Mmix.residue (c.get fp lhs) (c.get fp rhs)) := by
  have hdiv : (Operation.combine .div t lhs rhs).Proper := Operation.proper_combine rfl rfl
  have hget : (Operation.getRemainder t).Proper := Operation.proper_getRemainder
  obtain ⟨rfl, -, hemit⟩ :=
    emit_of_mapM_eq_ok (by simp [binaryOperations, hdiv.toPlain, hget.toPlain]) h
  have hone := computes_emit (w := w) hdiv (hemit _ (by simp [binaryOperations])) rfl ht rfl rfl c
  have htwo := computes_emit (w := w) hget (hemit _ (by simp [binaryOperations])) rfl ht rfl rfl
    (Mmix.performAll w [((Operation.combine .div t lhs rhs).inline fp).instr] c)
  refine .append hone.keeps ⟨htwo.keeps, htwo.value.trans ?_⟩ (Nat.le_refl _)
  -- The division leaves its remainder in the special register.
  show (Mmix.perform w ((Operation.combine .div t lhs rhs).inline fp).instr c).hidden.remainder = _
  rw [Operation.perform_inline hdiv.toReadable]
  rfl

/-- The operations of a binary operator compute what the operator gives. -/
theorem computes_binaryOperations {op : BinaryOp} {lhs rhs : Temp}
    (h : (binaryOperations op t lhs rhs).mapM (emit fp) s = .ok is rest) (ht : n ≤ t.number)
    (c : Core E) : Computes w fp n is c t (op.apply (c.get fp lhs) (c.get fp rhs)) := by
  have hone : ∀ m : Mnemonic, [Operation.combine m t lhs rhs].mapM (emit fp) s = .ok is rest →
      m.commas = 2 → m.namesLabel = false → (m == .sto) = false → (m == .pushj) = false →
        ∃ old, Computes w fp n is c t (Mmix.value c.hidden old m [c.get fp lhs, c.get fp rhs]) := by
    intro m h hcommas hlabel hsto hpushj
    have hproper : (Operation.combine m t lhs rhs).Proper := Operation.proper_combine hcommas hlabel
    obtain ⟨rfl, -, hemit⟩ := emit_of_mapM_eq_ok (by simpa using hproper.toPlain) h
    exact ⟨_, computes_emit hproper (hemit _ (List.mem_singleton_self _)) rfl ht hsto hpushj c⟩
  have htest := ofBool_test_order (c.get fp lhs) (c.get fp rhs)
  cases op with
  | add | sub | mul | div | and | or =>
      obtain ⟨old, hop⟩ := hone _ h rfl rfl rfl rfl
      exact hop
  | mod => exact computes_mod h ht c
  | eq => exact htest.1 ▸ computes_comparison h ht c
  | ne => exact htest.2.1 ▸ computes_comparison h ht c
  | lt => exact htest.2.2.1 ▸ computes_comparison h ht c
  | gt => exact htest.2.2.2.1 ▸ computes_comparison h ht c
  | le => exact htest.2.2.2.2.1 ▸ computes_comparison h ht c
  | ge => exact htest.2.2.2.2.2 ▸ computes_comparison h ht c

/-! ### Expressions -/

/-- Without calls, what is selected for an expression computes the value that it has before. -/
def ComputesValue (w : Mmix.World E) (fp : Temp) (e : Expr) : Prop :=
  ∀ ⦃s rest : Supply⦄ ⦃is : List Instr⦄ ⦃t : Temp⦄, e.callFree = true →
    (∀ l ∈ e.labels, l.Plain) → fp.number < s.next → (∀ u ∈ e.temps, u.number < s.next) →
      expr fp e s = .ok (is, t) rest →
        ∀ c : Core E, Computes w fp s.next is c t (e.eval w.address (c.get fp) c.hidden.memory)

/-- The value of an expression over temporaries that are kept. -/
theorem eval_keeps {d : Core E} {e : Expr} (hkeeps : c.Keeps fp n d) (hcalls : e.callFree = true)
    (htemps : ∀ u ∈ e.temps, u.number < n) :
    e.eval w.address (d.get fp) d.hidden.memory = e.eval w.address (c.get fp) c.hidden.memory := by
  rw [hkeeps.memory]
  exact Expr.eval_congr hcalls fun u hu => hkeeps.temps u (htemps u hu)

/-- A load behind what is selected for its base. -/
theorem computes_mem {addr : Expr} (hbase : ComputesValue w fp (folded addr).1) :
    ComputesValue w fp (.mem addr) := by
  intro s rest is t hcalls hlabels hfp htemps h c
  obtain ⟨is, base, mid, js, hb, hjs, rfl⟩ := expr_mem_eq_ok.mp h
  have hdisplaced := displaced_folded addr
  have hlabels' := fun l hl => hlabels l (hdisplaced.labels l hl)
  have htemps' := fun u hu => htemps u (hdisplaced.temps u hu)
  have hle := (emits_expr hlabels' htemps' hb).1.le
  have his := hbase (hdisplaced.callFree hcalls) hlabels' hfp htemps' hb c
  have hload := computes_loadAt (w := w) hjs hdisplaced.narrow (Mmix.performAll w is c)
  -- The base has its value when the load is reached, and memory is as it was.
  rw [his.keeps.memory, his.value, hdisplaced.value] at hload
  exact .append his.keeps hload hle

/-- The case of binary operators, with and without a constant on the right. -/
theorem computes_binary {op : BinaryOp} {lhs rhs : Expr} (hlhs : ComputesValue w fp lhs)
    (hrhs : ComputesValue w fp rhs) : ComputesValue w fp (.binary op lhs rhs) := by
  intro s rest is t hcalls hlabels hfp htemps h c
  rw [Expr.callFree, Bool.and_eq_true] at hcalls
  rw [Expr.labels, List.forall_mem_append] at hlabels
  rw [Expr.temps, List.forall_mem_append] at htemps
  obtain ⟨is, left, mid, hleft, h⟩ := expr_binary_eq_ok.mp h
  obtain ⟨hemits, hbelow⟩ := emits_expr hlabels.1 htemps.1 hleft
  have his := hlhs hcalls.1 hlabels.1 hfp htemps.1 hleft c
  rw [Expr.eval]
  rcases h with ⟨sc, js, hsc, hjs, rfl⟩ | ⟨js, right, next, ks, -, hright, -, rfl, hks, rfl⟩
  · obtain ⟨value, rfl, hvalue⟩ := exists_const_of_operandShortcut? hsc
    have hjs := computes_applyShortcut (w := w) hvalue hjs (Mmix.performAll w is c)
    rw [his.value] at hjs
    exact .append his.keeps hjs hemits.le
  · have htemps2 : ∀ u ∈ rhs.temps, u.number < mid.next :=
      fun u hu => Nat.lt_of_lt_of_le (htemps.2 u hu) hemits.le
    obtain ⟨hemits2, -⟩ := emits_expr hlabels.2 htemps2 hright
    have hjs := hrhs hcalls.2 hlabels.2 (Nat.lt_of_lt_of_le hfp hemits.le) htemps2 hright
      (Mmix.performAll w is c)
    have hboth : Computes w fp s.next (is ++ js) c right _ := .append his.keeps hjs hemits.le
    have hop := computes_binaryOperations (w := w) hks (Nat.le_refl next.next)
      (Mmix.performAll w (is ++ js) c)
    -- The left operand is still there when the right one is known.
    have hleft : (Mmix.performAll w (is ++ js) c).get fp left =
        lhs.eval w.address (c.get fp) c.hidden.memory := by
      rw [Mmix.performAll_append, hjs.keeps.temps left hbelow, his.value]
    rw [hleft, hboth.value, eval_keeps his.keeps hcalls.2 htemps.2] at hop
    exact .append hboth.keeps hop (Nat.le_trans hemits.le hemits2.le)

/-- The case of unary operators. -/
theorem computes_unary {op : UnaryOp} {e : Expr} (he : ComputesValue w fp e) :
    ComputesValue w fp (.unary op e) := by
  intro s rest is t hcalls hlabels hfp htemps h c
  obtain ⟨is, src, mid, i, hsrc, -, rfl, hi, rfl⟩ := expr_unary_eq_ok.mp h
  have hle := (emits_expr (e := e) hlabels htemps hsrc).1.le
  have his := he hcalls hlabels hfp htemps hsrc c
  have hop := computes_unaryOperation (w := w) hi (Nat.le_refl mid.next) (Mmix.performAll w is c)
  rw [his.value] at hop
  exact .append his.keeps hop hle

/-- Without calls, the code of an expression computes its value. -/
theorem computes_expr (w : Mmix.World E) (fp : Temp) (e : Expr) : ComputesValue w fp e := by
  refine (expr_induct (P := ComputesValue w fp) (Q := fun _ _ => True) ?const ?address ?temp
    (fun addr => computes_mem) (fun op e => computes_unary) (fun op lhs rhs => computes_binary)
    ?call (fun _ => trivial) fun _ _ _ _ _ => trivial).1 e
  case const =>
    intro value s rest is t _ _ hfp _ h c
    rw [expr] at h
    exact computes_constant h hfp c
  case address =>
    intro l s rest is t _ hlabels _ _ h c
    obtain ⟨-, rfl, i, hi, rfl⟩ := expr_address_eq_ok.mp h
    have hload := computes_emit (w := w)
      (Operation.proper_loadAddress (hlabels l (List.mem_singleton_self l))) hi rfl
      (Nat.le_refl s.next) rfl rfl c
    exact ⟨hload.keeps, hload.value⟩
  case temp =>
    intro t s rest is u _ _ _ _ h c
    obtain ⟨rfl, rfl, rfl⟩ := expr_temp_eq_ok.mp h
    exact ⟨.refl fp _ c, rfl⟩
  case call =>
    intro l es _ s rest is t hcalls
    cases hcalls

end Select

end MmixCodegen
