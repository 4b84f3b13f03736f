import MmixCodegen.Proofs.Select.Program

/-!
# `MmixCodegen.Proofs.Select.Failure`: when selection fails

A move goes into memory or into a temporary other than the frame pointer.
`Stmt.rejection?` is the failure of a statement that moves something elsewhere, and
`Program.rejection?` that of the first such statement of a program. As long as there are
temporaries, selection fails with it and in no other way, provided that no label holds a
mark (`Program.ends_select`).

`Select.Ends` says how a computation ends. There is one lemma for each function that
selects instructions. Two things could go wrong besides: a template that cannot be
rewritten, but those of operations have an operand for each slot; and a write to the
frame pointer, but what is drawn from the supply is above it.
-/

set_option autoImplicit false

namespace MmixCodegen

/-! ### Statements that cannot be expressed -/

namespace Stmt

variable {fp : Temp} {st : Stmt} {e : Failure}

/-- The statement moves something into what is neither a temporary nor memory, or into the
frame pointer. -/
def Unsupported (fp : Temp) (st : Stmt) : Prop :=
  ∃ dst src, st = .move dst src ∧
    ((∀ t, dst ≠ .temp t) ∧ (∀ addr, dst ≠ .mem addr) ∨ dst = .temp fp)

/-- Why a statement cannot be expressed. -/
def rejection? (fp : Temp) : Stmt → Option Failure
  | move (.temp dst) _ => if dst = fp then some (.framePointerWritten fp) else none
  | move (.mem _) _ => none
  | move dst _ => some (.badDestination dst)
  | _ => none

/-- A statement is rejected just if it cannot be expressed. -/
theorem isSome_rejection?_iff : (st.rejection? fp).isSome ↔ st.Unsupported fp := by
  cases st with
  | move dst src =>
      cases dst with
      | temp t => by_cases h : t = fp <;> simp [rejection?, Unsupported, h]
      | _ => simp [rejection?, Unsupported]
  | _ => simp [rejection?, Unsupported]

/-- A rejection is a failure of unsupported input. -/
theorem category_of_rejection? (h : st.rejection? fp = some e) : e.category = .unsupported := by
  unfold rejection? at h
  split at h
  · split at h
    · cases h
      rfl
    · cases h
  · cases h
  · cases h
    rfl
  · cases h

end Stmt

/-- The failure of the first statement of a procedure that cannot be expressed. -/
def Procedure.rejection? (p : Procedure) : Option Failure :=
  p.body.findSome? (Stmt.rejection? p.frame.fp)

/-- The failure of the first statement of some procedures that cannot be expressed. -/
def Program.rejection? (ps : List Procedure) : Option Failure :=
  ps.findSome? Procedure.rejection?

/-! ### How computations end -/

namespace Select

variable {α β : Type} {fp : Temp} {e? : Option Failure}

/-- How the computation ends if its supply is above the frame pointer: with the failure if
one is given and with a result otherwise, as long as there are temporaries. -/
def Ends (fp : Temp) (e? : Option Failure) (x : Select α) : Prop :=
  ∀ ⦃s : Supply⦄, fp.number < s.next →
    (∃ rest, x s = .error .temporariesExhausted rest) ∨
      match e? with
      | none => ∃ a rest, x s = .ok a rest ∧ s.next ≤ rest.next
      | some e => ∃ rest, x s = .error e rest

/-- A result by itself does not fail. -/
theorem ends_pure (a : α) : Ends fp none (pure a : Select α) :=
  fun s _ => .inr ⟨a, s, rfl, Nat.le_refl _⟩

/-- A failure ends a computation. -/
theorem ends_throw (e : Failure) : Ends fp (some e) (throw e : Select α) :=
  fun s _ => .inr ⟨s, rfl⟩

/-- What fails first makes a sequence fail. -/
theorem bind_of_error {x : Select α} {f : α → Select β} {s rest : Supply} {e : Failure}
    (h : x s = .error e rest) : (x >>= f) s = .error e rest := by
  show EStateM.bind x f s = _
  rw [EStateM.bind, h]

/-- After a first success, a sequence goes on with the second part. -/
theorem bind_of_ok {x : Select α} {f : α → Select β} {s rest : Supply} {a : α}
    (h : x s = .ok a rest) : (x >>= f) s = f a rest := by
  show EStateM.bind x f s = _
  rw [EStateM.bind, h]

/-- How a sequence ends is up to its second part if the first one ends well. -/
theorem Ends.bind {x : Select α} {f : α → Select β} (hx : Ends fp none x)
    (hf : ∀ a, Ends fp e? (f a)) : Ends fp e? (x >>= f) := by
  intro s hs
  rcases hx hs with ⟨rest, herror⟩ | ⟨a, mid, hok, hle⟩
  · exact .inl ⟨rest, bind_of_error herror⟩
  · rw [bind_of_ok hok]
    rcases hf a (Nat.lt_of_lt_of_le hs hle) with herror | hend
    · exact .inl herror
    · refine .inr ?_
      cases e? with
      | none =>
          obtain ⟨b, rest, hok', hle'⟩ := hend
          exact ⟨b, rest, hok', Nat.le_trans hle hle'⟩
      | some e => exact hend

/-- A failure of the first part is that of the whole. -/
theorem Ends.fails_bind {x : Select α} {f : α → Select β} {e : Failure}
    (hx : Ends fp (some e) x) : Ends fp (some e) (x >>= f) := by
  intro s hs
  rcases hx hs with ⟨rest, herror⟩ | ⟨rest, herror⟩
  · exact .inl ⟨rest, bind_of_error herror⟩
  · exact .inr ⟨rest, bind_of_error herror⟩

/-- What is drawn is not the frame pointer. -/
theorem Ends.bind_fresh {f : Temp → Select β} (hf : ∀ t, t ≠ fp → Ends fp e? (f t)) :
    Ends fp e? (fresh >>= f) := by
  intro s hs
  by_cases hlt : s.next < Supply.limit
  · have hfresh : fresh s = .ok ⟨s.next⟩ ⟨s.next + 1⟩ := fresh_eq_ok.mpr ⟨hlt, rfl, rfl⟩
    -- The frame pointer was there before the supply, so nothing new is equal to it.
    have hne : (⟨s.next⟩ : Temp) ≠ fp := by
      rintro rfl
      exact Nat.lt_irrefl _ hs
    rw [bind_of_ok hfresh]
    have hle : s.next ≤ s.next + 1 := Nat.le_succ _
    rcases hf _ hne (s := ⟨s.next + 1⟩) (Nat.lt_of_lt_of_le hs hle) with herror | hend
    · exact .inl herror
    · refine .inr ?_
      cases e? with
      | none =>
          obtain ⟨b, rest, hok, hle'⟩ := hend
          exact ⟨b, rest, hok, Nat.le_trans hle hle'⟩
      | some e => exact hend
  · have hnone : s.fresh? = none := by
      by_contra hcon
      obtain ⟨⟨t, rest⟩, hsome⟩ := Option.ne_none_iff_exists'.mp hcon
      exact hlt (Supply.fresh?_eq_some_iff.mp hsome).1
    refine .inl ⟨s, bind_of_error ?_⟩
    rw [fresh, hnone]

/-! ### Emitting -/

/-- An operation is emitted unless it writes the frame pointer. -/
theorem ends_emit {o : Operation} (ho : o.Plain) (hfp : fp ∉ o.defs) : Ends fp none (emit fp o) :=
  fun s _ => .inr ⟨_, s, (emit_eq_ok ho).mpr ⟨hfp, rfl, rfl⟩, Nat.le_refl _⟩

/-- An operation with one destination, not the frame pointer, is emitted. -/
theorem ends_emit_def {o : Operation} {dst : Temp} (ho : o.Plain) (hdst : dst ≠ fp)
    (hdefs : o.defs = [dst]) : Ends fp none (emit fp o) := by
  refine ends_emit ho ?_
  rw [hdefs, List.mem_singleton]
  exact Ne.symm hdst

/-- A copy is emitted, unless it goes to the frame pointer. -/
theorem ends_emitCopy {dst : Temp} (hdst : dst ≠ fp) (src : Temp) :
    Ends fp none (emitCopy fp dst src) :=
  fun s _ => .inr ⟨_, s, emitCopy_eq_ok.mpr ⟨hdst, rfl, rfl⟩, Nat.le_refl _⟩

/-- Operations in a row that write another temporary than the frame pointer are emitted. -/
theorem ends_mapM_emit {os : List Operation} {dst : Temp} (hdst : dst ≠ fp)
    (hos : ∀ o ∈ os, o.Plain ∧ o.defs = [dst]) : Ends fp none (os.mapM (emit fp)) := by
  induction os with
  | nil => exact ends_pure _
  | cons o os ih =>
      rw [List.forall_mem_cons] at hos
      rw [List.mapM_cons]
      exact (ends_emit_def hos.1.1 hdst hos.1.2).bind fun _ => (ih hos.2).bind fun _ => ends_pure _

/-- Selecting a constant does not fail. -/
theorem ends_constant (fp : Temp) (value : Int64) : Ends fp none (constant fp value) := by
  refine Ends.bind_fresh fun dst hdst => ?_
  split
  · exact (ends_emit_def Operation.proper_negate.toPlain hdst rfl).bind fun _ => ends_pure _
  · exact ends_pure _

/-- Selecting an operation with a small number does not fail. -/
theorem ends_applyShortcut (fp lhs : Temp) (sc : Shortcut) :
    Ends fp none (applyShortcut fp lhs sc) := by
  cases sc with
  | same =>
      exact Ends.bind_fresh fun _ hdst => (ends_emitCopy hdst _).bind fun _ => ends_pure _
  | number m n =>
      exact Ends.bind_fresh fun _ hdst =>
        (ends_emit_def (Operation.plain_combineNumber m n) hdst rfl).bind fun _ => ends_pure _

/-- Selecting a load does not fail. -/
theorem ends_loadAt (fp base : Temp) (offset : Int) : Ends fp none (loadAt fp base offset) := by
  refine Ends.bind_fresh fun dst hdst => ?_
  split
  · exact (ends_emit_def (Operation.plain_load _) hdst rfl).bind fun _ => ends_pure _
  · exact (ends_emit_def (Operation.plain_combineNumber .sub _) hdst rfl).bind fun _ =>
      (ends_emit_def (Operation.plain_load _) hdst rfl).bind fun _ => ends_pure _

/-- Selecting the store of an argument does not fail. -/
theorem ends_storeArg (fp value : Temp) (index : Nat) : Ends fp none (storeArg fp value index) := by
  unfold storeArg
  dsimp only
  split
  · exact (ends_emit (Operation.plain_storeArg _) List.not_mem_nil).bind fun _ =>
      ends_pure _
  · exact Ends.bind_fresh fun _ _ =>
      (ends_emit Operation.proper_storeArgAt.toPlain List.not_mem_nil).bind fun _ => ends_pure _

/-! ### Expressions -/

/-- The case of binary operators, with and without a constant on the right. -/
theorem ends_binary {op : BinaryOp} {lhs rhs : Expr} (hlhs : Ends fp none (expr fp lhs))
    (hrhs : Ends fp none (expr fp rhs)) : Ends fp none (expr fp (.binary op lhs rhs)) := by
  rw [expr]
  refine hlhs.bind fun left => ?_
  cases hsc : operandShortcut? op rhs with
  | some sc =>
      exact (ends_applyShortcut fp _ sc).bind fun _ => ends_pure _
  | none =>
      have hos : ∀ (dst right : Temp), ∀ o ∈ binaryOperations op dst left.2 right,
          o.Plain ∧ o.defs = [dst] := by
        intro dst right o ho
        obtain ⟨hproper, -, -, hdefs⟩ := mem_binaryOperations ho
        exact ⟨hproper.toPlain, hdefs⟩
      exact hrhs.bind fun _ => Ends.bind_fresh fun _ hdst =>
        (ends_mapM_emit hdst (hos _ _)).bind fun _ => ends_pure _

/-- Expressions and arguments together, along their recursion. -/
theorem ends_mutual (fp : Temp) :
    (∀ e : Expr, (∀ l ∈ e.labels, l.Plain) → Ends fp none (expr fp e)) ∧
      ∀ index es, (∀ l ∈ Expr.argLabels es, l.Plain) → Ends fp none (args fp index es) := by
  refine expr_induct ?const ?address ?temp ?mem ?unary ?binary ?call ?nil ?cons
  -- Each equation of selection is a sequence of computations that end well.
  case const =>
    intro value _
    rw [expr]
    exact ends_constant fp value
  case address =>
    intro l hlabels
    rw [expr]
    have hl := hlabels l (List.mem_singleton_self l)
    exact Ends.bind_fresh fun _ hdst =>
      (ends_emit_def (Operation.proper_loadAddress hl).toPlain hdst rfl).bind fun _ => ends_pure _
  case temp =>
    intro t _
    rw [expr]
    exact ends_pure _
  case mem =>
    intro addr ih hlabels
    rw [expr_mem]
    exact (ih fun l hl => hlabels l ((displaced_folded addr).labels l hl)).bind fun _ =>
      (ends_loadAt _ _ _).bind fun _ => ends_pure _
  case unary =>
    intro op e ih hlabels
    rw [expr]
    refine (ih hlabels).bind fun _ => Ends.bind_fresh fun _ hdst => Ends.bind ?_ fun _ =>
      ends_pure _
    cases op with
    | neg => exact ends_emit_def Operation.proper_negate.toPlain hdst rfl
    | not => exact ends_emit_def (Operation.proper_test .zero).toPlain hdst rfl
  case binary =>
    intro op lhs rhs ihl ihr hlabels
    rw [Expr.labels, List.forall_mem_append] at hlabels
    exact ends_binary (ihl hlabels.1) (ihr hlabels.2)
  case call =>
    intro l es ih hlabels
    rw [Expr.labels, List.forall_mem_cons] at hlabels
    rw [expr]
    exact (ih hlabels.2).bind fun _ =>
      (ends_emit (Operation.proper_call hlabels.1).toPlain List.not_mem_nil).bind fun _ =>
        Ends.bind_fresh fun _ hdst =>
          (ends_emit_def Operation.proper_loadResult.toPlain hdst rfl).bind fun _ => ends_pure _
  case nil =>
    intro index _
    rw [args]
    exact ends_pure _
  case cons =>
    intro index e es ihe ihes hlabels
    rw [Expr.argLabels, List.forall_mem_append] at hlabels
    rw [args]
    exact (ihe hlabels.1).bind fun _ => (ends_storeArg _ _ _).bind fun _ =>
      (ihes hlabels.2).bind fun _ => ends_pure _

/-- Selecting an expression with plain labels does not fail. -/
theorem ends_expr {e : Expr} (hlabels : ∀ l ∈ e.labels, l.Plain) : Ends fp none (expr fp e) :=
  (ends_mutual fp).1 e hlabels

/-! ### Statements -/

/-- Selecting a call with plain labels does not fail. -/
theorem ends_call {l : Label} {es : List Expr} (hl : l.Plain)
    (hes : ∀ l ∈ Expr.argLabels es, l.Plain) : Ends fp none (call fp l es) :=
  ((ends_mutual fp).2 0 es hes).bind fun _ =>
    (ends_emit (Operation.proper_call hl).toPlain List.not_mem_nil).bind fun _ => ends_pure _

/-- Selecting an address with plain labels does not fail. -/
theorem ends_address {addr : Expr} (hlabels : ∀ l ∈ addr.labels, l.Plain) :
    Ends fp none (address fp addr) := by
  rw [address_eq]
  exact (ends_expr fun l hl => hlabels l ((displaced_folded addr).labels l hl)).bind fun _ =>
    ends_pure _

/-- Selecting a store with plain labels does not fail. -/
theorem ends_store {addr src : Expr} (haddr : ∀ l ∈ addr.labels, l.Plain)
    (hsrc : ∀ l ∈ src.labels, l.Plain) : Ends fp none (store fp addr src) := by
  have hstore : ∀ value base offset, Ends fp none (emit fp (.store value base offset)) :=
    fun _ _ offset => ends_emit (Operation.plain_store offset) List.not_mem_nil
  refine (ends_address haddr).bind fun place => ?_
  dsimp only
  split
  · exact (ends_expr hsrc).bind fun _ => (hstore _ _ _).bind fun _ => ends_pure _
  · exact Ends.bind_fresh fun _ hplace =>
      (ends_emit_def (Operation.plain_combineNumber .sub _) hplace rfl).bind fun _ =>
        (ends_expr hsrc).bind fun _ => (hstore _ _ _).bind fun _ => ends_pure _

/-- Selecting an assignment with plain labels does not fail, unless it is to the frame pointer. -/
theorem ends_assign {dst : Temp} {src : Expr} (hdst : dst ≠ fp)
    (hsrc : ∀ l ∈ src.labels, l.Plain) : Ends fp none (assign fp dst src) := by
  unfold assign
  rw [if_neg hdst]
  split
  · next l es =>
    rw [Expr.labels, List.forall_mem_cons] at hsrc
    exact (ends_call hsrc.1 hsrc.2).bind fun _ =>
      (ends_emit_def Operation.proper_loadResult.toPlain hdst rfl).bind fun _ => ends_pure _
  · exact (ends_expr hsrc).bind fun _ => (ends_emitCopy hdst _).bind fun _ => ends_pure _

/-- A statement is rejected before anything is selected for it, and otherwise it is selected. -/
theorem ends_stmt {st : Stmt} (hlabels : ∀ l ∈ st.labels, l.Plain) :
    Ends fp (st.rejection? fp) (stmt fp st) := by
  cases st with
  | move dst src =>
      rw [Stmt.labels, List.forall_mem_append] at hlabels
      cases dst with
      | temp dst =>
          by_cases hdst : dst = fp
          · rw [Stmt.rejection?, if_pos hdst, stmt]
            unfold assign
            rw [if_pos hdst]
            exact ends_throw _
          · rw [Stmt.rejection?, if_neg hdst]
            exact ends_assign hdst hlabels.2
      | mem addr =>
          rw [stmt]
          exact ends_store hlabels.1 hlabels.2
      | _ => exact ends_throw _
  | branch cond pos neg =>
      rw [Stmt.labels, List.forall_mem_append] at hlabels
      have hpos := hlabels.2 pos List.mem_cons_self
      exact (ends_expr hlabels.1).bind fun _ =>
        (ends_emit (Operation.proper_branch hpos).toPlain List.not_mem_nil).bind fun _ =>
          ends_pure _
  | jump target =>
      have htarget := hlabels target (List.mem_singleton_self _)
      exact (ends_emit (Operation.proper_jump htarget).toPlain List.not_mem_nil).bind fun _ =>
        ends_pure _
  | label l => exact ends_pure _
  | eval e =>
      cases e with
      | call l es =>
          rw [Stmt.labels, Expr.labels, List.forall_mem_cons] at hlabels
          exact ends_call hlabels.1 hlabels.2
      | _ => exact (ends_expr hlabels).bind fun _ => ends_pure _

/-- Statements fail with the rejection of the first one that is rejected. -/
theorem ends_stmts {body : List Stmt} (hlabels : ∀ st ∈ body, ∀ l ∈ st.labels, l.Plain) :
    Ends fp (body.findSome? (Stmt.rejection? fp)) (stmts fp body) := by
  induction body with
  | nil => exact ends_pure _
  | cons st body ih =>
      rw [List.forall_mem_cons] at hlabels
      have hst : Ends fp (st.rejection? fp) (stmt fp st) := ends_stmt hlabels.1
      rw [List.findSome?_cons, stmts]
      cases hrejection : st.rejection? fp with
      | some e => exact (hrejection ▸ hst).fails_bind
      | none =>
          refine (hrejection ▸ hst).bind fun _ => ?_
          cases hothers : body.findSome? (Stmt.rejection? fp) with
          | some e => exact (hothers ▸ ih hlabels.2).fails_bind
          | none => exact (hothers ▸ ih hlabels.2).bind fun _ => ends_pure _

end Select

/-! ### Programs -/

/-- The tree code cannot be expressed, or there is no temporary left. -/
def Failure.Rejects (e : Failure) : Prop :=
  e.category = .unsupported ∨ e = .temporariesExhausted

namespace Program

variable {ps : List Procedure} {e : Failure}

/-- How selection ends: with the failure if one is given and with a program otherwise, as
long as there are temporaries. -/
def Ends (e? : Option Failure) (outcome : Except Failure Program) : Prop :=
  outcome = .error .temporariesExhausted ∨
    match e? with
    | none => ∃ program, outcome = .ok program
    | some e => outcome = .error e

/-- A routine in front of the others does not change how selection ends. -/
theorem Ends.cons {e? : Option Failure} {rest : Logged Program} (h : Ends e? rest.outcome)
    (r : Routine) :
    Ends e? (do
      let program ← rest.outcome
      return { program with routines := r :: program.routines }) := by
  rcases h with herror | hend
  · rw [herror]
    exact .inl rfl
  · refine .inr ?_
    cases e? with
    | none =>
        obtain ⟨program, hok⟩ := hend
        rw [hok]
        exact ⟨_, rfl⟩
    | some e =>
        replace hend : rest.outcome = .error e := hend
        rw [hend]
        rfl

/-- There may be no supply to start with, but for one reason only. -/
theorem exhausted_of_firstSupply (h : firstSupply ps = .error e) : e = .temporariesExhausted := by
  induction ps with
  | nil => cases h
  | cons p ps ih =>
      rw [firstSupply] at h
      split at h
      · cases hrest : firstSupply ps with
        | error e' =>
            rw [hrest] at h
            cases h
            exact ih hrest
        | ok rest =>
            rw [hrest] at h
            cases h
      · cases h
        rfl

/-- Procedures fail with the rejection of the first one that is rejected. -/
theorem ends_selectRoutines {supply : Supply} (hlabels : ∀ p ∈ ps, ∀ l ∈ p.labels, l.Plain)
    (hsupply : ∀ p ∈ ps, p.frame.fp.number < supply.next) :
    Ends (rejection? ps) (selectRoutines supply ps).outcome := by
  induction ps generalizing supply with
  | nil => exact .inr ⟨_, rfl⟩
  | cons p ps ih =>
      rw [List.forall_mem_cons] at hlabels hsupply
      have hbody : Select.Ends p.frame.fp p.rejection? (Select.procedure p) :=
        Select.ends_stmts fun st hst => Procedure.plain_of_mem_body hlabels.1 hst
      rw [selectRoutines, Procedure.select, rejection?, List.findSome?_cons]
      rcases hbody hsupply.1 with ⟨rest, herror⟩ | hend
      · rw [show (Select.procedure p).run supply = _ from herror]
        exact .inl rfl
      · cases hrejection : p.rejection? with
        | some e =>
            rw [hrejection] at hend
            obtain ⟨rest, herror⟩ := hend
            rw [show (Select.procedure p).run supply = _ from herror]
            exact .inr rfl
        | none =>
            rw [hrejection] at hend
            obtain ⟨is, rest, hok, hle⟩ := hend
            -- The other procedures go on with what is left of the supply.
            have hothers := ih hlabels.2 fun q hq => Nat.lt_of_lt_of_le (hsupply.2 q hq) hle
            rw [show (Select.procedure p).run supply = _ from hok]
            simp only [Logged.outcome_bind]
            exact hothers.cons (p.toRoutine is)

/-- Selection fails with the first statement that cannot be expressed, as long
as there are temporaries. -/
theorem ends_select (hlabels : ∀ p ∈ ps, ∀ l ∈ p.labels, l.Plain) :
    Ends (rejection? ps) (select ps).outcome := by
  rw [select, Logged.outcome_bind, Logged.outcome_ofExcept]
  cases hfirst : firstSupply ps with
  | error e =>
      rw [exhausted_of_firstSupply hfirst]
      exact .inl rfl
  | ok supply =>
      refine ends_selectRoutines hlabels fun p hp => ?_
      exact lt_of_firstSupply hfirst p hp _ (List.mem_append_right _ List.mem_cons_self)

/-- The rejection of a program is that of one of its statements. -/
theorem exists_stmt_of_rejection? (h : rejection? ps = some e) :
    ∃ p ∈ ps, ∃ st ∈ p.body, st.rejection? p.frame.fp = some e := by
  obtain ⟨p, hp, h⟩ := List.exists_of_findSome?_eq_some h
  exact ⟨p, hp, List.exists_of_findSome?_eq_some h⟩

/-- A program is rejected just if one of its statements cannot be expressed. -/
theorem isSome_rejection?_iff :
    (rejection? ps).isSome ↔ ∃ p ∈ ps, ∃ st ∈ p.body, st.Unsupported p.frame.fp := by
  simp only [rejection?, Procedure.rejection?, List.findSome?_isSome_iff,
    Stmt.isSome_rejection?_iff]

/-- Selection fails only if the tree code cannot be expressed or no temporary is left. -/
theorem rejects_of_select (hlabels : ∀ p ∈ ps, ∀ l ∈ p.labels, l.Plain)
    (h : (select ps).outcome = .error e) : e.Rejects := by
  have hends := ends_select hlabels
  rw [h] at hends
  rcases hends with hexhausted | hend
  · cases hexhausted
    exact .inr rfl
  · cases hfirst : rejection? ps with
    | none =>
        rw [hfirst] at hend
        obtain ⟨program, hok⟩ := hend
        cases hok
    | some e' =>
        rw [hfirst] at hend
        cases hend
        obtain ⟨p, -, st, -, hst⟩ := exists_stmt_of_rejection? hfirst
        exact .inl (Stmt.category_of_rejection? hst)

/-! ### The first statement that cannot be expressed -/

/-- Selection that does not run out of temporaries fails exactly if some statement moves
something into what is neither a temporary nor memory or into the frame pointer. The first
such statement is the one that is reported. -/
theorem select_fails_at_first_unsupported (hlabels : ∀ p ∈ ps, ∀ l ∈ p.labels, l.Plain)
    (hroom : (select ps).outcome ≠ .error .temporariesExhausted) :
    ((∃ e, (select ps).outcome = .error e) ↔
        ∃ p ∈ ps, ∃ st ∈ p.body, st.Unsupported p.frame.fp) ∧
      ∀ e, (select ps).outcome = .error e → rejection? ps = some e ∧ e.category = .unsupported := by
  have hend := (ends_select hlabels).resolve_left hroom
  rw [← isSome_rejection?_iff]
  cases hfirst : rejection? ps with
  | none =>
      rw [hfirst] at hend
      obtain ⟨program, hok⟩ := hend
      rw [hok]
      simp
  | some e =>
      rw [hfirst] at hend
      replace hend : (select ps).outcome = .error e := hend
      obtain ⟨p, -, st, -, hst⟩ := exists_stmt_of_rejection? hfirst
      have hcategory := Stmt.category_of_rejection? hst
      rw [hend]
      simp [hcategory]

/-- A procedure whose frame pointer is written by the next one, which may do so, and that next
procedure, which then writes its own. -/
def crossedFrames : List Procedure := [
  { frame := ⟨⟨"outer"⟩, 0, 8, 0, 0, ⟨0⟩, ⟨1⟩⟩
    entry := ⟨"outer"⟩
    exit := ⟨"outer.exit"⟩
    body := [
      .move (.mem (.binary .sub (.temp ⟨0⟩) (.const 8))) (.call ⟨"inner"⟩ [.temp ⟨0⟩]),
      .jump ⟨"outer.exit"⟩] },
  { frame := ⟨⟨"inner"⟩, 1, 0, 8, 0, ⟨2⟩, ⟨3⟩⟩
    entry := ⟨"inner"⟩
    exit := ⟨"inner.exit"⟩
    body := [
      .move (.temp ⟨0⟩) (.binary .add (.temp ⟨2⟩) (.const 300)),
      .move (.temp ⟨2⟩) (.call ⟨"outer"⟩ []),
      .move (.const 7) (.temp ⟨0⟩)] }]

/-- The write of a procedure to its own frame pointer is reported, and not the one to another
frame pointer before it nor the bad destination after it. -/
theorem crossedFrames_fails :
    rejection? crossedFrames = some (.framePointerWritten ⟨2⟩) ∧
      (select crossedFrames).outcome = .error (.framePointerWritten ⟨2⟩) := by
  have hlabels : ∀ p ∈ crossedFrames, ∀ l ∈ p.labels, l.Plain := by decide
  have hroom : (select crossedFrames).outcome ≠ .error .temporariesExhausted := by
    intro h
    have hcategory : ((select crossedFrames).outcome.mapError Failure.category).map (fun _ => ()) =
        .error .unsupported := by
      decide +kernel
    rw [h] at hcategory
    cases hcategory
  obtain ⟨hfails, hfirst⟩ := select_fails_at_first_unsupported hlabels hroom
  obtain ⟨e, he⟩ := hfails.mpr (isSome_rejection?_iff.mp rfl)
  obtain ⟨hsome, -⟩ := hfirst e he
  cases hsome
  exact ⟨rfl, he⟩

end Program

end MmixCodegen
