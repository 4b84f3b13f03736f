import MmixCodegen.Proofs.Select.Stmt

/-!
# `MmixCodegen.Proofs.Select.Confined`: selected code reads what it wrote

The code of a statement reads the temporaries of the statement and those that it wrote itself
before. So a temporary that was made for a statement is written in its code before it is read
there. `Confined` says this of instructions for which the supply went from `first` to `last`,
relative to the temporaries that are known at first. `Provides` adds that a value is known in the
end. Code that follows other code may read all that was written there, which is `Learned`
(`Confined.append`).

There is one lemma for each function that selects instructions; `provides_expr` and
`confined_args` follow their recursion. The frame pointer is named by its register and needs not
be known. Nothing is asked of labels, so the text of the instructions does not matter here.
-/

set_option autoImplicit false

namespace MmixCodegen

/-- As long as no live sets are known, an instruction mentions its operands only. -/
theorem Instr.temps_of_live {i : Instr} (h : i.live = .none) : i.temps = i.operands := by
  simp [temps, h, Live.none]

namespace Select

variable {known : Temp → Prop} {first mid last : Nat} {is js : List Instr} {t : Temp}

/-- What is known behind some instructions, given what is known in front of them. -/
def Learned (known : Temp → Prop) (is : List Instr) (t : Temp) : Prop :=
  known t ∨ ∃ i ∈ is, t ∈ i.defs

/-- Each instruction reads what is known when it is reached. -/
def Sourced (known : Temp → Prop) (is : List Instr) : Prop :=
  ∀ index i, is[index]? = some i → ∀ t ∈ i.uses, Learned known (is.take index) t

/-- What is learned from code in two parts is learned part by part. -/
theorem learned_append :
    Learned known (is ++ js) t ↔ Learned (Learned known is) js t := by
  simp only [Learned, List.mem_append, or_and_right, exists_or, or_assoc]

/-- Code that follows other code may read what was written there. -/
theorem Sourced.append (his : Sourced known is) (hjs : Sourced (Learned known is) js) :
    Sourced known (is ++ js) := by
  intro index i hi t ht
  by_cases hlt : index < is.length
  · rw [List.getElem?_append_left hlt] at hi
    rw [List.take_append_of_le_length (Nat.le_of_lt hlt)]
    exact his index i hi t ht
  · have hle : is.length ≤ index := Nat.le_of_not_lt hlt
    rw [List.getElem?_append_right hle] at hi
    rw [List.take_append, List.take_of_length_le hle, learned_append]
    exact hjs _ i hi t ht

/-- Instructions for which the supply went from `first` to `last`. -/
structure Confined (known : Temp → Prop) (first last : Nat) (is : List Instr) : Prop where
  le : first ≤ last
  /-- They set no labels, and their live sets are not known yet. -/
  bare : ∀ i ∈ is, i.label? = none ∧ i.live = .none
  sourced : Sourced known is
  written : ∀ i ∈ is, ∀ t ∈ i.defs, known t ∨ (first ≤ t.number ∧ t.number < last)

namespace Confined

/-- Instructions none of which needs another one. -/
theorem of_forall (hle : first ≤ last) (hbare : ∀ i ∈ is, i.label? = none ∧ i.live = .none)
    (huses : ∀ i ∈ is, ∀ t ∈ i.uses, known t)
    (hdefs : ∀ i ∈ is, ∀ t ∈ i.defs, known t ∨ (first ≤ t.number ∧ t.number < last)) :
    Confined known first last is where
  le := hle
  bare := hbare
  sourced := fun _ i hi t ht => .inl (huses i (List.mem_of_getElem? hi) t ht)
  written := hdefs

/-- An instruction that reads what is known may stand by itself. -/
theorem singleton {i : Instr} (hle : first ≤ last) (hbare : i.label? = none ∧ i.live = .none)
    (huses : ∀ t ∈ i.uses, known t)
    (hdefs : ∀ t ∈ i.defs, known t ∨ (first ≤ t.number ∧ t.number < last)) :
    Confined known first last [i] :=
  .of_forall hle (List.forall_mem_singleton.mpr hbare) (List.forall_mem_singleton.mpr huses)
    (List.forall_mem_singleton.mpr hdefs)

/-- No instructions read nothing. -/
theorem nil (first : Nat) : Confined known first first [] :=
  .of_forall (Nat.le_refl _) nofun nofun nofun

/-- Confined code may be followed by code that is confined relative to what was learned. -/
theorem append (his : Confined known first mid is) (hjs : Confined (Learned known is) mid last js) :
    Confined known first last (is ++ js) where
  le := Nat.le_trans his.le hjs.le
  bare := List.forall_mem_append.mpr ⟨his.bare, hjs.bare⟩
  sourced := his.sourced.append hjs.sourced
  written := by
    have hfirst := his.le
    have hlast := hjs.le
    have his' : ∀ i ∈ is, ∀ t ∈ i.defs, known t ∨ (first ≤ t.number ∧ t.number < last) :=
      fun i hi t ht => (his.written i hi t ht).imp_right fun hnew => by omega
    refine List.forall_mem_append.mpr ⟨his', fun i hi t ht => ?_⟩
    -- What the second part knows was known before, or the first part wrote it.
    rcases hjs.written i hi t ht with (hknown | ⟨j, hj, hdef⟩) | hnew
    · exact .inl hknown
    · exact his' j hj t hdef
    · exact .inr (by omega)

/-- What is learned was known before, or it was made for these instructions. -/
theorem of_learned (h : Confined known first last is) (ht : Learned known is t) :
    known t ∨ (first ≤ t.number ∧ t.number < last) := by
  rcases ht with hknown | ⟨i, hi, hdef⟩
  · exact .inl hknown
  · exact h.written i hi t hdef

/-- The operands of confined code are known, or were drawn from the supply. -/
theorem mem_operands (h : Confined known first last is) {i : Instr} (hi : i ∈ is)
    (ht : t ∈ i.operands) : known t ∨ (first ≤ t.number ∧ t.number < last) := by
  rcases List.mem_append.mp ht with huse | hdef
  · obtain ⟨index, hindex⟩ := List.mem_iff_getElem?.mp hi
    refine h.of_learned ((h.sourced index i hindex t huse).imp_right ?_)
    rintro ⟨j, hj, hdef⟩
    exact ⟨j, List.mem_of_mem_take hj, hdef⟩
  · exact h.written i hi t hdef

end Confined

/-- Instructions behind which a value is known. -/
structure Provides (fp : Temp) (known : Temp → Prop) (first last : Nat) (is : List Instr)
    (t : Temp) : Prop extends Confined known first last is where
  learned : t ≠ fp → Learned known is t

namespace Provides

variable {fp : Temp}

/-- A value may be provided by code behind other code. -/
theorem append (his : Confined known first mid is)
    (hjs : Provides fp (Learned known is) mid last js t) :
    Provides fp known first last (is ++ js) t where
  toConfined := his.append hjs.toConfined
  learned := fun ht => learned_append.mpr (hjs.learned ht)

/-- What is known stays known. -/
theorem extend (his : Provides fp known first mid is t)
    (hjs : Confined (Learned known is) mid last js) :
    Provides fp known first last (is ++ js) t where
  toConfined := his.toConfined.append hjs
  learned := fun ht => learned_append.mpr (.inl (his.learned ht))

/-- The value may be the one operand of an operation. -/
theorem operand (h : Provides fp known first last is t) :
    ∀ u ∈ [t], u ≠ fp → Learned known is u :=
  List.forall_mem_singleton.mpr h.learned

end Provides

/-! ### Operations -/

variable {fp : Temp} {s rest : Supply}

/-- What is emitted for an operation on known temporaries. -/
theorem confined_emit {o : Operation} {i : Instr} (h : emit fp o s = .ok i rest)
    (huses : ∀ t ∈ o.uses, t ≠ fp → known t)
    (hdefs : ∀ t ∈ o.defs, t ≠ fp → known t ∨ (first ≤ t.number ∧ t.number < s.next))
    (hle : first ≤ s.next) : Confined known first s.next [i] ∧ i.defs = o.defs ∧ rest = s := by
  obtain ⟨hfp, rfl, template, rfl⟩ := operands_of_emit h
  refine ⟨.singleton hle ⟨rfl, rfl⟩ ?_ ?_, rfl, rfl⟩
  · intro t ht
    -- The frame pointer is not among the operands that are left.
    obtain ⟨huse, hne⟩ : t ∈ o.uses ∧ t ≠ fp := by simpa using List.mem_filter.mp ht
    exact huses t huse hne
  · intro t ht
    refine hdefs t ht ?_
    rintro rfl
    exact hfp ht

/-- An operation that writes a new temporary. -/
theorem provides_emit {o : Operation} {i : Instr} (h : emit fp o ⟨s.next + 1⟩ = .ok i rest)
    (huses : ∀ t ∈ o.uses, t ≠ fp → known t) (hdefs : o.defs = [⟨s.next⟩]) :
    Provides fp known s.next (s.next + 1) [i] ⟨s.next⟩ ∧ rest = ⟨s.next + 1⟩ := by
  obtain ⟨hconfined, hdefs', hrest⟩ := confined_emit h huses
    (by simp [hdefs]) (Nat.le_succ s.next)
  exact ⟨⟨hconfined, fun _ => .inr ⟨i, List.mem_singleton_self i, by simp [hdefs', hdefs]⟩⟩, hrest⟩

/-- Operations that write known temporaries. -/
theorem confined_mapM_emit {os : List Operation} (h : os.mapM (emit fp) s = .ok is rest)
    (huses : ∀ o ∈ os, ∀ t ∈ o.uses, t ≠ fp → known t)
    (hdefs : ∀ o ∈ os, ∀ t ∈ o.defs, t ≠ fp → known t) :
    Confined known s.next s.next is ∧ rest = s := by
  induction os generalizing known s is with
  | nil =>
      obtain ⟨rfl, rfl⟩ := pure_eq_ok.mp h
      exact ⟨.nil _, rfl⟩
  | cons o os ih =>
      rw [List.forall_mem_cons] at huses hdefs
      obtain ⟨i, mid, js, hi, hjs, rfl⟩ := mapM_cons_eq_ok.mp h
      obtain ⟨hhead, -, rfl⟩ := confined_emit hi huses.1
        (fun t ht hne => .inl (hdefs.1 t ht hne)) (Nat.le_refl _)
      obtain ⟨htail, rfl⟩ : Confined (Learned known [i]) _ _ js ∧ rest = _ :=
        ih hjs (fun o ho t ht hne => .inl (huses.2 o ho t ht hne))
          (fun o ho t ht hne => .inl (hdefs.2 o ho t ht hne))
      exact ⟨hhead.append htail, rfl⟩

/-- A copy reads its source and writes its destination. -/
theorem confined_emitCopy {dst src : Temp} {i : Instr} (h : emitCopy fp dst src s = .ok i rest)
    (hsrc : src ≠ fp → known src)
    (hdst : dst ≠ fp → known dst ∨ (first ≤ dst.number ∧ dst.number < s.next))
    (hle : first ≤ s.next) : Confined known first s.next [i] ∧ i.defs = [dst] ∧ rest = s := by
  obtain ⟨hne, rfl, hrest⟩ := emitCopy_eq_ok.mp h
  have hdefs : ∀ t ∈ [dst], known t ∨ (first ≤ t.number ∧ t.number < s.next) :=
    List.forall_mem_singleton.mpr (hdst hne)
  by_cases hfp : src = fp
  · -- The copy reads a register instead.
    rw [if_pos hfp]
    exact ⟨.singleton hle ⟨rfl, rfl⟩ (List.forall_mem_nil _) hdefs, rfl, hrest⟩
  · rw [if_neg hfp]
    have huses : ∀ t ∈ [src], known t := List.forall_mem_singleton.mpr (hsrc hfp)
    exact ⟨.singleton hle ⟨rfl, rfl⟩ huses hdefs, rfl, hrest⟩

/-- Loading a constant provides its destination. -/
theorem provides_loadConstant (v : UInt64) :
    Provides fp known s.next (s.next + 1) ((Operation.loadConstant ⟨s.next⟩ v).map Operation.instr)
      ⟨s.next⟩ := by
  obtain ⟨group, n, os, heq, -, hos⟩ := Operation.loadConstant_eq_cons ⟨s.next⟩ v
  rw [heq, List.map_cons, ← List.singleton_append]
  have hset : Provides fp known s.next (s.next + 1) [(Operation.set group ⟨s.next⟩ n).instr]
      ⟨s.next⟩ := by
    have hwrites : ⟨s.next⟩ ∈ (Operation.set group ⟨s.next⟩ n).instr.defs :=
      List.mem_singleton_self _
    refine ⟨.singleton (Nat.le_succ _) ⟨rfl, rfl⟩ (List.forall_mem_nil _) ?_,
      fun _ => .inr ⟨_, List.mem_singleton_self _, hwrites⟩⟩
    intro t ht
    cases List.mem_singleton.mp ht
    exact .inr ⟨Nat.le_refl _, Nat.lt_succ_self _⟩
  -- From then on the temporary is known.
  have hknown : ∀ o ∈ os, ∀ t, t ∈ o.uses ∨ t ∈ o.defs →
      Learned known [(Operation.set group ⟨s.next⟩ n).instr] t := by
    intro o ho t ht
    obtain ⟨_, _, rfl, -⟩ := hos o ho
    cases List.mem_singleton.mp (or_self_iff.mp ht)
    exact .inr ⟨_, List.mem_singleton_self _, List.mem_singleton_self _⟩
  refine hset.extend (.of_forall (Nat.le_refl _) ?_ ?_ ?_) <;> rw [List.forall_mem_map]
  · exact fun o _ => ⟨rfl, rfl⟩
  · exact fun o ho t ht => hknown o ho t (.inl ht)
  · exact fun o ho t ht => .inl (hknown o ho t (.inr ht))

/-- The instructions of a constant provide its value. -/
theorem provides_constant {value : Int64} (h : constant fp value s = .ok (is, t) rest) :
    Provides fp known s.next rest.next is t := by
  obtain ⟨-, rfl, h⟩ := constant_eq_ok.mp h
  split at h
  · obtain ⟨i, hi, rfl⟩ := h
    have hload : Provides fp known s.next (s.next + 1) _ _ :=
      provides_loadConstant (-value).toUInt64
    obtain ⟨hneg, -, rfl⟩ := confined_emit hi hload.operand
      (fun t ht hne => .inl (hload.operand t ht hne)) (Nat.le_refl _)
    exact hload.extend hneg
  · obtain ⟨rfl, rfl⟩ := h
    exact provides_loadConstant value.toUInt64

/-- An operation with a small number provides its value. -/
theorem provides_applyShortcut {lhs : Temp} {sc : Shortcut}
    (h : applyShortcut fp lhs sc s = .ok (is, t) rest) (hlhs : lhs ≠ fp → known lhs) :
    Provides fp known s.next rest.next is t := by
  cases sc with
  | same =>
      obtain ⟨-, rfl, i, hi, rfl⟩ := applyShortcut_same_eq_ok.mp h
      obtain ⟨hcopy, hdefs, rfl⟩ := confined_emitCopy hi hlhs
        (fun _ => .inr ⟨Nat.le_refl _, Nat.lt_succ_self _⟩) (Nat.le_succ s.next)
      exact ⟨hcopy, fun _ => .inr ⟨i, List.mem_singleton_self i, by simp [hdefs]⟩⟩
  | number m n =>
      obtain ⟨-, rfl, i, hi, rfl⟩ := applyShortcut_number_eq_ok.mp h
      obtain ⟨hop, rfl⟩ := provides_emit hi (List.forall_mem_singleton.mpr hlhs) rfl
      exact hop

/-- A load provides its value. -/
theorem provides_loadAt {base : Temp} {offset : Int}
    (h : loadAt fp base offset s = .ok (is, t) rest)
    (hbase : base ≠ fp → known base) : Provides fp known s.next rest.next is t := by
  obtain ⟨-, rfl, h⟩ := loadAt_eq_ok.mp h
  split at h
  · obtain ⟨i, hi, rfl⟩ := h
    obtain ⟨hload, rfl⟩ := provides_emit hi (List.forall_mem_singleton.mpr hbase) rfl
    exact hload
  · obtain ⟨i, mid, j, hi, hj, rfl⟩ := h
    obtain ⟨hsub, rfl⟩ := provides_emit hi (List.forall_mem_singleton.mpr hbase) rfl
    obtain ⟨hload, -, rfl⟩ := confined_emit hj hsub.operand
      (fun t ht hne => .inl (hsub.operand t ht hne)) (Nat.le_refl _)
    exact hsub.extend hload

/-- Storing an argument reads its value, and an offset that was loaded before. -/
theorem confined_storeArg {value : Temp} {index : Nat} (h : storeArg fp value index s = .ok is rest)
    (hvalue : value ≠ fp → known value) : Confined known s.next rest.next is := by
  replace h := storeArg_eq_ok.mp h
  split at h
  · obtain ⟨i, hi, rfl⟩ := h
    obtain ⟨hstore, -, rfl⟩ := confined_emit hi (List.forall_mem_singleton.mpr hvalue)
      (List.forall_mem_nil _) (Nat.le_refl _)
    exact hstore
  · obtain ⟨-, i, hi, rfl⟩ := h
    have hload : Provides fp known s.next (s.next + 1) _ _ :=
      provides_loadConstant (UInt64.ofNat (8 * index))
    have huses : ∀ t ∈ [value, ⟨s.next⟩], t ≠ fp → Learned known _ t :=
      List.forall_mem_cons.mpr
        ⟨fun hne => .inl (hvalue hne), List.forall_mem_singleton.mpr hload.learned⟩
    obtain ⟨hstore, -, rfl⟩ := confined_emit hi huses (List.forall_mem_nil _) (Nat.le_refl _)
    exact hload.toConfined.append hstore

/-- The first operation of an operator reads the operands alone. -/
theorem binaryOperations_eq_cons (op : BinaryOp) (dst lhs rhs : Temp) :
    ∃ o os, binaryOperations op dst lhs rhs = o :: os ∧ o.uses = [lhs, rhs] := by
  cases op <;> exact ⟨_, _, rfl, rfl⟩

/-- The operations of a binary operator provide its value. If there are two, the second one
reads what the first one wrote. -/
theorem provides_binaryOperations {op : BinaryOp} {lhs rhs : Temp}
    (h : (binaryOperations op ⟨s.next⟩ lhs rhs).mapM (emit fp) ⟨s.next + 1⟩ = .ok is rest)
    (hlhs : lhs ≠ fp → known lhs) (hrhs : rhs ≠ fp → known rhs) :
    Provides fp known s.next (s.next + 1) is ⟨s.next⟩ ∧ rest = ⟨s.next + 1⟩ := by
  obtain ⟨o, os, heq, huses⟩ := binaryOperations_eq_cons op ⟨s.next⟩ lhs rhs
  have hall : ∀ o ∈ binaryOperations op ⟨s.next⟩ lhs rhs,
      (∀ t ∈ o.uses, t = ⟨s.next⟩ ∨ t = lhs ∨ t = rhs) ∧ o.defs = [⟨s.next⟩] :=
    fun o ho => (mem_binaryOperations ho).2.2
  rw [heq] at h hall
  rw [List.forall_mem_cons] at hall
  obtain ⟨i, mid, js, hi, hjs, rfl⟩ := mapM_cons_eq_ok.mp h
  obtain ⟨hhead, rfl⟩ : Provides fp known s.next (s.next + 1) [i] ⟨s.next⟩ ∧ mid = _ :=
    provides_emit hi (by simpa [huses] using ⟨hlhs, hrhs⟩) hall.1.2
  -- The second operation may read the result of the first one.
  obtain ⟨htail, hrest⟩ : Confined (Learned known [i]) (s.next + 1) (s.next + 1) js ∧ rest = _ := by
    refine confined_mapM_emit hjs (fun o ho t ht hne => ?_) fun o ho t ht hne => ?_
    · rcases (hall.2 o ho).1 t ht with rfl | rfl | rfl
      · exact hhead.learned hne
      · exact .inl (hlhs hne)
      · exact .inl (hrhs hne)
    · rw [(hall.2 o ho).2] at ht
      cases List.mem_singleton.mp ht
      exact hhead.learned hne
  exact ⟨hhead.extend htail, hrest⟩

/-! ### Expressions -/

/-- What is selected for an expression whose temporaries are known. -/
def ProvidesValue (fp : Temp) (e : Expr) : Prop :=
  ∀ ⦃known : Temp → Prop⦄ ⦃s rest : Supply⦄ ⦃is : List Instr⦄ ⦃t : Temp⦄,
    (∀ u ∈ e.temps, u ≠ fp → known u) → expr fp e s = .ok (is, t) rest →
      Provides fp known s.next rest.next is t

/-- What is selected for arguments whose temporaries are known. -/
def ConfinesArgs (fp : Temp) (index : Nat) (es : List Expr) : Prop :=
  ∀ ⦃known : Temp → Prop⦄ ⦃s rest : Supply⦄ ⦃is : List Instr⦄,
    (∀ u ∈ Expr.argTemps es, u ≠ fp → known u) → args fp index es s = .ok is rest →
      Confined known s.next rest.next is

/-- The case of binary operators, with and without a constant on the right. -/
theorem provides_binary {op : BinaryOp} {lhs rhs : Expr} (hlhs : ProvidesValue fp lhs)
    (hrhs : ProvidesValue fp rhs) : ProvidesValue fp (.binary op lhs rhs) := by
  intro known s rest is t htemps h
  rw [Expr.temps, List.forall_mem_append] at htemps
  obtain ⟨is, left, mid, hleft, h⟩ := expr_binary_eq_ok.mp h
  have his := hlhs htemps.1 hleft
  rcases h with ⟨sc, js, -, hjs, rfl⟩ | ⟨js, right, next, ks, -, hright, -, rfl, hks, rfl⟩
  · exact .append his.toConfined (provides_applyShortcut hjs his.learned)
  · have hjs : Provides fp (Learned known is) _ _ js right :=
      hrhs (fun u hu hne => .inl (htemps.2 u hu hne)) hright
    obtain ⟨hops, rfl⟩ := provides_binaryOperations hks
      (fun hne => .inl (his.learned hne)) hjs.learned
    rw [List.append_assoc]
    exact .append his.toConfined (.append hjs.toConfined hops)

/-- The case of calls. -/
theorem provides_call {l : Label} {es : List Expr} (hes : ConfinesArgs fp 0 es) :
    ProvidesValue fp (.call l es) := by
  intro known s rest is t htemps h
  obtain ⟨is, mid, i, next, j, his, hi, -, rfl, hj, rfl⟩ := expr_call_eq_ok.mp h
  obtain ⟨hcall, -, rfl⟩ := confined_emit hi (List.forall_mem_nil _) (List.forall_mem_nil _)
    (Nat.le_refl _)
  obtain ⟨hload, rfl⟩ := provides_emit hj (List.forall_mem_nil _) rfl
  exact .append (hes htemps his) (.append hcall hload)

/-- The case of unary operators. -/
theorem provides_unary {op : UnaryOp} {e : Expr} (he : ProvidesValue fp e) :
    ProvidesValue fp (.unary op e) := by
  intro known s rest is t htemps h
  obtain ⟨is, src, mid, i, hsrc, -, rfl, hi, rfl⟩ := expr_unary_eq_ok.mp h
  have his := he htemps hsrc
  have huses : (unaryOperation op ⟨mid.next⟩ src).uses = [src] := by cases op <;> rfl
  have hdefs : (unaryOperation op ⟨mid.next⟩ src).defs = [⟨mid.next⟩] := by cases op <;> rfl
  obtain ⟨hop, rfl⟩ := provides_emit hi (huses ▸ List.forall_mem_singleton.mpr his.learned) hdefs
  exact .append his.toConfined hop

/-- Expressions and arguments together, along their recursion. -/
theorem provides_mutual (fp : Temp) :
    (∀ e, ProvidesValue fp e) ∧ ∀ index es, ConfinesArgs fp index es := by
  refine expr_induct ?const ?address ?temp ?mem (fun op e => provides_unary)
    (fun op lhs rhs => provides_binary) (fun l es => provides_call) ?nil ?cons
  case const =>
    intro value known s rest is t _ h
    rw [expr] at h
    exact provides_constant h
  case address =>
    intro l known s rest is t _ h
    obtain ⟨-, rfl, i, hi, rfl⟩ := expr_address_eq_ok.mp h
    obtain ⟨hload, rfl⟩ := provides_emit hi (List.forall_mem_nil _) rfl
    exact hload
  case temp =>
    intro t known s rest is u htemps h
    obtain ⟨rfl, rfl, rfl⟩ := expr_temp_eq_ok.mp h
    exact ⟨.nil _, fun hne => .inl (htemps u (List.mem_singleton_self u) hne)⟩
  case mem =>
    intro addr ih known s rest is t htemps h
    obtain ⟨is, base, mid, js, hbase, hload, rfl⟩ := expr_mem_eq_ok.mp h
    -- An address with a constant offset is not selected itself, only its base is.
    have his := ih (fun u hu => htemps u ((displaced_folded addr).temps u hu)) hbase
    exact .append his.toConfined (provides_loadAt hload his.learned)
  case nil =>
    intro index known s rest is _ h
    obtain ⟨rfl, rfl⟩ := args_nil_eq_ok.mp h
    exact .nil _
  case cons =>
    intro index e es ihe ihes known s rest is htemps h
    rw [Expr.argTemps, List.forall_mem_append] at htemps
    obtain ⟨is, value, mid, js, next, ks, hvalue, hjs, hks, rfl⟩ := args_cons_eq_ok.mp h
    have his := ihe htemps.1 hvalue
    rw [List.append_assoc]
    exact his.toConfined.append ((confined_storeArg hjs his.learned).append
      (ihes (fun u hu hne => Or.inl (Or.inl (htemps.2 u hu hne))) hks))

/-- The code of an expression reads what is known or was written by it, and provides its value. -/
theorem provides_expr {e : Expr} (htemps : ∀ u ∈ e.temps, u ≠ fp → known u)
    (h : expr fp e s = .ok (is, t) rest) : Provides fp known s.next rest.next is t :=
  (provides_mutual fp).1 e htemps h

/-- The code of arguments reads what is known or was written by it. -/
theorem confined_args {index : Nat} {es : List Expr}
    (htemps : ∀ u ∈ Expr.argTemps es, u ≠ fp → known u) (h : args fp index es s = .ok is rest) :
    Confined known s.next rest.next is :=
  (provides_mutual fp).2 index es htemps h

/-! ### Statements -/

/-- The code of a call without its result reads what is known or was written by it. -/
theorem confined_call {l : Label} {es : List Expr}
    (htemps : ∀ u ∈ Expr.argTemps es, u ≠ fp → known u) (h : call fp l es s = .ok is rest) :
    Confined known s.next rest.next is := by
  obtain ⟨is, mid, i, his, hi, rfl⟩ := call_eq_ok.mp h
  obtain ⟨hcall, -, rfl⟩ := confined_emit hi (List.forall_mem_nil _) (List.forall_mem_nil _)
    (Nat.le_refl _)
  exact (confined_args htemps his).append hcall

/-- The code of an assignment reads what is known or was written by it. -/
theorem confined_assign {dst : Temp} {src : Expr} (hdst : dst ≠ fp → known dst)
    (htemps : ∀ u ∈ src.temps, u ≠ fp → known u) (h : assign fp dst src s = .ok is rest) :
    Confined known s.next rest.next is := by
  obtain ⟨hne, ⟨l, es, is, mid, i, rfl, his, hi, rfl⟩ | ⟨is, value, mid, i, -, hvalue, hi, rfl⟩⟩ :=
    assign_eq_ok.mp h
  · obtain ⟨hload, -, rfl⟩ : Confined (Learned known is) _ _ [i] ∧ _ :=
      confined_emit hi (List.forall_mem_nil _)
        (List.forall_mem_singleton.mpr fun _ => .inl (.inl (hdst hne))) (Nat.le_refl _)
    exact (confined_call htemps his).append hload
  · have his := provides_expr htemps hvalue
    obtain ⟨hcopy, -, rfl⟩ := confined_emitCopy hi his.learned (fun _ => .inl (.inl (hdst hne)))
      (Nat.le_refl _)
    exact his.toConfined.append hcopy

/-- The code of a store reads what is known or was written by it. -/
theorem confined_store {addr src : Expr} (haddr : ∀ u ∈ addr.temps, u ≠ fp → known u)
    (hsrc : ∀ u ∈ src.temps, u ≠ fp → known u) (h : store fp addr src s = .ok is rest) :
    Confined known s.next rest.next is := by
  obtain ⟨is, base, mid, hbase, h⟩ := store_eq_ok.mp h
  have his := provides_expr (fun u hu => haddr u ((displaced_folded addr).temps u hu)) hbase
  split at h
  · obtain ⟨js, value, next, i, hvalue, hi, rfl⟩ := h
    have hjs : Provides fp (Learned known is) _ _ js value :=
      provides_expr (fun u hu hne => .inl (hsrc u hu hne)) hvalue
    have huses : ∀ u ∈ [value, base], u ≠ fp → Learned (Learned known is) js u := by
      rw [List.forall_mem_cons, List.forall_mem_singleton]
      exact ⟨hjs.learned, fun hne => .inl (his.learned hne)⟩
    obtain ⟨hstore, -, rfl⟩ := confined_emit hi huses (List.forall_mem_nil _) (Nat.le_refl _)
    rw [List.append_assoc]
    exact his.toConfined.append (hjs.toConfined.append hstore)
  · -- The address is computed before the value, and the store reads both.
    obtain ⟨-, i, next, js, value, last, j, hi, hvalue, hj, rfl⟩ := h
    obtain ⟨hsub, rfl⟩ : Provides fp (Learned known is) mid.next (mid.next + 1) [i] _ ∧ _ :=
      provides_emit hi (List.forall_mem_singleton.mpr his.learned) rfl
    have hjs : Provides fp (Learned (Learned known is) [i]) _ _ js value :=
      provides_expr (fun u hu hne => .inl (.inl (hsrc u hu hne))) hvalue
    have huses : ∀ u ∈ [value, ⟨mid.next⟩], u ≠ fp →
        Learned (Learned (Learned known is) [i]) js u := by
      rw [List.forall_mem_cons, List.forall_mem_singleton]
      exact ⟨hjs.learned, fun hne => .inl (hsub.learned hne)⟩
    obtain ⟨hstore, -, rfl⟩ := confined_emit hj huses (List.forall_mem_nil _) (Nat.le_refl _)
    rw [List.append_assoc, List.append_assoc]
    exact his.toConfined.append (hsub.toConfined.append (hjs.toConfined.append hstore))

/-- The code of a statement: a label, or instructions that do not set labels. -/
inductive Part (known : Temp → Prop) (first last : Nat) : List Instr → Prop
  | label (le : first ≤ last) (l : Label) : Part known first last [.ofKind (.label l)]
  | code {is : List Instr} (confined : Confined known first last is) : Part known first last is

namespace Part

/-- The supply does not go down. -/
theorem le (h : Part known first last is) : first ≤ last := by
  cases h with
  | label le => exact le
  | code confined => exact confined.le

/-- More of the supply may have been drawn. -/
theorem widen (h : Part known first last is) {first' last' : Nat} (hfirst : first' ≤ first)
    (hlast : last ≤ last') : Part known first' last' is := by
  cases h with
  | label le l => exact .label (Nat.le_trans hfirst (Nat.le_trans le hlast)) l
  | code confined =>
      refine .code { confined with le := ?_, written := fun i hi t ht => ?_ }
      · exact Nat.le_trans hfirst (Nat.le_trans confined.le hlast)
      · exact (confined.written i hi t ht).imp_right fun hnew =>
          ⟨Nat.le_trans hfirst hnew.1, Nat.lt_of_lt_of_le hnew.2 hlast⟩

/-- A part reads what is known or was written in it. -/
theorem sourced (h : Part known first last is) : Sourced known is := by
  cases h with
  | label le l =>
      intro index i hi t ht
      cases List.mem_singleton.mp (List.mem_of_getElem? hi)
      cases ht
  | code confined => exact confined.sourced

/-- The operands of a part are known, or were drawn from the supply. -/
theorem mem_operands (h : Part known first last is) {i : Instr} (hi : i ∈ is)
    (ht : t ∈ i.operands) : known t ∨ (first ≤ t.number ∧ t.number < last) := by
  cases h with
  | label le l =>
      cases List.mem_singleton.mp hi
      cases ht
  | code confined => exact confined.mem_operands hi ht

/-- A part carries no live sets yet. -/
theorem live_eq_none (h : Part known first last is) {i : Instr} (hi : i ∈ is) :
    i.live = .none := by
  cases h with
  | label le l =>
      cases List.mem_singleton.mp hi
      rfl
  | code confined => exact (confined.bare i hi).2

/-- A label is all there is in its part. -/
theorem eq_zero_of_label (h : Part known first last is) {index : Nat} {i : Instr} {l : Label}
    (hi : is[index]? = some i) (hl : i.label? = some l) : index = 0 := by
  cases h with
  | label le l => simpa using (List.getElem?_eq_some_iff.mp hi).1
  | code confined =>
      rw [(confined.bare i (List.mem_of_getElem? hi)).1] at hl
      cases hl

end Part

/-- The code of a statement is a part. -/
theorem part_of_stmt {st : Stmt} (htemps : ∀ u ∈ st.temps, u ≠ fp → known u)
    (h : stmt fp st s = .ok is rest) : Part known s.next rest.next is := by
  cases st with
  | move dst src =>
      rw [Stmt.temps, List.forall_mem_append] at htemps
      cases dst with
      | temp dst =>
          exact .code (confined_assign (htemps.1 dst (List.mem_singleton_self dst)) htemps.2 h)
      | mem addr =>
          rw [stmt] at h
          have haddr : ∀ u ∈ addr.temps, u ≠ fp → known u := htemps.1
          exact .code (confined_store haddr htemps.2 h)
      | _ => exact absurd h throw_ne_ok
  | branch cond pos neg =>
      obtain ⟨is, value, mid, i, hvalue, hi, rfl⟩ := stmt_branch_eq_ok.mp h
      have his : Provides fp known _ _ is value := provides_expr htemps hvalue
      obtain ⟨hjump, -, rfl⟩ := confined_emit hi his.operand (List.forall_mem_nil _) (Nat.le_refl _)
      exact .code (his.toConfined.append hjump)
  | jump target =>
      obtain ⟨i, hi, rfl⟩ := stmt_jump_eq_ok.mp h
      obtain ⟨hjump, -, rfl⟩ := confined_emit hi (List.forall_mem_nil _) (List.forall_mem_nil _)
        (Nat.le_refl _)
      exact .code hjump
  | label l =>
      obtain ⟨rfl, rfl⟩ := pure_eq_ok.mp h
      exact .label (Nat.le_refl _) l
  | eval e =>
      obtain ⟨l, es, rfl, h⟩ | ⟨-, value, hvalue⟩ := stmt_eval_eq_ok.mp h
      · exact .code (confined_call htemps h)
      · exact .code (provides_expr htemps hvalue).toConfined

/-- The code of a body is the code of its statements, one after the other. -/
theorem exists_mapM_stmt {body : List Stmt} (h : stmts fp body s = .ok is rest) :
    ∃ parts, body.mapM (stmt fp) s = .ok parts rest ∧ is = parts.flatten := by
  induction body generalizing s is with
  | nil =>
      obtain ⟨rfl, rfl⟩ := pure_eq_ok.mp h
      exact ⟨[], rfl, rfl⟩
  | cons st body ih =>
      obtain ⟨part, mid, others, hpart, hothers, rfl⟩ := stmts_cons_eq_ok.mp h
      obtain ⟨parts, hparts, rfl⟩ := ih hothers
      exact ⟨part :: parts, mapM_cons_eq_ok.mpr ⟨part, mid, parts, hpart, hparts, rfl⟩, rfl⟩

/-- The code of statements consists of parts. -/
theorem part_of_mem {body : List Stmt} {parts : List (List Instr)}
    (htemps : ∀ st ∈ body, ∀ u ∈ st.temps, u ≠ fp → known u)
    (h : body.mapM (stmt fp) s = .ok parts rest) :
    s.next ≤ rest.next ∧ ∀ part ∈ parts, Part known s.next rest.next part := by
  induction body generalizing s parts with
  | nil =>
      obtain ⟨rfl, rfl⟩ := pure_eq_ok.mp h
      exact ⟨Nat.le_refl _, nofun⟩
  | cons st body ih =>
      rw [List.forall_mem_cons] at htemps
      obtain ⟨part, mid, others, hpart, hothers, rfl⟩ := mapM_cons_eq_ok.mp h
      have hfirst : Part known _ _ part := part_of_stmt htemps.1 hpart
      obtain ⟨hle, hall⟩ := ih htemps.2 hothers
      -- Each part took a piece of what the body took from the supply.
      refine ⟨Nat.le_trans hfirst.le hle, List.forall_mem_cons.mpr ⟨?_, fun other hother => ?_⟩⟩
      · exact hfirst.widen (Nat.le_refl _) hle
      · exact (hall other hother).widen hfirst.le (Nat.le_refl _)

end Select

end MmixCodegen
