import MmixCodegen.Proofs.Select.Expr

/-!
# `MmixCodegen.Proofs.Select.Stmt`: what is selected for a statement

The instructions of a statement are `Instr.Selected`: those of expressions, jumps that
write nothing, and labels. `emitsAll_stmt` says so, together with the bounds on their
temporaries.

What they do is stated for statements without calls, one lemma for each kind:
`Agrees.assign`, `Agrees.store` and `computes_expr` for those that do not jump.
-/

set_option autoImplicit false

namespace MmixCodegen

/-- An instruction that is selected for a statement. -/
inductive Instr.Selected : Instr → Prop
  | sequential {i : Instr} (h : i.Sequential) : Selected i
  | jump {o : Operation} (proper : o.Proper) (defs : o.defs = []) (uses : o.uses.length ≤ 1) :
      Selected o.instr
  | label (l : Label) : Selected (.ofKind (.label l))

namespace Select

/-- Instructions of statements for which the supply went from `first` to `last`. They may
write any temporary that is no longer in the supply. -/
structure EmitsAll (P : Instr → Prop) (first last : Nat) (is : List Instr) : Prop where
  le : first ≤ last
  all : ∀ i ∈ is, P i
  below : ∀ i ∈ is, ∀ t ∈ i.operands, t.number < last

variable {P Q : Instr → Prop} {fp t : Temp} {s rest : Supply} {is js : List Instr}
  {first mid last : Nat}

/-- The instructions of an expression are instructions of a statement. -/
theorem Emits.toAll (h : Emits first last is) : EmitsAll Instr.Sequential first last is :=
  ⟨h.le, h.sequential, h.below⟩

/-- Less may be said about each instruction. -/
theorem EmitsAll.mono (h : EmitsAll P first last is) (hPQ : ∀ i, P i → Q i) :
    EmitsAll Q first last is :=
  ⟨h.le, fun i hi => hPQ i (h.all i hi), h.below⟩

/-- Lists that are joined have joined supplies. -/
theorem EmitsAll.append (his : EmitsAll P first mid is) (hjs : EmitsAll P mid last js) :
    EmitsAll P first last (is ++ js) where
  le := Nat.le_trans his.le hjs.le
  all := fun i hi => (List.mem_append.mp hi).elim (his.all i) (hjs.all i)
  below := by
    intro i hi t ht
    rcases List.mem_append.mp hi with hi | hi
    · exact Nat.lt_of_lt_of_le (his.below i hi t ht) hjs.le
    · exact hjs.below i hi t ht

/-! ### The instructions of a statement -/

/-- What is emitted for an operation that writes any temporary below the supply. -/
theorem emitsAll_emit {o : Operation} {i : Instr} (h : emit fp o s = .ok i rest) (ho : o.Proper)
    (hseq : o.Sequential) (huses : ∀ t ∈ o.uses, t.number < s.next)
    (hdefs : ∀ t ∈ o.defs, t.number < s.next) :
    EmitsAll Instr.Sequential s.next s.next [i] ∧ rest = s := by
  obtain ⟨hemits, hrest⟩ := emits_emit h ho hseq (Nat.zero_le _) huses
    fun t ht => ⟨Nat.zero_le _, hdefs t ht⟩
  exact ⟨⟨Nat.le_refl _, hemits.sequential, hemits.below⟩, hrest⟩

/-- A jump writes nothing and draws nothing from the supply. -/
theorem emitsAll_jump {o : Operation} {i : Instr} (h : emit fp o s = .ok i rest) (ho : o.Proper)
    (hdefs : o.defs = []) (huses : o.uses.length ≤ 1) (hbelow : ∀ t ∈ o.uses, t.number < s.next) :
    EmitsAll (fun i => i.Selected ∧ i.label? = none) s.next s.next [i] ∧ rest = s := by
  obtain ⟨hfp, rfl, hrest⟩ := (emit_eq_ok ho.toPlain).mp h
  refine ⟨⟨Nat.le_refl _, fun i hi => ?_, fun i hi t ht => ?_⟩, hrest⟩
  · cases List.mem_singleton.mp hi
    refine ⟨.jump (ho.inline hfp) ((Operation.defs_inline fp o).trans hdefs) ?_, rfl⟩
    rw [Operation.uses_inline hfp]
    exact Nat.le_trans (List.length_filter_le _ _) huses
  · cases List.mem_singleton.mp hi
    have ht : t ∈ (o.inline fp).uses ++ (o.inline fp).defs := ht
    rw [Operation.uses_inline hfp, Operation.defs_inline, hdefs, List.append_nil] at ht
    exact hbelow t (List.mem_of_mem_filter ht)

/-- The instructions of a call are sequential, since control comes back. -/
theorem emitsAll_call {l : Label} {es : List Expr} (hlabel : l.Plain)
    (hlabels : ∀ l ∈ Expr.argLabels es, l.Plain)
    (htemps : ∀ u ∈ Expr.argTemps es, u.number < s.next) (h : call fp l es s = .ok is rest) :
    EmitsAll Instr.Sequential s.next rest.next is := by
  obtain ⟨is, mid, i, his, hi, rfl⟩ := call_eq_ok.mp h
  have hargs := emits_args hlabels htemps his
  obtain ⟨hcall, rfl⟩ :=
    emitsAll_emit hi (Operation.proper_call hlabel) (Operation.sequential_of rfl rfl rfl)
    (List.forall_mem_nil _) (List.forall_mem_nil _)
  exact hargs.toAll.append hcall

/-- The instructions of an assignment are sequential. -/
theorem emitsAll_assign {dst : Temp} {src : Expr} (hlabels : ∀ l ∈ src.labels, l.Plain)
    (hdst : dst.number < s.next) (htemps : ∀ u ∈ src.temps, u.number < s.next)
    (h : assign fp dst src s = .ok is rest) : EmitsAll Instr.Sequential s.next rest.next is := by
  obtain ⟨-, ⟨l, es, is, mid, i, rfl, his, hi, rfl⟩ | ⟨is, value, mid, i, -, hvalue, hi, rfl⟩⟩ :=
    assign_eq_ok.mp h
  · rw [Expr.labels, List.forall_mem_cons] at hlabels
    have hcall := emitsAll_call hlabels.1 hlabels.2 htemps his
    have hdst := Nat.lt_of_lt_of_le hdst hcall.le
    obtain ⟨hload, rfl⟩ := emitsAll_emit hi Operation.proper_loadResult
      (Operation.sequential_of rfl rfl rfl) (List.forall_mem_nil _)
      (by simpa [Operation.loadResult, Operation.defs, Operand.write?] using hdst)
    exact hcall.append hload
  · obtain ⟨his, hbelow⟩ := emits_expr hlabels htemps hvalue
    obtain ⟨hcopy, rfl⟩ := emits_emitCopy hi (Nat.zero_le _)
      (Nat.lt_of_lt_of_le hdst his.le) hbelow
    exact his.toAll.append ⟨Nat.le_refl _, hcopy.sequential, hcopy.below⟩

/-- The instructions of a store are sequential. -/
theorem emitsAll_store {addr src : Expr} (h : store fp addr src s = .ok is rest)
    (haddr : ∀ l ∈ addr.labels, l.Plain) (hsrc : ∀ l ∈ src.labels, l.Plain)
    (haddrTemps : ∀ u ∈ addr.temps, u.number < s.next)
    (hsrcTemps : ∀ u ∈ src.temps, u.number < s.next) :
    EmitsAll Instr.Sequential s.next rest.next is := by
  obtain ⟨is, base, mid, hbase, h⟩ := store_eq_ok.mp h
  have hdisplaced := displaced_folded addr
  have hnarrow := hdisplaced.narrow
  obtain ⟨his, hbelow⟩ := emits_expr (fun l hl => haddr l (hdisplaced.labels l hl))
    (fun u hu => haddrTemps u (hdisplaced.temps u hu)) hbase
  have hsrcTemps := fun u hu => Nat.lt_of_lt_of_le (hsrcTemps u hu) his.le
  split at h
  · obtain ⟨js, value, next, i, hvalue, hi, rfl⟩ := h
    obtain ⟨hjs, hvalue⟩ := emits_expr hsrc hsrcTemps hvalue
    obtain ⟨hstore, rfl⟩ := emitsAll_emit hi (Operation.proper_store (by omega))
      (Operation.sequential_of rfl rfl rfl)
      (by simpa [Operation.store, Operation.uses, Operand.read?] using
        ⟨hvalue, Nat.lt_of_lt_of_le hbelow hjs.le⟩) (List.forall_mem_nil _)
    exact (his.toAll.append hjs.toAll).append hstore
  -- A negative offset is subtracted first, into a temporary of its own.
  · obtain ⟨-, i, next, js, value, last, j, hi, hvalue, hj, rfl⟩ := h
    obtain ⟨hsub, rfl⟩ := emits_emit hi (Operation.proper_combineNumber rfl rfl (by omega))
      (Operation.sequential_of rfl rfl rfl) (Nat.le_succ mid.next)
      (by simpa [Operation.combineNumber, Operation.uses, Operand.read?] using
        Nat.lt_succ_of_lt hbelow)
      (by simp [Operation.combineNumber, Operation.defs, Operand.write?])
    obtain ⟨hjs, hvalue⟩ := emits_expr hsrc (fun u hu => Nat.lt_succ_of_lt (hsrcTemps u hu)) hvalue
    obtain ⟨hstore, rfl⟩ := emitsAll_emit hj (Operation.proper_store (by decide))
      (Operation.sequential_of rfl rfl rfl)
      (by simpa [Operation.store, Operation.uses, Operand.read?] using ⟨hvalue, hjs.le⟩)
      (List.forall_mem_nil _)
    exact ((his.append hsub).toAll.append hjs.toAll).append hstore

/-- The instructions of a statement. Only a label sets a label. -/
theorem emitsAll_stmt {st : Stmt} (hlabels : ∀ l ∈ st.labels, l.Plain)
    (htemps : ∀ u ∈ st.temps, u.number < s.next) (h : stmt fp st s = .ok is rest) :
    EmitsAll (fun i => i.Selected ∧ i.label? = st.label?) s.next rest.next is := by
  have hseq : st.label? = none → ∀ {is : List Instr} {first last : Nat},
      EmitsAll Instr.Sequential first last is →
        EmitsAll (fun i => i.Selected ∧ i.label? = st.label?) first last is := by
    intro hst is first last h
    exact h.mono fun i hi => ⟨.sequential hi, hi.label?_eq_none.trans hst.symm⟩
  cases st with
  | move dst src =>
      rw [Stmt.labels, List.forall_mem_append] at hlabels
      rw [Stmt.temps, List.forall_mem_append] at htemps
      cases dst with
      | temp dst =>
          exact hseq rfl <|
            emitsAll_assign hlabels.2 (htemps.1 dst (List.mem_singleton_self dst)) htemps.2 h
      | mem addr =>
          rw [stmt] at h
          exact hseq rfl (emitsAll_store h hlabels.1 hlabels.2 htemps.1 htemps.2)
      | _ => exact absurd h throw_ne_ok
  | branch cond pos neg =>
      rw [Stmt.labels, List.forall_mem_append] at hlabels
      obtain ⟨is, value, mid, i, hvalue, hi, rfl⟩ := stmt_branch_eq_ok.mp h
      obtain ⟨his, hvalue⟩ := emits_expr hlabels.1 htemps hvalue
      obtain ⟨hjump, rfl⟩ := emitsAll_jump hi
        (Operation.proper_branch (hlabels.2 pos (List.mem_cons_self))) rfl (Nat.le_refl 1)
        (by simpa [Operation.branch, Operation.uses, Operand.read?] using hvalue)
      exact (hseq rfl his.toAll).append hjump
  | jump target =>
      obtain ⟨i, hi, rfl⟩ := stmt_jump_eq_ok.mp h
      obtain ⟨hjump, rfl⟩ := emitsAll_jump hi
        (Operation.proper_jump (hlabels target (List.mem_singleton_self _))) rfl (Nat.zero_le 1)
        (List.forall_mem_nil _)
      exact hjump
  | label l =>
      obtain ⟨rfl, rfl⟩ := pure_eq_ok.mp h
      refine ⟨Nat.le_refl _, fun i hi => ?_, fun i hi t ht => ?_⟩
      · cases List.mem_singleton.mp hi
        exact ⟨.label l, rfl⟩
      · cases List.mem_singleton.mp hi
        cases ht
  | eval e =>
      obtain ⟨l, es, rfl, h⟩ | ⟨-, value, hvalue⟩ := stmt_eval_eq_ok.mp h
      · rw [Stmt.labels, Expr.labels, List.forall_mem_cons] at hlabels
        exact hseq rfl (emitsAll_call hlabels.1 hlabels.2 htemps h)
      · exact hseq rfl (emits_expr hlabels htemps hvalue).1.toAll

/-- The instructions of statements are those that `Instr.Selected` lists. -/
theorem emitsAll_stmts {body : List Stmt} (hlabels : ∀ st ∈ body, ∀ l ∈ st.labels, l.Plain)
    (htemps : ∀ st ∈ body, ∀ u ∈ st.temps, u.number < s.next) (h : stmts fp body s = .ok is rest) :
    EmitsAll Instr.Selected s.next rest.next is := by
  induction body generalizing s is with
  | nil =>
      obtain ⟨rfl, rfl⟩ := pure_eq_ok.mp h
      exact ⟨Nat.le_refl _, nofun, nofun⟩
  | cons st body ih =>
      rw [List.forall_mem_cons] at hlabels htemps
      obtain ⟨part, mid, others, hpart, hothers, rfl⟩ := stmts_cons_eq_ok.mp h
      have hfirst := (emitsAll_stmt hlabels.1 htemps.1 hpart).mono fun _ hi => hi.1
      exact hfirst.append <| ih hlabels.2
        (fun st hst u hu => Nat.lt_of_lt_of_le (htemps.2 st hst u hu) hfirst.le) hothers

/-! ### What statements do -/

section Agrees

open Mmix (Core)

variable {E : Type} {w : Mmix.World E} {T : Temp → Prop} {n : Nat} {c d : Core E}
  {temps : Temp → Word} {memory : Memory}

/-- The temporaries in `T` have the given values, and so has memory. -/
structure Agrees (fp : Temp) (T : Temp → Prop) (temps : Temp → Word) (memory : Memory)
    (c : Core E) : Prop where
  temps : ∀ t, T t → c.get fp t = temps t
  memory : c.hidden.memory = memory

/-- Instructions that keep what should be kept leave the values of `T` and of memory as they are. -/
theorem Agrees.keeps (h : Agrees fp T temps memory c) (hkeeps : c.Keeps fp n d)
    (hT : ∀ t, T t → t.number < n) : Agrees fp T temps memory d where
  temps := fun t ht => (hkeeps.temps t (hT t ht)).trans (h.temps t ht)
  memory := hkeeps.memory.trans h.memory

/-- What is selected for an expression whose temporaries agree. -/
theorem Agrees.computes (h : Agrees fp T temps memory c) {e : Expr}
    (he : expr fp e s = .ok (is, t) rest) (hcalls : e.callFree = true)
    (hlabels : ∀ l ∈ e.labels, l.Plain) (hfp : T fp) (htemps : ∀ u ∈ e.temps, T u)
    (hT : ∀ t, T t → t.number < s.next) :
    Computes w fp s.next is c t (e.eval w.address temps memory) := by
  have hvalue : e.eval w.address (c.get fp) c.hidden.memory = e.eval w.address temps memory := by
    rw [h.memory]
    exact Expr.eval_congr hcalls fun u hu => h.temps u (htemps u hu)
  rw [← hvalue]
  exact computes_expr w fp e hcalls hlabels (hT fp hfp) (fun u hu => hT u (htemps u hu)) he c

/-- An assignment gives its destination the value of its source. -/
theorem Agrees.assign {dst : Temp} {src : Expr} (hagrees : Agrees fp T temps memory c)
    (h : assign fp dst src s = .ok is rest) (hcalls : src.callFree = true)
    (hlabels : ∀ l ∈ src.labels, l.Plain) (hfp : T fp) (htemps : ∀ u ∈ src.temps, T u)
    (hT : ∀ t, T t → t.number < s.next) :
    Agrees fp T (Function.update temps dst (src.eval w.address temps memory)) memory
      (Mmix.performAll w is c) := by
  obtain ⟨hdst, ⟨l, es, _, _, _, rfl, _⟩ | ⟨is, value, mid, i, -, hvalue, hi, rfl⟩⟩ :=
    assign_eq_ok.mp h
  · cases hcalls
  · have his := hagrees.computes (w := w) hvalue hcalls hlabels hfp htemps hT
    have hcopy : Mmix.performAll w [i] (Mmix.performAll w is c) = _ := perform_emitCopy hi _
    have hkept := hagrees.keeps his.keeps hT
    rw [Mmix.performAll_append, hcopy, his.value]
    refine ⟨fun u hu => ?_, hkept.memory⟩
    by_cases hu' : u = dst
    · rw [hu', Function.update_self]
      exact Mmix.get_update hdst _ _
    · rw [Function.update_of_ne hu', ← hkept.temps u hu]
      simp only [Core.get, Function.update_of_ne hu']

/-- A store operation writes one octabyte of memory. -/
theorem Agrees.emit_store {value base : Temp} {offset : Nat} {i : Instr} {a v : Word}
    (hagrees : Agrees fp T temps memory c)
    (hi : emit fp (.store value base offset) s = .ok i rest) (hnarrow : offset < UInt8.size)
    (hbase : c.get fp base + UInt64.ofNat offset = a) (hvalue : c.get fp value = v) :
    Agrees fp T temps (memory.store a v) (Mmix.performAll w [i] c) := by
  have hperform : Mmix.performAll w [i] c = _ :=
    perform_emit_sto (Operation.proper_store hnarrow) hi rfl rfl rfl
  rw [hperform, hbase, hvalue]
  constructor
  · exact hagrees.temps
  · show c.hidden.memory.store a v = _
    rw [hagrees.memory]

/-- A store writes the value of its source to its address. -/
theorem Agrees.store {addr src : Expr} (hagrees : Agrees fp T temps memory c)
    (h : store fp addr src s = .ok is rest) (hcalls : addr.callFree = true ∧ src.callFree = true)
    (haddr : ∀ l ∈ addr.labels, l.Plain) (hsrc : ∀ l ∈ src.labels, l.Plain) (hfp : T fp)
    (haddrTemps : ∀ u ∈ addr.temps, T u) (hsrcTemps : ∀ u ∈ src.temps, T u)
    (hT : ∀ t, T t → t.number < s.next) :
    Agrees fp T temps
      (memory.store (addr.eval w.address temps memory) (src.eval w.address temps memory))
      (Mmix.performAll w is c) := by
  obtain ⟨is, base, mid, hbase, h⟩ := store_eq_ok.mp h
  have hdisplaced := displaced_folded addr
  have hnarrow := hdisplaced.narrow
  have hlabels : ∀ l ∈ (folded addr).1.labels, l.Plain :=
    fun l hl => haddr l (hdisplaced.labels l hl)
  have htemps : ∀ u ∈ (folded addr).1.temps, T u := fun u hu => haddrTemps u (hdisplaced.temps u hu)
  obtain ⟨hemits, hbelow⟩ := emits_expr hlabels (fun u hu => hT u (htemps u hu)) hbase
  have his := hagrees.computes (w := w) hbase (hdisplaced.callFree hcalls.1) hlabels hfp htemps hT
  have hkept := hagrees.keeps his.keeps hT
  have haddress := hdisplaced.value w.address temps memory
  rw [← his.value, displace] at haddress
  have hT' : ∀ t, T t → t.number < mid.next := fun t ht => Nat.lt_of_lt_of_le (hT t ht) hemits.le
  split at h
  · next hoffset =>
      obtain ⟨js, value, next, i, hvalue, hi, rfl⟩ := h
      rw [if_pos hoffset] at haddress
      have hjs := hkept.computes (w := w) hvalue hcalls.2 hsrc hfp hsrcTemps hT'
      rw [Mmix.performAll_append, Mmix.performAll_append]
      -- The base is still there when the value is known.
      refine (hkept.keeps hjs.keeps hT').emit_store hi (by omega) ?_ hjs.value
      rw [hjs.keeps.temps base hbelow, haddress]
  · next hoffset =>
      obtain ⟨-, i, next, js, value, last, j, hi, hvalue, hj, rfl⟩ := h
      rw [if_neg hoffset] at haddress
      have hnext : next = ⟨mid.next + 1⟩ :=
        ((emit_eq_ok (Operation.plain_combineNumber .sub _)).mp hi).2.2
      have hsub := computes_emit (w := w) (Operation.proper_combineNumber rfl rfl (by omega)) hi
        rfl (Nat.le_refl mid.next) rfl rfl (Mmix.performAll w is c)
      have hkept' := hkept.keeps hsub.keeps hT'
      have hT'' : ∀ t, T t → t.number < next.next :=
        fun t ht => hnext ▸ Nat.lt_succ_of_lt (hT' t ht)
      have hjs := hkept'.computes (w := w) hvalue hcalls.2 hsrc hfp hsrcTemps hT''
      rw [Mmix.performAll_append, Mmix.performAll_append, Mmix.performAll_append]
      -- Here it is the computed address that has to be there still.
      refine (hkept'.keeps hjs.keeps hT'').emit_store hj (by decide) ?_ hjs.value
      have hplace : (⟨mid.next⟩ : Temp).number < next.next := hnext ▸ Nat.lt_succ_self _
      rw [hjs.keeps.temps _ hplace, hsub.value]
      show _ - _ + UInt64.ofNat 0 = _
      rw [Word.add_ofNat_zero]
      exact haddress

end Agrees

end Select

end MmixCodegen
