import MmixCodegen.Select
import MmixCodegen.Proofs.Select.Expr

/-!
# `MmixCodegen.Proofs.Select.Call`: the arguments of a call

Argument number `k` of a call belongs into the octabyte that lies `8 * k` bytes above the
stack pointer. Each argument is stored there as soon as it is known, while the arguments
behind it are still to be computed, and a call in one of those uses the same octabytes for
its own arguments.

So an argument is sure to reach the callee if no argument behind it contains a call.
`Select.args_reach_callee` states this for a call anywhere in the code: when control is at
the call, the octabyte of the argument holds the value that was computed for it.
`Select.nested_call_clobbers` shows that the condition cannot be dropped.

`Core.KeepsArgs` carries the induction over the arguments: code that stores arguments from
number `k` on leaves those below `k` alone.
-/

set_option autoImplicit false

namespace MmixCodegen

/-- A load from where something was stored gives it. -/
theorem Memory.load_store_self (m : Memory) (a v : Word) : (m.store a v).load a = v :=
  Function.update_self ..

/-- A load from another octabyte gives what was there before. -/
theorem Memory.load_store_of_ne (m : Memory) {a b : Word} (h : b / 8 ≠ a / 8) (v : Word) :
    (m.store a v).load b = m.load b :=
  Function.update_of_ne h ..

namespace Mmix

variable {E : Type} {fp : Temp} {k m n : Nat} {c d e : Core E}

/-- Where an argument of a call belongs. -/
def Hidden.argPlace (h : Hidden E) (k : Nat) : Word :=
  h.global .stackPointer + UInt64.ofNat (8 * k)

/-- What is there in place of an argument. -/
def Core.argument (c : Core E) (k : Nat) : Word :=
  c.hidden.memory.load (c.hidden.argPlace k)

/-- Arguments are apart, as long as they do not go around the whole memory. -/
theorem Hidden.argPlace_div_ne (h : Hidden E) {j : Nat} (hj : j < 2 ^ 61) (hk : k < 2 ^ 61)
    (hne : j ≠ k) : h.argPlace j / 8 ≠ h.argPlace k / 8 := by
  intro heq
  have hnat := congrArg UInt64.toNat heq
  simp only [argPlace, UInt64.toNat_div, UInt64.toNat_add, UInt64.toNat_ofNat'] at hnat
  have height : (8 : UInt64).toNat = 8 := rfl
  rw [height] at hnat
  omega

/-- The temporaries below `n` keep their values, and so do registers and the arguments
below `k`. -/
structure Core.KeepsArgs (fp : Temp) (n k : Nat) (c d : Core E) : Prop where
  temps : ∀ t : Temp, t.number < n → d.get fp t = c.get fp t
  global : d.hidden.global = c.hidden.global
  args : ∀ j < k, d.argument j = c.argument j

/-- Nothing changes if nothing is done. -/
theorem Core.KeepsArgs.refl (fp : Temp) (n k : Nat) (c : Core E) : c.KeepsArgs fp n k c :=
  ⟨fun _ _ => rfl, rfl, fun _ _ => rfl⟩

/-- What is kept twice is kept, up to the lower ones of the bounds. -/
theorem Core.KeepsArgs.trans {l : Nat} (hcd : c.KeepsArgs fp n k d) (hde : d.KeepsArgs fp m l e)
    (hn : n ≤ m) (hk : k ≤ l) : c.KeepsArgs fp n k e where
  temps := fun t ht => (hde.temps t (Nat.lt_of_lt_of_le ht hn)).trans (hcd.temps t ht)
  global := hde.global.trans hcd.global
  args := fun j hj => (hde.args j (Nat.lt_of_lt_of_le hj hk)).trans (hcd.args j hj)

/-- Code that leaves memory alone leaves arguments alone. -/
theorem Core.Keeps.keepsArgs (h : c.Keeps fp n d) (k : Nat) : c.KeepsArgs fp n k d where
  temps := h.temps
  global := h.global
  args := by
    intro j _
    rw [argument, argument, Hidden.argPlace, Hidden.argPlace, h.global, h.memory]

end Mmix

namespace Select

open Mmix (Core)

variable {E : Type} {w : Mmix.World E} {fp t : Temp} {k : Nat} {s rest : Supply}
  {is : List Instr}

/-! ### One argument -/

/-- Storing an argument puts its value into its place and keeps the arguments before it. -/
theorem storeArg_stores {value : Temp} (h : storeArg fp value k s = .ok is rest)
    (hfp : fp.number < s.next) (hvalue : value.number < s.next) (hk : k < 2 ^ 61) (c : Core E) :
    c.KeepsArgs fp s.next k (Mmix.performAll w is c) ∧
      (Mmix.performAll w is c).argument k = c.get fp value := by
  -- Both ways to store leave this behind, except for a temporary that holds the offset.
  have hstored : ∀ d : Core E, (∀ u : Temp, u.number < s.next → d.get fp u = c.get fp u) →
      d.hidden = { c.hidden with
        memory := c.hidden.memory.store (c.hidden.argPlace k) (c.get fp value) } →
      c.KeepsArgs fp s.next k d ∧ d.argument k = c.get fp value := by
    intro d htemps hd
    refine ⟨⟨htemps, by rw [hd], fun j hj => ?_⟩, ?_⟩
    · rw [Core.argument, hd]
      exact Memory.load_store_of_ne _
        (c.hidden.argPlace_div_ne (Nat.lt_trans hj hk) hk (Nat.ne_of_lt hj)) _
    · rw [Core.argument, hd]
      exact Memory.load_store_self ..
  replace h := storeArg_eq_ok.mp h
  split at h
  · next hsmall =>
    obtain ⟨i, hi, rfl⟩ := h
    have hperform : Mmix.performAll w [i] c = _ :=
      perform_emit_sto (Operation.proper_storeArg (narrow_of_le_maxImmediate hsmall)) hi rfl rfl rfl
    rw [hperform]
    refine hstored _ (fun u _ => ?_) rfl
    simp only [Core.get]
  · obtain ⟨-, i, hi, rfl⟩ := h
    obtain ⟨hkeeps, hoffset⟩ := computes_loadConstant (w := w) (c := c) (fresh_ne hfp)
      (Nat.le_refl s.next) (UInt64.ofNat (8 * k))
    rw [Mmix.performAll_append]
    rw [Operation.performAll_loadConstant] at hkeeps hoffset ⊢
    have hperform : Mmix.performAll w [i]
        ⟨Function.update c.store ⟨s.next⟩ (UInt64.ofNat (8 * k)), c.hidden⟩ = _ :=
      perform_emit_sto Operation.proper_storeArgAt hi rfl rfl rfl
    rw [hperform, hoffset, hkeeps.temps value hvalue]
    exact hstored _ hkeeps.temps rfl

/-! ### All arguments -/

/-- Without calls, the code of arguments keeps the arguments before them. -/
theorem args_keepsArgs {es : List Expr} (hcalls : ∀ e ∈ es, e.callFree = true)
    (hlabels : ∀ l ∈ Expr.argLabels es, l.Plain) (hfp : fp.number < s.next)
    (htemps : ∀ u ∈ Expr.argTemps es, u.number < s.next) (hk : k + es.length ≤ 2 ^ 61)
    (h : args fp k es s = .ok is rest) (c : Core E) :
    c.KeepsArgs fp s.next k (Mmix.performAll w is c) := by
  induction es generalizing k s rest is c with
  | nil =>
      obtain ⟨rfl, -⟩ := args_nil_eq_ok.mp h
      exact .refl fp _ k c
  | cons e es ih =>
      rw [List.forall_mem_cons] at hcalls
      rw [Expr.argLabels, List.forall_mem_append] at hlabels
      rw [Expr.argTemps, List.forall_mem_append] at htemps
      have hlength : k + 1 + es.length ≤ 2 ^ 61 := by
        rw [List.length_cons] at hk
        omega
      obtain ⟨is, value, mid, js, next, ks, his, hjs, hks, rfl⟩ := args_cons_eq_ok.mp h
      obtain ⟨hvalue, hbelow⟩ := emits_expr hlabels.1 htemps.1 his
      have hstore := emits_storeArg hjs hbelow
      -- Neither the value, nor its store at `k`, nor what follows touches a cell before `k`.
      have hfirst := (computes_expr w fp e hcalls.1 hlabels.1 hfp htemps.1 his c).keeps.keepsArgs k
      have hsecond := (storeArg_stores (w := w) hjs (Nat.lt_of_lt_of_le hfp hvalue.le) hbelow
        (by omega) (Mmix.performAll w is c)).1
      have hle := Nat.le_trans hvalue.le hstore.le
      have hthird := ih hcalls.2 hlabels.2 (Nat.lt_of_lt_of_le hfp hle)
        (fun u hu => Nat.lt_of_lt_of_le (htemps.2 u hu) hle) hlength hks
        (Mmix.performAll w js (Mmix.performAll w is c))
      rw [Mmix.performAll_append, Mmix.performAll_append]
      exact (hfirst.trans hsecond hvalue.le (Nat.le_refl k)).trans hthird hle (Nat.le_succ k)

/-- Behind the code, the value of an expression is in place of argument `k`. Some part of
the code computes it, into a temporary that holds it to the end; if the expression contains
no call, the value is the one that it has before this part. -/
def Delivers (w : Mmix.World E) (fp : Temp) (code : List Instr) (k : Nat) (e : Expr) : Prop :=
  ∃ before part after t s rest, code = before ++ part ++ after ∧
    expr fp e s = .ok (part, t) rest ∧ ∀ c : Core E,
      let start := Mmix.performAll w before c
      let computed := Mmix.performAll w part start
      let reached := Mmix.performAll w code c
      reached.argument k = computed.get fp t ∧ reached.get fp t = computed.get fp t ∧
        (e.callFree = true →
          computed.get fp t = e.eval w.address (start.get fp) start.hidden.memory)

/-- Code in front of other code does not change what that one delivers. -/
theorem Delivers.append_left {code : List Instr} {e : Expr} (h : Delivers w fp code k e)
    (is : List Instr) : Delivers w fp (is ++ code) k e := by
  obtain ⟨before, part, after, t, s, rest, rfl, hpart, hvalue⟩ := h
  refine ⟨is ++ before, part, after, t, s, rest, by simp only [List.append_assoc], hpart, ?_⟩
  intro c
  simp only [Mmix.performAll_append] at hvalue ⊢
  exact hvalue _

/-- Each argument that no call follows is in its place when all of them are stored. -/
theorem args_deliver {es : List Expr} (hlabels : ∀ l ∈ Expr.argLabels es, l.Plain)
    (hfp : fp.number < s.next) (htemps : ∀ u ∈ Expr.argTemps es, u.number < s.next)
    (hk : k + es.length ≤ 2 ^ 61) (h : args fp k es s = .ok is rest) {j : Nat} {e : Expr}
    (he : es[j]? = some e) (hcalls : ∀ later ∈ es.drop (j + 1), later.callFree = true) :
    Delivers w fp is (k + j) e := by
  induction es generalizing k s rest is j with
  | nil => cases he
  | cons first es ih =>
      rw [Expr.argLabels, List.forall_mem_append] at hlabels
      rw [Expr.argTemps, List.forall_mem_append] at htemps
      have hlength : k + 1 + es.length ≤ 2 ^ 61 := by
        rw [List.length_cons] at hk
        omega
      obtain ⟨is, value, mid, js, next, ks, his, hjs, hks, rfl⟩ := args_cons_eq_ok.mp h
      obtain ⟨hvalue, hbelow⟩ := emits_expr hlabels.1 htemps.1 his
      have hstore := emits_storeArg hjs hbelow
      have hfpmid := Nat.lt_of_lt_of_le hfp hvalue.le
      have hfpnext := Nat.lt_of_lt_of_le hfpmid hstore.le
      have htempsnext : ∀ u ∈ Expr.argTemps es, u.number < next.next := fun u hu =>
        Nat.lt_of_lt_of_le (htemps.2 u hu) (Nat.le_trans hvalue.le hstore.le)
      cases j with
      | succ j =>
          have hrest := ih hlabels.2 hfpnext htempsnext hlength hks he hcalls
          rw [show k + 1 + j = k + (j + 1) by omega] at hrest
          exact hrest.append_left (is ++ js)
      | zero =>
          cases he
          refine ⟨[], is, js ++ ks, value, s, mid, List.append_assoc is js ks, his, fun c => ?_⟩
          -- The argument is stored, and the arguments behind it keep it.
          obtain ⟨hkeeps, harg⟩ := storeArg_stores (w := w) hjs hfpmid hbelow (by omega)
            (Mmix.performAll w is c)
          have hlater := args_keepsArgs (w := w) hcalls hlabels.2 hfpnext htempsnext hlength hks
            (Mmix.performAll w js (Mmix.performAll w is c))
          simp only [Mmix.performAll_append]
          refine ⟨(hlater.args k (Nat.lt_succ_self k)).trans harg, ?_, fun hfree => ?_⟩
          · exact (hlater.temps value (Nat.lt_of_lt_of_le hbelow hstore.le)).trans
              (hkeeps.temps value hbelow)
          · exact (computes_expr w fp _ hfree hlabels.1 hfp htemps.1 his c).value

/-! ### Calls -/

/-- The instructions are what is selected for a call, as an expression or as a statement
with or without its result. -/
def SelectsCall (fp : Temp) (l : Label) (es : List Expr) (s : Supply) (is : List Instr) : Prop :=
  (∃ t rest, expr fp (.call l es) s = .ok (is, t) rest) ∨
    (∃ rest, stmt fp (.eval (.call l es)) s = .ok is rest) ∨
      ∃ dst rest, stmt fp (.move (.temp dst) (.call l es)) s = .ok is rest

/-- A call comes right behind its arguments. -/
theorem SelectsCall.exists_args {l : Label} {es : List Expr} (hl : l.Plain)
    (h : SelectsCall fp l es s is) : ∃ code mid tail, args fp 0 es s = .ok code mid ∧
      is = code ++ (Operation.call l).instr :: tail := by
  have hemit : ∀ {s rest : Supply} {i : Instr}, emit fp (.call l) s = .ok i rest →
      i = (Operation.call l).instr := by
    intro s rest i hi
    obtain ⟨-, rfl, -⟩ := (emit_eq_ok (Operation.proper_call hl).toPlain).mp hi
    rfl
  have hcall : ∀ {rest : Supply} {is : List Instr}, call fp l es s = .ok is rest →
      ∃ code mid, args fp 0 es s = .ok code mid ∧ is = code ++ [(Operation.call l).instr] := by
    intro rest is h
    obtain ⟨code, mid, i, hcode, hi, rfl⟩ := call_eq_ok.mp h
    exact ⟨code, mid, hcode, by rw [hemit hi]⟩
  rcases h with ⟨t, rest, h⟩ | ⟨rest, h⟩ | ⟨dst, rest, h⟩
  · obtain ⟨code, mid, i, next, j, hcode, hi, -, -, -, rfl⟩ := expr_call_eq_ok.mp h
    exact ⟨code, mid, [j], hcode, by rw [hemit hi]⟩
  · obtain ⟨code, mid, hcode, rfl⟩ := hcall h
    exact ⟨code, mid, [], hcode, rfl⟩
  · rw [stmt] at h
    obtain ⟨-, ⟨_, _, is, next, i, heq, his, -, rfl⟩ | ⟨_, _, _, _, hnot, _⟩⟩ := assign_eq_ok.mp h
    · cases heq
      obtain ⟨code, mid, hcode, rfl⟩ := hcall his
      exact ⟨code, mid, [i], hcode, by rw [List.append_assoc]; rfl⟩
    · exact absurd rfl (hnot l es)

/-- **Arguments reach the callee.** A run through the code of a call gets to the call, and
each argument that is not followed by one with a call in it is then in its place. -/
theorem args_reach_callee (w : Mmix.World E) {l : Label} {es : List Expr}
    (hselects : SelectsCall fp l es s is) (hlabels : ∀ l' ∈ (Expr.call l es).labels, l'.Plain)
    (hfp : fp.number < s.next) (htemps : ∀ u ∈ (Expr.call l es).temps, u.number < s.next)
    (hlength : es.length ≤ 2 ^ 61) :
    ∃ code tail, is = code ++ (Operation.call l).instr :: tail ∧
      (∀ outer behind c, Mmix.run w (outer ++ is ++ behind) ⟨.line outer.length, c⟩ code.length =
        (⟨.line (outer.length + code.length), Mmix.performAll w code c⟩, [])) ∧
      ∀ k e, es[k]? = some e → (∀ later ∈ es.drop (k + 1), later.callFree = true) →
        Delivers w fp code k e := by
  rw [Expr.labels, List.forall_mem_cons] at hlabels
  obtain ⟨code, mid, tail, hcode, rfl⟩ := hselects.exists_args hlabels.1
  refine ⟨code, tail, rfl, fun outer behind c => ?_, fun k e he hcalls => ?_⟩
  · have hstraight : ∀ i ∈ code, Mmix.Straight i := fun i hi =>
      ((emits_args hlabels.2 htemps hcode).sequential i hi).straight
    have hrun := Mmix.run_straight hstraight w outer ((Operation.call l).instr :: tail ++ behind) c
    simpa only [List.append_assoc] using hrun
  · have hdelivers := args_deliver (w := w) hlabels.2 hfp htemps (by omega) hcode he hcalls
    rwa [Nat.zero_add] at hdelivers

/-- In `f(g(2), 7)` the call comes first. Both arguments are in place when `f` is called. -/
theorem leading_call_reaches_callee :
    ∃ is t rest, expr ⟨0⟩ (.call ⟨"f"⟩ [.call ⟨"g"⟩ [.const 2], .const 7]) ⟨100⟩ =
        .ok (is, t) rest ∧
      ∃ code tail, is = code ++ (Operation.call ⟨"f"⟩).instr :: tail ∧
        Delivers (⟨fun _ => 0, fun _ => id⟩ : Mmix.World Unit) ⟨0⟩ code 0 (.call ⟨"g"⟩ [.const 2]) ∧
          Delivers (⟨fun _ => 0, fun _ => id⟩ : Mmix.World Unit) ⟨0⟩ code 1 (.const 7) := by
  refine ⟨_, _, _, rfl, ?_⟩
  have hselects : SelectsCall ⟨0⟩ ⟨"f"⟩ [.call ⟨"g"⟩ [.const 2], .const 7] ⟨100⟩ _ :=
    .inl ⟨_, _, rfl⟩
  obtain ⟨code, tail, hcode, -, hdelivers⟩ :=
    args_reach_callee (⟨fun _ => 0, fun _ => id⟩ : Mmix.World Unit) hselects (by decide)
      (by decide) (by decide) (by decide)
  exact ⟨code, tail, hcode, hdelivers 0 _ rfl (by decide), hdelivers 1 _ rfl (by decide)⟩

/-- In `f(1, g(2))` the argument of `g` takes the place of the first argument of `f`. -/
theorem nested_call_clobbers :
    let code := ([.set .low ⟨100⟩ 1, .storeArg ⟨100⟩ 0, .set .low ⟨101⟩ 2, .storeArg ⟨101⟩ 0,
      .call ⟨"g"⟩, .loadResult ⟨102⟩, .storeArg ⟨102⟩ 8] : List Operation).map Operation.instr
    expr ⟨0⟩ (.call ⟨"f"⟩ [.const 1, .call ⟨"g"⟩ [.const 2]]) ⟨100⟩ =
        .ok (code ++ [(Operation.call ⟨"f"⟩).instr, (Operation.loadResult ⟨103⟩).instr], ⟨103⟩)
          ⟨104⟩ ∧
      ¬ Delivers (⟨fun _ => 0, fun _ => id⟩ : Mmix.World Unit) ⟨0⟩ code 0 (.const 1) := by
  refine ⟨by rfl, ?_⟩
  rintro ⟨before, part, after, t, s, rest, -, -, hvalue⟩
  obtain ⟨harg, -, hone⟩ := hvalue ⟨fun _ => 0, fun _ => 0, 0, fun _ => 0, ()⟩
  have hone : _ = (1 : Word) := hone rfl
  rw [hone] at harg
  exact absurd harg (by decide +kernel)

end Select

end MmixCodegen
