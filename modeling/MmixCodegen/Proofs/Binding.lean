import MmixCodegen.Proofs.Flow.Analyze
import MmixCodegen.Proofs.Interference
import MmixCodegen.Proofs.Machine

/-!
# `MmixCodegen.Proofs.Binding`: code over registers follows code over temporaries

A colouring turns code over temporaries into code over registers: each operand
becomes its register, and copies of a register to itself are dropped
(`Coloring.effects`). `Coloring.Fits` says what this needs: live sets that are up
to date, a register for each temporary that is mentioned, and different registers
for those that some instruction keeps apart.

`Coloring.Agrees` relates the states of the two machines. They are at corresponding
places, and the registers of what is live there hold its values. `Fits.matches_step`
is the simulation: a dropped copy is no step of the machine with registers,
everything else is one step of both. The cases are `matches_oper`, `matches_copy`,
`matches_label` and `matches_redundant`, one for each kind of instruction.

`Fits.matches_run` is the same for runs, where `Coloring.pace` counts the steps, and
`exists_pace_eq` says that the machine with registers never waits forever.
-/

set_option autoImplicit false

namespace MmixCodegen

/-! ### Filtered lists -/

section Filter

variable {α : Type} {p q : α → Bool} {x : α} {l : List α} {n : Nat}

/-- The number of members of a list with some property before position `n`. -/
def countBefore (p : α → Bool) (l : List α) (n : Nat) : Nat :=
  ((l.take n).filter p).length

/-- One position further, one more is counted if the member there has the property. -/
theorem countBefore_succ (h : l[n]? = some x) :
    countBefore p l (n + 1) = countBefore p l n + if p x then 1 else 0 := by
  unfold countBefore
  rw [List.take_add_one, h, List.filter_append, List.length_append]
  by_cases hp : p x = true
  · simp [hp]
  · simp [hp]

/-- A member that is kept is found after those that are kept before it. -/
theorem getElem?_filter_countBefore (h : l[n]? = some x) (hp : p x = true) :
    (l.filter p)[countBefore p l n]? = some x := by
  have hsplit : l = l.take n ++ x :: l.drop (n + 1) := by
    obtain ⟨hlt, hx⟩ := List.getElem?_eq_some_iff.mp h
    rw [← hx, List.cons_getElem_drop_succ, List.take_append_drop]
  unfold countBefore
  -- The list is now one of any two parts around `x`.
  generalize l.take n = before at hsplit
  generalize l.drop (n + 1) = after at hsplit
  subst hsplit
  rw [List.filter_append, List.getElem?_append_right (Nat.le_refl _), Nat.sub_self,
    List.filter_cons_of_pos hp]
  rfl

/-- Behind the end of a list is behind the end of the filtered list. -/
theorem getElem?_filter_of_none (h : l[n]? = none) : (l.filter p)[countBefore p l n]? = none := by
  rw [List.getElem?_eq_none_iff] at h ⊢
  unfold countBefore
  rw [List.take_of_length_le h]

/-- Dropping members does not change which one is the last of its kind, if none of
that kind is dropped. -/
theorem lastIndex?_filter (hq : ∀ x ∈ l, p x = true → q x = true) :
    Flow.lastIndex? p 0 (l.filter q) = (Flow.lastIndex? p 0 l).map (countBefore q l) := by
  induction l with
  | nil => rfl
  | cons x l ih =>
      have ih := ih fun y hy => hq y (List.mem_cons_of_mem x hy)
      have hcount : ∀ n, countBefore q (x :: l) (n + 1)
          = countBefore q l n + if q x then 1 else 0 := by
        intro n
        unfold countBefore
        rw [List.take_succ_cons, List.filter_cons]
        split <;> simp
      rw [Flow.lastIndex?, Flow.lastIndex?_add p 1]
      by_cases hx : q x = true
      · rw [List.filter_cons_of_pos hx, Flow.lastIndex?, Flow.lastIndex?_add p 1, ih]
        cases Flow.lastIndex? p 0 l with
        | some found => simp [hcount, hx]
        | none =>
            simp only [Option.map_none]
            split <;> simp [countBefore]
      -- The head is dropped, so it is not of that kind.
      · have hpx : ¬p x = true := fun h => hx (hq x List.mem_cons_self h)
        rw [List.filter_cons_of_neg hx, ih]
        cases Flow.lastIndex? p 0 l with
        | some found => simp [hcount, hx]
        | none => simp [hpx]

end Filter

/-! ### Code over registers -/

namespace Coloring

/-- The register of a temporary. Those without one share `$0`. -/
def register (c : Coloring) (t : Temp) : Register :=
  c.colors[t]?.getD (.ofNat 0)

/-- Whether an instruction stays when copies within a register are dropped. -/
def keeps (c : Coloring) (i : Instr) : Bool :=
  !c.isRedundant i

/-- The code of a routine over registers. -/
def effects (c : Coloring) (r : Routine) : List (Effect Register) :=
  (c.dropRedundant r).effects.map (Effect.map c.register)

/-- What code over registers needs of a colouring. -/
structure Fits (c : Coloring) (r : Routine) : Prop where
  analyzed : r.Analyzed
  /-- Whatever is mentioned has a register. -/
  colored : ∀ i ∈ r.instrs, ∀ t ∈ i.temps, c.colors[t]? = some (c.register t)
  /-- Nothing shares a register with what it is kept apart from. -/
  apart : ∀ i ∈ r.instrs, ∀ u v, u ≠ v → i.KeepsApart u v → c.register u ≠ c.register v

/-- Where the code over registers is while the other code is at some place. -/
def place (c : Coloring) (r : Routine) : Place → Place
  | .line index => .line (countBefore c.keeps r.instrs index)
  | .left l => .left l

/-- Whether the next instruction is one that was dropped. -/
def waits (c : Coloring) (r : Routine) : Place → Bool
  | .line index => r.instrs[index]?.any c.isRedundant
  | .left _ => false

end Coloring

namespace Routine

/-- What is live at a place. Outside of the code it is the return value, if it is
written at all and control went to the exit label. -/
def liveAt (r : Routine) : Place → TempSet
  | .line index => r.liveBefore index
  | .left l => if l = r.exit ∧ r.definesResult = true then .ofList [r.frame.rv] else ∅

variable {r : Routine} {index : Nat} {i : Instr} {t : Temp}

/-- Outside of the code, only the return value can be live, and only at the exit. -/
theorem mem_liveAt_left {l : Label} :
    t ∈ r.liveAt (.left l) ↔ (l = r.exit ∧ r.definesResult = true) ∧ t = r.frame.rv := by
  rw [liveAt]
  split
  · rename_i h
    rw [and_iff_right h]
    simpa [TempSet.ofList] using eq_comm
  · rename_i h
    simp [h]

/-- The places where control may be after an instruction. -/
def Leads (r : Routine) (index : Nat) (i : Instr) (next : Place) : Prop :=
  (i.jumps = [] ∧ next = .line (index + 1)) ∨ ∃ l ∈ i.jumps, next = Machine.goto r.effects l

/-- Behind the last instruction nothing is live. -/
theorem liveBefore_of_length_le (h : r.instrs.length ≤ index) : r.liveBefore index = ∅ := by
  simp [liveBefore, FlowGraph.before, lives, Array.getD_eq_getD_getElem?, h, Live.none]

/-- What is live where an instruction leads to is live after it. -/
theorem Analyzed.mem_after_of_mem_liveAt (h : r.Analyzed) (hi : r.instrs[index]? = some i)
    {next : Place} (hleads : r.Leads index i next) (ht : t ∈ r.liveAt next) : t ∈ i.live.after := by
  rcases hleads with ⟨hjumps, rfl⟩ | ⟨l, hl, rfl⟩
  · by_cases hlt : index + 1 < r.instrs.length
    · refine h.mem_after_of_mem_before hi ?_ ht
      simp [Flow.node, hjumps, hlt]
    · -- Behind the last instruction nothing is live.
      rw [liveAt, liveBefore_of_length_le (by omega)] at ht
      exact absurd ht Std.ExtTreeSet.not_mem_empty
  -- A jump leads to its label, or out of the code if that is not set.
  · have hjumps : i.jumps.isEmpty = false := by
      rw [List.isEmpty_eq_false_iff_exists_mem]
      exact ⟨l, hl⟩
    rw [goto_effects] at ht
    cases htarget : Flow.labelIndex? l r.instrs with
    | some target =>
        rw [htarget] at ht
        refine h.mem_after_of_mem_before hi ?_ ht
        simp only [Flow.node, hjumps, Flow.targets, List.mem_eraseDups, List.mem_filterMap,
          Bool.false_eq_true, if_false]
        exact ⟨l, hl, htarget⟩
    | none =>
        rw [htarget] at ht
        obtain ⟨⟨hexit, hresult⟩, hrv⟩ := mem_liveAt_left.mp ht
        rw [hrv]
        refine h.rv_mem_after hi ?_ hresult
        rw [Flow.node, Flow.leaves, List.any_eq_true]
        exact ⟨l, hl, by simp [htarget, ← hexit]⟩

end Routine

/-! ### The simulation -/

namespace Coloring

open Machine

variable {V H : Type} {c : Coloring} {r : Routine} {m : Meaning V H} {i : Instr} {t : Temp}
  {index : Nat} {s : State Temp V H} {s' : State Register V H}

/-- An instruction is redundant just if it copies a register to itself. -/
theorem isRedundant_iff :
    c.isRedundant i = true ↔ ∃ template dst src, i.kind = .move template dst src ∧
      c.colors[dst]?.isSome ∧ c.colors[dst]? = c.colors[src]? := by
  unfold isRedundant Instr.movePair?
  cases i.kind with
  | oper template uses defs jumps => simp
  | label l => simp
  | move template dst src => simp

/-- The machine with registers waits just at the instructions that were dropped. -/
theorem waits_line_iff :
    c.waits r (.line index) = true ↔ ∃ i, r.instrs[index]? = some i ∧ c.isRedundant i = true := by
  rw [waits]
  cases r.instrs[index]? <;> simp

/-- Only copies are dropped. -/
theorem keeps_of_movePair?_eq_none (h : i.movePair? = none) : c.keeps i = true := by
  rw [keeps, isRedundant, h]
  rfl

/-- The code over registers consists of the instructions that are kept,
with registers as operands. -/
theorem effects_eq (c : Coloring) (r : Routine) :
    c.effects r = ((r.instrs.filter c.keeps).map Instr.effect).map (Effect.map c.register) := rfl

/-- An instruction that is kept stands behind those before it that are kept. -/
theorem getElem?_effects (hi : r.instrs[index]? = some i) (hkeeps : c.keeps i = true) :
    (c.effects r)[countBefore c.keeps r.instrs index]? = some (i.effect.map c.register) := by
  rw [effects_eq, List.getElem?_map, List.getElem?_map, getElem?_filter_countBefore hi hkeeps]
  rfl

/-- Behind the end of the code is behind the end of the code over registers. -/
theorem getElem?_effects_of_none (hi : r.instrs[index]? = none) :
    (c.effects r)[countBefore c.keeps r.instrs index]? = none := by
  rw [effects_eq, List.getElem?_map, List.getElem?_map, getElem?_filter_of_none hi]
  rfl

/-- Jumps lead to corresponding places, since labels are never dropped. -/
theorem goto_effects (c : Coloring) (r : Routine) (l : Label) :
    goto (c.effects r) l = c.place r (goto r.effects l) := by
  have hlabels : ∀ i ∈ r.instrs, decide (i.label? = some l) = true → c.keeps i = true := by
    intro i _ hi
    refine keeps_of_movePair?_eq_none ?_
    unfold Instr.label? at hi
    unfold Instr.movePair?
    cases hkind : i.kind <;> simp [hkind] at hi ⊢
  have hdrop : goto (c.effects r) l = goto (c.dropRedundant r).effects l := by
    unfold effects goto
    rw [Flow.lastIndex?_map]
    simp only [Effect.label?_map]
  rw [hdrop, Routine.goto_effects, Routine.goto_effects]
  show (Flow.lastIndex? _ 0 (r.instrs.filter c.keeps)).elim _ _ = _
  rw [lastIndex?_filter hlabels]
  show ((Flow.labelIndex? l r.instrs).map _).elim _ _ = _
  cases Flow.labelIndex? l r.instrs <;> rfl

/-- The two machines are at corresponding places and in the same hidden state, and
the registers of what is live hold its values. -/
structure Agrees (c : Coloring) (r : Routine) (s : State Temp V H) (s' : State Register V H) :
    Prop where
  place : s'.place = c.place r s.place
  hidden : s'.hidden = s.hidden
  store : ∀ t ∈ r.liveAt s.place, s'.store (c.register t) = s.store t

/-- Two runs end in states that agree, with the same operations on the way. -/
structure Matches (c : Coloring) (r : Routine) (x : State Temp V H × List (Occurrence V H))
    (x' : State Register V H × List (Occurrence V H)) : Prop where
  agrees : Agrees c r x.1 x'.1
  occurrences : x'.2 = x.2

/-- The registers of what is live before the next instruction hold its values. -/
theorem Agrees.store_of_mem_before (h : Agrees c r s s') (hplace : s.place = .line index)
    (hi : r.instrs[index]? = some i) (ht : t ∈ i.live.before) :
    s'.store (c.register t) = s.store t := by
  refine h.store t ?_
  rw [hplace, Routine.liveAt, Routine.liveBefore_eq hi]
  exact ht

namespace Fits

/-- Whatever is live at a place has a register. -/
theorem colors_of_mem_liveAt (h : c.Fits r) {place : Place} (ht : t ∈ r.liveAt place) :
    c.colors[t]? = some (c.register t) := by
  cases place with
  | line index =>
      cases hi : r.instrs[index]? with
      | none =>
          rw [Routine.liveAt,
            Routine.liveBefore_of_length_le (List.getElem?_eq_none_iff.mp hi)] at ht
          exact absurd ht Std.ExtTreeSet.not_mem_empty
      | some i =>
          rw [Routine.liveAt, Routine.liveBefore_eq hi] at ht
          exact h.colored i (List.mem_of_getElem? hi) t
            (Instr.mem_temps.mpr (Or.inr (Or.inr (Or.inl ht))))
  | left l =>
      -- The return value is written by some instruction.
      obtain ⟨⟨-, hresult⟩, rfl⟩ := Routine.mem_liveAt_left.mp ht
      obtain ⟨i, hi, hdefs⟩ := List.any_eq_true.mp hresult
      exact h.colored i hi _ (Instr.mem_temps.mpr (Or.inr (Or.inl (by simpa using hdefs))))

end Fits

/-! ### One step -/

/-- Control goes to corresponding places from an instruction that was kept. -/
theorem place_next (hi : r.instrs[index]? = some i) (hkeeps : c.keeps i = true)
    (jump : Option Label) :
    jump.elim (.line (countBefore c.keeps r.instrs index + 1)) (goto (c.effects r)) =
      c.place r (jump.elim (.line (index + 1)) (goto r.effects)) := by
  cases jump with
  | none =>
      show Place.line _ = Place.line _
      rw [countBefore_succ hi, if_pos hkeeps]
  | some l => exact goto_effects c r l

/-- Whichever jump an operation takes, the place where it leads is one that `Leads` allows. -/
theorem leads_next (r : Routine) (index : Nat) (i : Instr) (n : Nat) :
    r.Leads index i ((i.jumps[n % i.jumps.length]?).elim (.line (index + 1)) (goto r.effects)) := by
  cases hjump : i.jumps[n % i.jumps.length]? with
  | some l => exact Or.inr ⟨l, List.mem_of_getElem? hjump, rfl⟩
  | none =>
      refine Or.inl ⟨?_, rfl⟩
      rw [List.getElem?_eq_none_iff] at hjump
      by_contra hne
      have hlt := Nat.mod_lt n (List.length_pos_iff.mpr hne)
      omega

section Step

variable (hfits : c.Fits r) (hi : r.instrs[index]? = some i)

include hfits hi

/-- States after an instruction agree if the registers of what is live after it
hold its values. -/
theorem agrees_of_after {next : Place} {store : Temp → V} {store' : Register → V} {hidden : H}
    (hleads : r.Leads index i next)
    (hstore : ∀ t ∈ i.live.after, store' (c.register t) = store t) :
    Agrees c r ⟨next, store, hidden⟩ ⟨c.place r next, store', hidden⟩ :=
  ⟨rfl, rfl, fun t ht => hstore t (hfits.analyzed.mem_after_of_mem_liveAt hi hleads ht)⟩

/-- What is written has a register of its own, unless it is a copy of what the
register holds. -/
theorem eq_of_register_eq {d : Temp} (hd : d ∈ i.defs) (ht : t ∈ i.live.after)
    (hcopy : i.movePair?.map Prod.snd ≠ some t) (heq : c.register d = c.register t) : d = t := by
  by_contra hne
  exact hfits.apart i (List.mem_of_getElem? hi) d t hne
    (Or.inr (Or.inr (Or.inl ⟨hd, ht, hcopy⟩))) heq

/-- An operation reads the same values from registers, and what it writes keeps
the states in agreement. -/
theorem matches_oper {template : String} {uses defs : List Temp} {jumps : List Label}
    (hkind : i.kind = .oper template uses defs jumps) (hagrees : Agrees c r s s')
    (hplace : s.place = .line index) :
    Matches c r (perform m r.effects index s i.effect)
      (perform m (c.effects r) (countBefore c.keeps r.instrs index) s'
        (i.effect.map c.register)) := by
  have heffect : i.effect = .oper template uses defs jumps := by
    rw [Instr.effect, hkind]
  have hkeeps : c.keeps i = true := by
    refine keeps_of_movePair?_eq_none ?_
    rw [Instr.movePair?, hkind]
  have hjumps : i.jumps = jumps := by rw [Instr.jumps, hkind]
  -- The operation reads the same values on both sides, so it does the same.
  have hoperands : (uses.map c.register).map s'.store = uses.map s.store := by
    rw [List.map_map]
    refine List.map_congr_left fun t ht => hagrees.store_of_mem_before hplace hi ?_
    refine hfits.analyzed.mem_before_of_mem_uses hi ?_
    rw [Instr.uses, hkind]
    exact ht
  rw [heffect]
  simp only [Effect.map, perform, hoperands, hagrees.hidden, place_next hi hkeeps]
  refine ⟨?_, rfl⟩
  refine agrees_of_after hfits hi (hjumps ▸ leads_next r index i _) fun t ht => ?_
  refine write_map 0 (fun d hd => ?_) fun hnot => ?_
  · refine eq_of_register_eq hfits hi ?_ ht ?_
    · rw [Instr.defs, hkind]
      exact hd
    · simp [Instr.movePair?, hkind]
  · refine hagrees.store_of_mem_before hplace hi (hfits.analyzed.mem_before_of_mem_after hi ht ?_)
    rw [Instr.defs, hkind]
    exact hnot

/-- A copy that was kept is one between different registers. -/
theorem register_ne_of_keeps {template : String} {dst src : Temp}
    (hkind : i.kind = .move template dst src) (hkeeps : c.keeps i = true) :
    c.register src ≠ c.register dst := by
  intro heq
  have hcolored := hfits.colored i (List.mem_of_getElem? hi)
  have hdst : c.colors[dst]? = some (c.register dst) := by
    refine hcolored dst (Instr.mem_temps.mpr (Or.inr (Or.inl ?_)))
    simp [Instr.defs, hkind]
  have hsrc : c.colors[src]? = some (c.register src) := by
    refine hcolored src (Instr.mem_temps.mpr (Or.inl ?_))
    simp [Instr.uses, hkind]
  have hredundant : c.isRedundant i = true := by
    refine isRedundant_iff.mpr ⟨template, dst, src, hkind, ?_, ?_⟩
    · rw [hdst]
      rfl
    · rw [hdst, hsrc, heq]
  rw [keeps, hredundant] at hkeeps
  cases hkeeps

/-- A copy between different registers is a step of both machines. -/
theorem matches_copy {template : String} {dst src : Temp} (hkind : i.kind = .move template dst src)
    (hkeeps : c.keeps i = true) (hagrees : Agrees c r s s') (hplace : s.place = .line index) :
    Matches c r (perform m r.effects index s i.effect)
      (perform m (c.effects r) (countBefore c.keeps r.instrs index) s'
        (i.effect.map c.register)) := by
  have heffect : i.effect = .copy dst src := by
    rw [Instr.effect, hkind]
  have hdefs : i.defs = [dst] := by rw [Instr.defs, hkind]
  have hleads : r.Leads index i (.line (index + 1)) := Or.inl ⟨by rw [Instr.jumps, hkind], rfl⟩
  have hsrc : src ∈ i.live.before := by
    refine hfits.analyzed.mem_before_of_mem_uses hi ?_
    simp [Instr.uses, hkind]
  have hnext := place_next hi hkeeps none
  rw [Option.elim_none, Option.elim_none] at hnext
  rw [heffect]
  simp only [Effect.map, perform, hagrees.hidden, hnext]
  refine ⟨agrees_of_after hfits hi hleads fun t ht => ?_, rfl⟩
  -- The target holds the copied value on both sides. Nothing else that is live shares
  -- its register, not even the source.
  by_cases hdst : t = dst
  · rw [hdst, Function.update_self, Function.update_self]
    exact hagrees.store_of_mem_before hplace hi hsrc
  · have hbefore : t ∈ i.live.before :=
      hfits.analyzed.mem_before_of_mem_after hi ht (by simp [hdefs, hdst])
    have hreg : c.register t ≠ c.register dst := by
      by_cases hs : t = src
      · rw [hs]
        exact register_ne_of_keeps hfits hi hkind hkeeps
      · intro heq
        refine hdst (eq_of_register_eq hfits hi ?_ ht ?_ heq.symm).symm
        · simp [hdefs]
        · simp [Instr.movePair?, hkind, Ne.symm hs]
    rw [Function.update_of_ne hreg, Function.update_of_ne hdst]
    exact hagrees.store_of_mem_before hplace hi hbefore

/-- A label is a step of both machines that changes nothing. -/
theorem matches_label {l : Label} (hkind : i.kind = .label l) (hagrees : Agrees c r s s')
    (hplace : s.place = .line index) :
    Matches c r (perform m r.effects index s i.effect)
      (perform m (c.effects r) (countBefore c.keeps r.instrs index) s'
        (i.effect.map c.register)) := by
  have heffect : i.effect = .label l := by
    rw [Instr.effect, hkind]
  have hkeeps : c.keeps i = true := by
    refine keeps_of_movePair?_eq_none ?_
    rw [Instr.movePair?, hkind]
  have hleads : r.Leads index i (.line (index + 1)) := Or.inl ⟨by rw [Instr.jumps, hkind], rfl⟩
  have hnext := place_next hi hkeeps none
  rw [Option.elim_none, Option.elim_none] at hnext
  rw [heffect]
  simp only [Effect.map, perform, hagrees.hidden, hnext]
  refine ⟨agrees_of_after hfits hi hleads fun t ht => ?_, rfl⟩
  refine hagrees.store_of_mem_before hplace hi (hfits.analyzed.mem_before_of_mem_after hi ht ?_)
  rw [Instr.defs, hkind]
  exact List.not_mem_nil

/-- A copy that was dropped changes nothing for the machine with registers. -/
theorem matches_redundant (hredundant : c.isRedundant i = true) (hagrees : Agrees c r s s')
    (hplace : s.place = .line index) :
    Matches c r (perform m r.effects index s i.effect) (s', []) := by
  obtain ⟨template, dst, src, hkind, -, hcolors⟩ := isRedundant_iff.mp hredundant
  have heffect : i.effect = .copy dst src := by
    rw [Instr.effect, hkind]
  have hleads : r.Leads index i (.line (index + 1)) := Or.inl ⟨by rw [Instr.jumps, hkind], rfl⟩
  have hnext : s'.place = c.place r (.line (index + 1)) := by
    rw [hagrees.place, hplace]
    show Place.line _ = Place.line _
    rw [countBefore_succ hi, keeps, hredundant]
    rfl
  have hreg : c.register dst = c.register src := by
    rw [register, register, hcolors]
  rw [heffect]
  refine ⟨⟨hnext, hagrees.hidden, fun t ht => ?_⟩, rfl⟩
  have hafter := hfits.analyzed.mem_after_of_mem_liveAt hi hleads ht
  show s'.store (c.register t) = Function.update s.store dst (s.store src) t
  -- The register of the target holds the value already, since it is that of the source.
  by_cases hdst : t = dst
  · rw [hdst, Function.update_self, hreg]
    refine hagrees.store_of_mem_before hplace hi (hfits.analyzed.mem_before_of_mem_uses hi ?_)
    simp [Instr.uses, hkind]
  · rw [Function.update_of_ne hdst]
    refine hagrees.store_of_mem_before hplace hi
      (hfits.analyzed.mem_before_of_mem_after hi hafter ?_)
    simp [Instr.defs, hkind, hdst]

end Step

/-- One step of the code over temporaries. A dropped copy is no step of the
machine with registers, anything else is one step. -/
theorem Fits.matches_step (hfits : c.Fits r) (m : Meaning V H) (hagrees : Agrees c r s s') :
    Matches c r (step m r.effects s)
      (if c.waits r s.place then (s', []) else step m (c.effects r) s') := by
  cases hplace : s.place with
  | left l =>
      -- Control has left the code, for both machines.
      have hleft : s'.place = .left l := by
        rw [hagrees.place, hplace]
        rfl
      simp only [step, hplace, hleft, waits, Bool.false_eq_true, if_false]
      exact ⟨hagrees, rfl⟩
  | line index =>
      have hline : s'.place = .line (countBefore c.keeps r.instrs index) := by
        rw [hagrees.place, hplace]
        rfl
      cases hi : r.instrs[index]? with
      | none =>
          simp only [step, hplace, hline, waits, Routine.getElem?_effects, hi,
            getElem?_effects_of_none hi, Option.map_none, Option.any_none, Bool.false_eq_true,
            if_false]
          exact ⟨hagrees, rfl⟩
      | some i =>
          rw [Routine.step_effects hplace hi, waits, hi, Option.any_some]
          by_cases hredundant : c.isRedundant i = true
          · rw [if_pos hredundant]
            exact matches_redundant hfits hi hredundant hagrees hplace
          · have hkeeps : c.keeps i = true := by simp [keeps, hredundant]
            have hstep' : step m (c.effects r) s' = perform m (c.effects r)
                (countBefore c.keeps r.instrs index) s' (i.effect.map c.register) := by
              simp only [step, hline, getElem?_effects hi hkeeps]
            rw [if_neg hredundant, hstep']
            cases hkind : i.kind with
            | oper template uses defs jumps => exact matches_oper hfits hi hkind hagrees hplace
            | move template dst src => exact matches_copy hfits hi hkind hkeeps hagrees hplace
            | label l => exact matches_label hfits hi hkind hagrees hplace

/-! ### Runs -/

/-- How many steps the machine with registers takes for `n` steps of the other one. -/
def pace (c : Coloring) (r : Routine) (m : Meaning V H) (s : State Temp V H) : Nat → Nat
  | 0 => 0
  | n + 1 => c.pace r m s n + if c.waits r (run m r.effects s n).1.place then 0 else 1

/-- A run over registers follows the run over temporaries. -/
theorem Fits.matches_run (hfits : c.Fits r) (m : Meaning V H)
    (hagrees : Agrees c r s s') (n : Nat) :
    Matches c r (run m r.effects s n) (run m (c.effects r) s' (c.pace r m s n)) := by
  induction n with
  | zero => exact ⟨hagrees, rfl⟩
  | succ n ih =>
      -- The invariant of the induction is that the states agree so far.
      have hstep := hfits.matches_step m ih.agrees
      by_cases hwaits : c.waits r (run m r.effects s n).1.place = true
      · rw [if_pos hwaits] at hstep
        rw [pace, if_pos hwaits, Nat.add_zero, run]
        refine ⟨hstep.agrees, ?_⟩
        show _ = (run m r.effects s n).2 ++ (step m r.effects (run m r.effects s n).1).2
        rw [← hstep.occurrences, List.append_nil]
        exact ih.occurrences
      · rw [if_neg hwaits] at hstep
        rw [pace, if_neg hwaits, run, run]
        refine ⟨hstep.agrees, ?_⟩
        show (run m (c.effects r) s' (c.pace r m s n)).2 ++ (step m (c.effects r) _).2 = _ ++ _
        rw [hstep.occurrences, ih.occurrences]

/-- The next step that is not a dropped copy. There are no more dropped copies in a
row than instructions that are left. -/
theorem exists_pace_succ (c : Coloring) (r : Routine) (m : Meaning V H) (s : State Temp V H)
    (n : Nat) : ∃ n', c.pace r m s n' = c.pace r m s n + 1 := by
  -- Whatever is not at a line does not wait.
  suffices hlines : ∀ (k index n : Nat), (run m r.effects s n).1.place = .line index →
      r.instrs.length - index = k → ∃ n', c.pace r m s n' = c.pace r m s n + 1 by
    cases hplace : (run m r.effects s n).1.place with
    | line index => exact hlines _ index n hplace rfl
    | left l =>
        refine ⟨n + 1, ?_⟩
        rw [pace, hplace, waits, if_neg Bool.false_ne_true]
  intro k
  induction k with
  | zero =>
      intro index n hplace hk
      have hi : r.instrs[index]? = none := List.getElem?_eq_none_iff.mpr (by omega)
      refine ⟨n + 1, ?_⟩
      rw [pace, hplace, waits, hi, Option.any_none, if_neg Bool.false_ne_true]
  | succ k ih =>
      intro index n hplace hk
      by_cases hwaits : c.waits r (.line index) = true
      · obtain ⟨i, hi, hredundant⟩ := waits_line_iff.mp hwaits
        obtain ⟨template, dst, src, hkind, -⟩ := isRedundant_iff.mp hredundant
        have hnext : (run m r.effects s (n + 1)).1.place = .line (index + 1) := by
          show (step m r.effects (run m r.effects s n).1).1.place = _
          rw [Routine.step_effects hplace hi, Instr.effect, hkind]
          rfl
        obtain ⟨n', hn'⟩ := ih (index + 1) (n + 1) hnext (by omega)
        refine ⟨n', hn'.trans ?_⟩
        rw [pace, hplace, if_pos hwaits]
      · exact ⟨n + 1, by rw [pace, hplace, if_neg hwaits]⟩

/-- The machine with registers never waits forever. -/
theorem exists_pace_eq (c : Coloring) (r : Routine) (m : Meaning V H) (s : State Temp V H)
    (k : Nat) : ∃ n, c.pace r m s n = k := by
  induction k with
  | zero => exact ⟨0, rfl⟩
  | succ k ih =>
      obtain ⟨n, rfl⟩ := ih
      exact c.exists_pace_succ r m s n

end Coloring

end MmixCodegen
