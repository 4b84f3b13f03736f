import MmixCodegen.Select
import MmixCodegen.Proofs.Mmix.Constant
import Mathlib.Data.List.Forall2

/-!
# `MmixCodegen.Proofs.Select.Emit`: what is emitted for an operation

Selection rewrites the text of an operation to name the register of the frame pointer.
`Operation.inline` is the operation that this gives: operands that read the frame pointer
are replaced and the others are kept. `Select.emit_eq_ok` says that the instruction of
this operation is what is emitted, with its slots numbered as they should be.

Operations read the frame pointer from its register and all other temporaries from
themselves (`Mmix.Core.get`). `Operation.perform_inline` is what an emitted instruction
does, in terms of these values.
-/

set_option autoImplicit false

namespace MmixCodegen

open Template (Piece)

namespace Select

variable {α β : Type} {s rest : Supply}

/-! ### Computations that succeed -/

/-- A sequence succeeds just if both parts do, the second one with what is left of the supply. -/
theorem bind_eq_ok {x : Select α} {f : α → Select β} {b : β} :
    (x >>= f) s = .ok b rest ↔ ∃ a next, x s = .ok a next ∧ f a next = .ok b rest := by
  show EStateM.bind x f s = _ ↔ _
  rw [EStateM.bind]
  cases x s with
  | ok a next => simp
  | error e next => simp

/-- A result by itself leaves the supply alone. -/
theorem pure_eq_ok {a b : α} : (pure a : Select α) s = .ok b rest ↔ b = a ∧ rest = s := by
  show EStateM.Result.ok a s = _ ↔ _
  simp [eq_comm]

/-- A failure is no success. -/
theorem throw_ne_ok {e : Failure} {a : α} : (throw e : Select α) s ≠ .ok a rest :=
  nofun

/-- A fresh temporary is the next one of the supply, as long as there is one. -/
theorem fresh_eq_ok {t : Temp} :
    fresh s = .ok t rest ↔ s.next < Supply.limit ∧ t = ⟨s.next⟩ ∧ rest = ⟨s.next + 1⟩ := by
  rw [← Supply.fresh?_eq_some_iff, fresh]
  split
  · next h => simp [h]
  · next h => simp [h]

/-- A computation that starts with a fresh temporary goes on with the rest of the supply. -/
theorem fresh_bind_eq_ok {f : Temp → Select β} {b : β} : (fresh >>= f) s = .ok b rest ↔
    s.next < Supply.limit ∧ f ⟨s.next⟩ ⟨s.next + 1⟩ = .ok b rest := by
  rw [bind_eq_ok]
  constructor
  · rintro ⟨t, next, ht, h⟩
    obtain ⟨hlt, rfl, rfl⟩ := fresh_eq_ok.mp ht
    exact ⟨hlt, h⟩
  · rintro ⟨hlt, h⟩
    exact ⟨_, _, fresh_eq_ok.mpr ⟨hlt, rfl, rfl⟩, h⟩

/-- Along a list, the first computation comes before the others. -/
theorem mapM_cons_eq_ok {f : α → Select β} {a : α} {as : List α} {bs : List β} :
    (a :: as).mapM f s = .ok bs rest ↔
      ∃ b mid cs, f a s = .ok b mid ∧ as.mapM f mid = .ok cs rest ∧ bs = b :: cs := by
  rw [List.mapM_cons]
  simp only [bind_eq_ok, pure_eq_ok]
  grind

end Select

/-! ### The frame pointer by its register -/

namespace Operand

/-- Name the frame pointer by its register where it is read. -/
def inline (fp : Temp) : Operand → Operand
  | read t => if t = fp then register .framePointer else read t
  | o => o

/-- The frame pointer is not replaced where it is written. -/
theorem write?_inline (fp : Temp) (x : Operand) : (x.inline fp).write? = x.write? := by
  cases x with
  | read t => rw [inline]; split <;> rfl
  | _ => rfl

/-- If nothing writes the frame pointer, neither does the first operand nor do the others. -/
theorem notMem_write? {fp t : Temp} {x : Operand} {os : List Operand} (hx : x.write? = some t)
    (h : fp ∉ (x :: os).filterMap write?) : t ≠ fp ∧ fp ∉ os.filterMap write? := by
  rw [List.filterMap_cons_some hx, List.mem_cons, not_or] at h
  exact ⟨Ne.symm h.1, h.2⟩

/-- What is still read is all but the frame pointer. -/
theorem filterMap_read?_inline {fp : Temp} {os : List Operand} (h : fp ∉ os.filterMap write?) :
    (os.map (inline fp)).filterMap read? = (os.filterMap read?).filter (· ≠ fp) := by
  induction os with
  | nil => rfl
  | cons x os ih =>
      cases x with
      | read t =>
          show _ = (t :: os.filterMap read?).filter (· ≠ fp)
          rw [List.map_cons, inline]
          by_cases ht : t = fp
          · rw [if_pos ht, List.filter_cons_of_neg (by simp [ht]), ← ih h]
            rfl
          · rw [if_neg ht, List.filter_cons_of_pos (by simp [ht]), ← ih h]
            rfl
      | update t =>
          -- The frame pointer is not written, so this is not the frame pointer.
          obtain ⟨hne, hrest⟩ := notMem_write? rfl h
          simpa [inline, read?, hne] using ih hrest
      | write t => exact ih (notMem_write? rfl h).2
      | _ => exact ih h

end Operand

namespace Operation

/-- Name the frame pointer by its register where it is read. -/
def inline (fp : Temp) (o : Operation) : Operation :=
  { o with operands := o.operands.map (Operand.inline fp) }

/-- What is written remains. -/
theorem defs_inline (fp : Temp) (o : Operation) : (o.inline fp).defs = o.defs := by
  rw [defs, defs, inline, List.filterMap_map]
  exact congrFun (congrArg List.filterMap (funext (Operand.write?_inline fp))) _

/-- What is still read as a temporary is all but the frame pointer. -/
theorem uses_inline {fp : Temp} {o : Operation} (h : fp ∉ o.defs) :
    (o.inline fp).uses = o.uses.filter (· ≠ fp) :=
  Operand.filterMap_read?_inline h

end Operation

namespace Select

/-- The text of a slot once the frame pointer is named by its register. -/
def slotText (fp : Temp) (template : String) (uses : List Temp) : Slot → Except Failure String
  | .read i =>
      match uses[i]? with
      | none => .error (.readSlotOutOfRange i template)
      | some t =>
        if t = fp then .ok Register.framePointer.name
        else .ok (Slot.read ((uses.take i).filter (· ≠ fp)).length).text
  | s => .ok s.text

section Inversion

variable {fp : Temp} {template inlined : String} {uses kept : List Temp}

/-- Nothing changes if the frame pointer is not read. Otherwise the template is expanded. -/
theorem inlineFramePointer_cases (h : inlineFramePointer fp template uses = .ok (inlined, kept)) :
    (fp ∉ uses ∧ inlined = template ∧ kept = uses) ∨
      Template.expand template (slotText fp template uses) (.malformedTemplate · template) =
        .ok inlined ∧ kept = uses.filter (· ≠ fp) := by
  rw [inlineFramePointer] at h
  by_cases hfp : uses.contains fp = true
  · rw [if_pos hfp] at h
    replace h : (do
        let text ← Template.expand template (slotText fp template uses)
          fun fault => .malformedTemplate fault template
        return (text, uses.filter (· ≠ fp))) = Except.ok (inlined, kept) := h
    cases hexpand : Template.expand template (slotText fp template uses)
        fun fault => .malformedTemplate fault template with
    | error e =>
        rw [hexpand] at h
        cases h
    | ok text =>
        rw [hexpand] at h
        cases h
        exact .inr ⟨rfl, rfl⟩
  · rw [if_neg hfp] at h
    cases h
    exact .inl ⟨by simpa using hfp, rfl, rfl⟩

/-- The temporaries that are kept are all but the frame pointer. -/
theorem kept_of_inlineFramePointer
    (h : inlineFramePointer fp template uses = .ok (inlined, kept)) :
    kept = uses.filter (· ≠ fp) := by
  obtain ⟨hnot, -, rfl⟩ | ⟨-, rfl⟩ := inlineFramePointer_cases h
  · refine (List.filter_eq_self.mpr fun t ht => decide_eq_true ?_).symm
    intro heq
    exact hnot (heq ▸ ht)
  · rfl

/-- What is emitted for an operation has the text that naming the frame pointer gives. -/
theorem inlineFramePointer_of_emit {o : Operation} {s rest : Supply} {i : Instr}
    (h : emit fp o s = .ok i rest) :
    fp ∉ o.defs ∧ rest = s ∧
      ∃ template uses, inlineFramePointer fp o.template o.uses = .ok (template, uses) ∧
        i = .ofKind (.oper template uses o.defs o.targets) := by
  rw [emit] at h
  by_cases hfp : o.defs.contains fp = true
  · rw [if_pos hfp] at h
    exact absurd h throw_ne_ok
  · rw [if_neg hfp] at h
    obtain ⟨⟨template, uses⟩, next, hinline, h⟩ := bind_eq_ok.mp h
    obtain ⟨rfl, rfl⟩ := pure_eq_ok.mp h
    cases hcase : inlineFramePointer fp o.template o.uses with
    | error e =>
        rw [hcase] at hinline
        exact absurd hinline throw_ne_ok
    | ok pair =>
        rw [hcase] at hinline
        obtain ⟨rfl, rfl⟩ := pure_eq_ok.mp hinline
        exact ⟨by simpa using hfp, rfl, template, uses, rfl, rfl⟩

/-- What is emitted for an operation, whatever its text is. -/
theorem operands_of_emit {o : Operation} {s rest : Supply} {i : Instr}
    (h : emit fp o s = .ok i rest) :
    fp ∉ o.defs ∧ rest = s ∧
      ∃ template, i = .ofKind (.oper template (o.uses.filter (· ≠ fp)) o.defs o.targets) := by
  obtain ⟨hfp, hrest, template, uses, hinline, rfl⟩ := inlineFramePointer_of_emit h
  exact ⟨hfp, hrest, template, by rw [kept_of_inlineFramePointer hinline]⟩

end Inversion

end Select

namespace Template

variable {ε : Type} {operand : Slot → Except ε String} {fault : Fault → ε}

/-- Pieces are joined part by part. -/
theorem join_append {ps qs : List Piece} {cs ds : List Char} (hps : join operand fault ps = .ok cs)
    (hqs : join operand fault qs = .ok ds) : join operand fault (ps ++ qs) = .ok (cs ++ ds) := by
  induction ps generalizing cs with
  | nil => cases hps; exact hqs
  | cons p ps ih =>
      cases p with
      | char c =>
          rw [join] at hps
          cases hrest : join operand fault ps with
          | error e => rw [hrest] at hps; cases hps
          | ok rest =>
              rw [hrest] at hps
              cases hps
              rw [List.cons_append, join, ih hrest]
              rfl
      | slot s =>
          rw [join] at hps
          cases htext : operand s with
          | error e => rw [htext] at hps; cases hps
          | ok text =>
              cases hrest : join operand fault ps with
              | error e => rw [htext, hrest] at hps; cases hps
              | ok rest =>
                  rw [htext, hrest] at hps
                  cases hps
                  rw [List.cons_append, join, htext, ih hrest, List.append_assoc]
                  rfl
      | fault f => cases hps

/-- Plain characters are joined as they are. -/
theorem join_chars (cs : List Char) : join operand fault (cs.map .char) = .ok cs := by
  induction cs with
  | nil => rfl
  | cons c cs ih => rw [List.map_cons, join, ih]; rfl

/-- Text in front of the first slot is kept. -/
theorem exists_append_of_join {cs ds : List Char} {ps : List Piece}
    (h : join operand fault (cs.map .char ++ ps) = .ok ds) : ∃ es, ds = cs ++ es := by
  induction cs generalizing ds with
  | nil => exact ⟨ds, rfl⟩
  | cons c cs ih =>
      rw [List.map_cons, List.cons_append, join] at h
      cases hrest : join operand fault (cs.map .char ++ ps) with
      | error e => rw [hrest] at h; cases h
      | ok rest =>
          rw [hrest] at h
          cases h
          obtain ⟨es, rfl⟩ := ih hrest
          exact ⟨es, rfl⟩

/-- Operands between commas are joined one by one. -/
theorem join_intercalate {as bs : List Arg}
    (h : List.Forall₂ (fun a b => join operand fault a.pieces = .ok b.text.toList) as bs) :
    join operand fault ([Piece.char ','].intercalate (as.map Arg.pieces)) =
      .ok ([','].intercalate (bs.map fun b => b.text.toList)) := by
  induction h with
  | nil => rfl
  | cons hab hrest ih =>
      cases hrest with
      | nil => simpa using hab
      | cons hab' hrest' =>
          simp only [List.map_cons, List.intercalate_cons_cons] at ih ⊢
          exact join_append (join_append hab (join_chars [','])) ih

end Template

namespace Select

/-- Each operand is replaced by the one that stands in its place afterwards. -/
theorem forall₂_args_inline {fp : Temp} (template : String) (fault : Template.Fault → Failure)
    {uses before : List Temp} {os : List Operand}
    (huses : uses = before ++ os.filterMap Operand.read?)
    (hdefs : fp ∉ os.filterMap Operand.write?) (writes : Nat) :
    List.Forall₂
      (fun a b => Template.join (slotText fp template uses) fault a.pieces = .ok b.text.toList)
      (Operand.args before.length writes os)
      (Operand.args (before.filter (· ≠ fp)).length writes (os.map (Operand.inline fp))) := by
  -- Slots that are written keep their numbers, and text without a slot stays as it is.
  have hslot : ∀ s : Slot, ∀ text, slotText fp template uses s = .ok text →
      Template.join (slotText fp template uses) fault [.slot s] = .ok text.toList := by
    intro s text htext
    rw [Template.join, htext, Template.join]
    show Except.ok (text.toList ++ []) = _
    rw [List.append_nil]
  induction os generalizing before writes with
  | nil => exact .nil
  | cons o os ih =>
      cases o with
      | read t =>
          have hrest : uses = (before ++ [t]) ++ os.filterMap Operand.read? := by
            simpa [Operand.read?] using huses
          have htail := ih hrest (by simpa [Operand.write?] using hdefs) writes
          have hget : uses[before.length]? = some t := by
            rw [hrest, List.append_assoc, List.getElem?_append_right (Nat.le_refl _), Nat.sub_self]
            rfl
          have htake : uses.take before.length = before := by
            rw [hrest, List.append_assoc, List.take_left]
          rw [List.length_append, List.filter_append, List.length_append] at htail
          by_cases ht : t = fp
          · simp only [List.map_cons, Operand.inline, ht, if_true, Operand.args]
            refine .cons (hslot _ _ ?_) (by simpa [ht] using htail)
            simp [slotText, hget, ht, Arg.text]
          · simp only [List.map_cons, Operand.inline, ht, if_false, Operand.args]
            refine .cons (hslot _ _ ?_) (by simpa [ht] using htail)
            simp [slotText, hget, ht, htake, Arg.text]
      | update t =>
          have hrest : uses = (before ++ [t]) ++ os.filterMap Operand.read? := by
            simpa [Operand.read?] using huses
          obtain ⟨hne, hdefs⟩ := Operand.notMem_write? rfl hdefs
          have htail := ih hrest hdefs (writes + 1)
          rw [List.length_append, List.filter_append, List.length_append] at htail
          exact .cons (hslot _ _ rfl) (by simpa [hne] using htail)
      | write t =>
          exact .cons (hslot _ _ rfl) (ih huses (Operand.notMem_write? rfl hdefs).2 (writes + 1))
      | window => exact .cons (hslot _ _ rfl) (ih huses hdefs writes)
      | number n => exact .cons (Template.join_chars _) (ih huses hdefs writes)
      | label l => exact .cons (Template.join_chars _) (ih huses hdefs writes)
      | register r => exact .cons (Template.join_chars _) (ih huses hdefs writes)
      | remainder => exact .cons (Template.join_chars _) (ih huses hdefs writes)

variable {fp : Temp} {o : Operation}

/-- Rewriting the template of a plain operation gives the template of the operation that names
the frame pointer by its register. -/
theorem inlineFramePointer_template (ho : o.Plain) (h : fp ∉ o.defs) :
    inlineFramePointer fp o.template o.uses = .ok ((o.inline fp).template, (o.inline fp).uses) := by
  have hjoin : Template.join (slotText fp o.template o.uses)
      (fun fault => .malformedTemplate fault o.template) (Template.scan o.template) =
        .ok (o.inline fp).template.toList := by
    rw [Operation.scan_template ho, Operation.toList_template]
    have hargs := forall₂_args_inline o.template
      (fun fault => .malformedTemplate fault o.template) (List.nil_append o.uses).symm h 0
    have hblank :=
      Template.join_append (Template.join_chars [' ']) (Template.join_intercalate hargs)
    exact Template.join_append (Template.join_chars _) hblank
  have hexpand : Template.expand o.template (slotText fp o.template o.uses)
      (fun fault => .malformedTemplate fault o.template) = .ok (o.inline fp).template := by
    rw [Template.expand, hjoin]
    show Except.ok (String.ofList (o.inline fp).template.toList) = _
    rw [String.ofList_toList]
  rw [inlineFramePointer]
  split
  · rw [Operation.uses_inline h]
    show (do
      let text ← Template.expand o.template (slotText fp o.template o.uses)
        fun fault => .malformedTemplate fault o.template
      return (text, o.uses.filter (· ≠ fp))) = _
    rw [hexpand]
    rfl
  · next hnot =>
      -- The frame pointer is not read, so there is nothing to replace.
      have hsame : o.inline fp = o := by
        have hmap : o.operands.map (Operand.inline fp) = o.operands := by
          refine (List.map_congr_left fun x hx => ?_).trans (List.map_id _)
          cases x with
          | read t =>
              have ht : t ∈ o.uses := List.mem_filterMap.mpr ⟨_, hx, rfl⟩
              have hne : t ≠ fp := by
                rintro rfl
                exact hnot (List.contains_iff_mem.mpr ht)
              simp [Operand.inline, hne]
          | _ => rfl
        rw [Operation.inline, hmap]
      rw [hsame]

/-- The instruction of an operation with the frame pointer in its register is emitted,
unless the operation writes the frame pointer. -/
theorem emit_eq_ok (ho : o.Plain) {s rest : Supply} {i : Instr} :
    emit fp o s = .ok i rest ↔ fp ∉ o.defs ∧ i = (o.inline fp).instr ∧ rest = s := by
  rw [emit]
  by_cases h : fp ∈ o.defs
  · simp only [List.contains_eq_mem, h, decide_true, if_true, not_true, false_and, iff_false]
    exact throw_ne_ok
  · simp only [List.contains_eq_mem, h, decide_false, Bool.false_eq_true, if_false,
      inlineFramePointer_template ho h, not_false_eq_true, true_and]
    show EStateM.Result.ok _ s = _ ↔ _
    rw [Operation.instr, Operation.defs_inline]
    simp [Operation.inline, eq_comm]

/-- A copy of the frame pointer becomes an operation, and the frame pointer is not copied to. -/
theorem emitCopy_eq_ok {dst src : Temp} {s rest : Supply} {i : Instr} :
    emitCopy fp dst src s = .ok i rest ↔ dst ≠ fp ∧
      i = (if src = fp then (Operation.copyFramePointer dst).instr else .copy dst src) ∧
        rest = s := by
  rw [emitCopy]
  by_cases hdst : dst = fp
  · simp only [hdst, if_true, ne_eq, not_true, false_and, iff_false]
    exact throw_ne_ok
  · by_cases hsrc : src = fp <;> simp [hdst, hsrc, pure_eq_ok]

/-- Operations in a row are emitted one by one, and draw nothing from the supply. -/
theorem emit_of_mapM_eq_ok {os : List Operation} (hos : ∀ o ∈ os, o.Plain) {s rest : Supply}
    {is : List Instr} (h : os.mapM (emit fp) s = .ok is rest) :
    is = os.map (fun o => (o.inline fp).instr) ∧ rest = s ∧
      ∀ o ∈ os, emit fp o s = .ok (o.inline fp).instr s := by
  induction os generalizing is s with
  | nil =>
      obtain ⟨rfl, rfl⟩ := pure_eq_ok.mp h
      exact ⟨rfl, rfl, nofun⟩
  | cons o os ih =>
      rw [List.forall_mem_cons] at hos
      obtain ⟨i, mid, js, hi, hjs, rfl⟩ := mapM_cons_eq_ok.mp h
      obtain ⟨hfp, rfl, rfl⟩ := (emit_eq_ok hos.1).mp hi
      obtain ⟨rfl, rfl, hall⟩ := ih hos.2 hjs
      exact ⟨rfl, rfl, List.forall_mem_cons.mpr ⟨hi, hall⟩⟩

end Select

/-! ### What is emitted does what the operation says -/

namespace Mmix

variable {E : Type}

/-- The value of a temporary as operations see it: the frame pointer is in its register. -/
def Core.get (fp : Temp) (c : Core E) (t : Temp) : Word :=
  if t = fp then c.hidden.global .framePointer else c.store t

end Mmix

namespace Arg

/-- Whether operands fit depends on which of them are labels only. -/
theorem fits_congr {labelLast : Bool} {n : Nat} {as bs : List Arg}
    (h : as.map isLabel = bs.map isLabel) : fits labelLast n as = fits labelLast n bs := by
  induction n generalizing as bs with
  | zero =>
      rcases as with _ | ⟨a, _ | ⟨a', as⟩⟩ <;> rcases bs with _ | ⟨b, _ | ⟨b', bs⟩⟩ <;>
        simp_all [fits]
  | succ n ih =>
      rcases as with _ | ⟨a, as⟩ <;> rcases bs with _ | ⟨b, bs⟩
      · rfl
      · cases h
      · cases h
      · have hab : a.isLabel = b.isLabel ∧ as.map isLabel = bs.map isLabel := by simpa using h
        rw [fits, fits, hab.1, ih hab.2]

end Arg

namespace Operand

/-- Whether an operand is a label. -/
def isLabel : Operand → Bool
  | label _ => true
  | _ => false

/-- Labels show as labels. -/
theorem map_isLabel_args (os : List Operand) (reads writes : Nat) :
    (args reads writes os).map Arg.isLabel = os.map isLabel := by
  induction os generalizing reads writes with
  | nil => rfl
  | cons o os ih => cases o <;> simp [args, Arg.isLabel, isLabel, ih]

/-- Naming the frame pointer by its register makes no label and removes none. -/
theorem isLabel_inline (fp : Temp) (x : Operand) : (x.inline fp).isLabel = x.isLabel := by
  cases x with
  | read t => rw [inline]; split <;> rfl
  | _ => rfl

/-- What is fetched from the register is the frame pointer as operations see it. -/
theorem input?_inline {E : Type} (fp : Temp) (w : Mmix.World E) (c : Mmix.Core E) (x : Operand) :
    (x.inline fp).input? w c.store c.hidden = x.input? w (c.get fp) c.hidden := by
  cases x with
  | read t => by_cases ht : t = fp <;> simp [inline, input?, Mmix.Core.get, ht]
  | _ => rfl

end Operand

namespace Operation

variable {E : Type} {o : Operation}

/-- Labels and numbers are not put in the place of anything. -/
theorem mem_of_mem_inline {fp : Temp} {x : Operand} (hx : x ∈ (o.inline fp).operands)
    (hfp : x ≠ .register .framePointer) : x ∈ o.operands := by
  obtain ⟨y, hy, rfl⟩ := List.mem_map.mp hx
  cases y with
  | read t =>
      rw [Operand.inline] at hfp ⊢
      split at hfp
      · exact absurd rfl hfp
      · next ht => rwa [if_neg ht]
  | _ => exact hy

/-- An operation with the frame pointer in its register can be read like the one without. -/
theorem Readable.inline (h : o.Readable) (fp : Temp) : (o.inline fp).Readable := by
  have hfits : (o.inline fp).args.map Arg.isLabel = o.args.map Arg.isLabel := by
    rw [args, args, Operand.map_isLabel_args, Operand.map_isLabel_args, Operation.inline,
      List.map_map]
    exact congrFun (congrArg List.map (funext (Operand.isLabel_inline fp))) _
  exact readable_of_fits ((Arg.fits_congr hfits).trans h.fits)
    (fun l hl => h.labels l (mem_of_mem_inline hl (by simp)))
    (fun n hn => h.narrow n (mem_of_mem_inline hn (by simp)))

/-- The operation that is emitted fetches the values that the operation asks for. -/
theorem inputs_inline (fp : Temp) (o : Operation) (w : Mmix.World E) (c : Mmix.Core E) :
    (o.inline fp).inputs w c.store c.hidden = o.inputs w (c.get fp) c.hidden := by
  rw [inputs, inputs, inline, List.filterMap_map]
  exact congrFun (congrArg List.filterMap (funext (Operand.input?_inline fp w c))) _

/-- What the emitted instruction of an operation does. -/
theorem perform_inline (ho : o.Readable) (fp : Temp) (w : Mmix.World E) (c : Mmix.Core E) :
    Mmix.perform w (o.inline fp).instr c =
      ⟨o.defs.foldl (fun store d => Function.update store d
          (Mmix.value c.hidden (((o.inline fp).uses.map c.store).headD 0) o.mnemonic
            (o.inputs w (c.get fp) c.hidden))) c.store,
        Mmix.effect w c.hidden o.mnemonic (o.inline fp).args (o.inputs w (c.get fp) c.hidden)⟩ := by
  rw [perform_instr (ho.inline fp), defs_inline, inputs_inline]
  rfl

end Operation

end MmixCodegen
