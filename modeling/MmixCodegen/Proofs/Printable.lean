import MmixCodegen.Proofs.Assembly
import MmixCodegen.Proofs.Mmix.Read

/-!
# `MmixCodegen.Proofs.Printable`: bound instructions have a text

An instruction is `Printable` if its template can be read, if each slot of the template has
its operand, and if its label holds no mark. Such an instruction can be bound once all of its
operands have registers, and what it is bound to has a text in which no mark is left
(`Instr.Printable.bind_eq_ok`).

Binding writes the window into the template and keeps the other slots, so the template is
scanned twice. `Template.scan_bindWindow` says that the second scan finds what the first one
found, with the name of a register for each window. It holds of all templates without faults:
a scan takes an index as long as possible, so no digit stands behind a slot (`Spaced`).

The instructions of operations are printable (`Operation.printable_instr`), and so are copies.
-/

set_option autoImplicit false

namespace MmixCodegen

/-- A sequence of computations that all succeed succeeds. -/
theorem mapM_eq_ok {α β ε : Type} {f : α → Except ε β} {P : β → Prop} {as : List α}
    (h : ∀ a ∈ as, ∃ b, f a = .ok b ∧ P b) : ∃ bs, as.mapM f = .ok bs ∧ ∀ b ∈ bs, P b := by
  induction as with
  | nil => exact ⟨[], rfl, nofun⟩
  | cons a as ih =>
      rw [List.forall_mem_cons] at h
      obtain ⟨⟨b, hb, hP⟩, has⟩ := h
      obtain ⟨bs, hbs, hall⟩ := ih has
      refine ⟨b :: bs, ?_, List.forall_mem_cons.mpr ⟨hP, hall⟩⟩
      rw [List.mapM_cons, hb, hbs]
      rfl

namespace Template

/-! ### Scanning twice -/

/-- What a scan can give: characters that are no marks, and slots that can be written as they
are, because no digit follows the index. -/
inductive Spaced : List Piece → Prop
  | nil : Spaced []
  | char {c : Char} {ps : List Piece} (plain : c ≠ mark) (rest : Spaced ps) : Spaced (.char c :: ps)
  | slot {s : Slot} {ps : List Piece} (small : s.Small)
      (ends : s ≠ .window → ∀ c, ps.head? = some (.char c) → c.isDigit = false)
      (rest : Spaced ps) : Spaced (.slot s :: ps)
  | fault (f : Fault) : Spaced [.fault f]

/-- Behind a mark a scan gives no character first. -/
theorem head?_scanFrom_ne_char (mode : Mode) (hmode : mode ≠ .text) (cs : List Char) (c : Char) :
    (scanFrom mode cs).head? ≠ some (.char c) := by
  have hpiece : ∀ kind value, slotPiece kind value ≠ .char c := by
    intro kind value
    unfold slotPiece
    split
    · nofun
    · split
      · nofun
      · split
        · nofun
        · split <;> nofun
  -- After a mark, a slot or a fault comes before any other piece.
  fun_induction scanFrom mode cs with
  | case1 | case2 | case3 => exact absurd rfl hmode
  | case4 => nofun
  | case5 => nofun
  | case6 kind cs hkind ih => exact ih nofun
  | case7 kind value => exact fun h => hpiece kind value (Option.some.inj h)
  | case8 kind value d cs hdigit ih => exact ih nofun
  | case9 => nofun
  | case10 kind value d cs hdigit hfault => exact fun h => hpiece kind value (Option.some.inj h)

/-- A slot that ends in front of something other than a digit can be written as it is. -/
theorem spaced_slotPiece (kind : Char) (value : Option Nat) {ps : List Piece}
    (hps : Spaced ps) (hends : ∀ c, ps.head? = some (.char c) → c.isDigit = false) :
    (∃ f, slotPiece kind value = .fault f) ∨ Spaced (slotPiece kind value :: ps) := by
  unfold slotPiece
  split
  · exact .inl ⟨_, rfl⟩
  · split
    · exact .inl ⟨_, rfl⟩
    · next hsmall =>
      split
      · exact .inr (.slot (Nat.lt_of_not_le hsmall) (fun _ => hends) hps)
      · split
        · exact .inr (.slot (Nat.lt_of_not_le hsmall) (fun _ => hends) hps)
        · exact .inl ⟨_, rfl⟩

/-- Whatever a scan gives is spaced. -/
theorem spaced_scanFrom (mode : Mode) (cs : List Char) : Spaced (scanFrom mode cs) := by
  fun_induction scanFrom mode cs with
  | case1 => exact .nil
  | case2 cs ih => exact ih
  | case3 c cs hc ih => exact .char hc ih
  | case4 => exact .fault _
  | case5 cs ih => exact .slot trivial (fun h => absurd rfl h) ih
  | case6 c cs hc ih => exact ih
  | case7 kind value =>
      rcases spaced_slotPiece kind value .nil nofun with ⟨f, hf⟩ | h
      · exact hf ▸ .fault f
      · exact h
  | case8 kind value c cs hc ih => exact ih
  | case9 kind value c cs hc f hf => exact .fault f
  | case10 kind value c cs hc hpiece ihMarked ihText =>
      -- The index ends at `c`, which is no digit, so what follows cannot continue it.
      have hrest : Spaced (if c = mark then scanFrom .marked cs else .char c :: scanFrom .text cs) ∧
          ∀ d, (if c = mark then scanFrom .marked cs else .char c :: scanFrom .text cs).head? =
            some (.char d) → d.isDigit = false := by
        split
        · exact ⟨ihMarked, fun d hd => absurd hd (head?_scanFrom_ne_char .marked nofun _ _)⟩
        · next hplain =>
          refine ⟨.char hplain ihText, fun d hd => ?_⟩
          cases hd
          simpa using hc
      rcases spaced_slotPiece kind value hrest.1 hrest.2 with ⟨f, hf⟩ | h
      · exact absurd hf (hpiece f)
      · exact h

/-- A piece once the window is written into the template. -/
def bindPiece (window : Register) : Piece → List Piece
  | .slot .window => window.name.toList.map .char
  | p => [p]

/-- The name of a register holds no mark. -/
theorem mark_notMem_name (r : Register) : mark ∉ r.name.toList := by
  rw [show r.name = (Arg.register r).text from rfl, Arg.toList_text_register, List.mem_cons, not_or]
  exact ⟨by decide, mark_notMem_toDigits _⟩

/-- What is written for a slot is read as the pieces `qs`, wherever the slot may stand. It does
not start with a digit, which an index in front of it would take in. -/
structure Restates (s : Slot) (text : String) (qs : List Piece) : Prop where
  head : ∃ c, text.toList.head? = some c ∧ c.isDigit = false
  scan : ∀ rest : List Char, (s ≠ .window → ∀ c ∈ rest.head?, c.isDigit = false) →
    scanFrom .text (text.toList ++ rest) = qs ++ scanFrom .text rest

/-- The name of a register is plain text. -/
theorem restates_name (s : Slot) (r : Register) :
    Restates s r.name (r.name.toList.map .char) where
  head := by
    rw [show r.name = (Arg.register r).text from rfl, Arg.toList_text_register]
    exact ⟨'$', rfl, by decide⟩
  scan := fun rest _ => scanFrom_plain (mark_notMem_name r) rest

/-- A slot may be written for another one. Only the window can stand in front of a digit. -/
theorem restates_slot {s s' : Slot} (hsmall : s'.Small) (hwindow : s = .window → s' = .window) :
    Restates s s'.text [.slot s'] where
  head := by
    refine ⟨mark, ?_, by decide⟩
    cases s' with
    | window => rfl
    | read k | write k =>
        rw [Slot.text, String.toList_append]
        rfl
  scan := by
    intro rest hrest
    by_cases hs : s = .window
    · cases hwindow hs
      rfl
    · exact scanFrom_slot hsmall (hrest hs)

section Join

variable {ε : Type} {operand : Slot → Except ε String} {fault : Fault → ε}
  {f : Piece → List Piece} {ps : List Piece} {cs : List Char}

/-- A text that starts with a slot does not start with a digit. -/
theorem isDigit_head?_join
    (hslot : ∀ s text, s.Small → operand s = .ok text → Restates s text (f (.slot s)))
    (hps : Spaced ps) (hjoin : join operand fault ps = .ok cs)
    (hhead : ∀ c, ps.head? = some (.char c) → c.isDigit = false) :
    ∀ c ∈ cs.head?, c.isDigit = false := by
  intro c hc
  cases hps with
  | nil =>
      cases hjoin
      cases hc
  | char =>
      obtain ⟨rest, -, h⟩ := bind_eq_ok.mp hjoin
      cases h
      cases hc
      exact hhead c rfl
  | slot small =>
      obtain ⟨text, htext, h⟩ := bind_eq_ok.mp hjoin
      obtain ⟨rest, -, h⟩ := bind_eq_ok.mp h
      cases h
      obtain ⟨d, hd, hdigit⟩ := (hslot _ text small htext).head
      rw [List.head?_append, hd] at hc
      cases hc
      exact hdigit
  | fault f => cases hjoin

/-- If each slot is read again as some pieces, then so is the whole text. -/
theorem scanFrom_join (hchar : ∀ c, f (.char c) = [.char c])
    (hslot : ∀ s text, s.Small → operand s = .ok text → Restates s text (f (.slot s)))
    (hps : Spaced ps) (hjoin : join operand fault ps = .ok cs) :
    scanFrom .text cs = ps.flatMap f := by
  induction hps generalizing cs with
  | nil =>
      cases hjoin
      rfl
  | @char c ps plain _ ih =>
      obtain ⟨rest, hrest, h⟩ := bind_eq_ok.mp hjoin
      cases h
      rw [scanFrom, if_neg plain, ih hrest, List.flatMap_cons, hchar]
      rfl
  | @slot s ps small ends hrestSpaced ih =>
      obtain ⟨text, htext, h⟩ := bind_eq_ok.mp hjoin
      obtain ⟨rest, hrest, h⟩ := bind_eq_ok.mp h
      cases h
      -- No digit follows the index, so the slot is read as it was written.
      have hends : s ≠ .window → ∀ c ∈ rest.head?, c.isDigit = false :=
        fun hs => isDigit_head?_join hslot hrestSpaced hrest (ends hs)
      rw [List.flatMap_cons, ← ih hrest, (hslot s text small htext).scan rest hends]
  | fault f => cases hjoin

end Join

section BindWindow

variable {window : Register}

/-- The text of a slot once the window is known. -/
def boundText (window : Register) : Slot → Except Failure String
  | .window => .ok window.name
  | s => .ok s.text

/-- What is written for a slot, once the window is known, is read as the slot or as the name of
the window. -/
theorem restates_boundText {s : Slot} {text : String} (hsmall : s.Small)
    (h : boundText window s = .ok text) : Restates s text (bindPiece window (.slot s)) := by
  cases s with
  | window =>
      cases h
      exact restates_name .window window
  | read k | write k =>
      cases h
      exact restates_slot hsmall id

/-- Binding writes the window into the template and keeps all other pieces. -/
theorem scan_bindWindow {template text : String}
    (h : Instr.bindWindow template window = .ok text) :
    scan text = (scan template).flatMap (bindPiece window) := by
  obtain ⟨cs, hjoin, h⟩ := bind_eq_ok.mp h
  cases h
  rw [scan, String.toList_ofList]
  exact scanFrom_join (fun _ => rfl) (fun _ _ hsmall htext => restates_boundText hsmall htext)
    (spaced_scanFrom .text _) hjoin

end BindWindow

/-! ### Filling in operands -/

/-- The template can be read, and each of its slots has an operand. -/
structure Fillable (template : String) (reads writes : Nat) : Prop where
  wellFormed : WellFormed template
  read : ∀ k, Piece.slot (.read k) ∈ scan template → k < reads
  write : ∀ k, Piece.slot (.write k) ∈ scan template → k < writes

/-- A scan gives no mark as a plain character. -/
theorem Spaced.ne_mark {ps : List Piece} (h : Spaced ps) {c : Char} (hc : Piece.char c ∈ ps) :
    c ≠ mark := by
  induction h with
  | nil => cases hc
  | char plain _ ih =>
      rcases List.mem_cons.mp hc with heq | hc
      · cases heq
        exact plain
      · exact ih hc
  | slot _ _ _ ih =>
      rcases List.mem_cons.mp hc with heq | hc
      · cases heq
      · exact ih hc
  | fault f =>
      cases List.mem_singleton.mp hc

/-- Pieces whose slots have texts without marks are joined to a text without marks. -/
theorem join_unmarked {ε : Type} {operand : Slot → Except ε String} {fault : Fault → ε}
    {ps : List Piece} (hfault : ∀ f, Piece.fault f ∉ ps) (hchar : ∀ c, Piece.char c ∈ ps → c ≠ mark)
    (hslot : ∀ s, Piece.slot s ∈ ps → ∃ text, operand s = .ok text ∧ mark ∉ text.toList) :
    ∃ cs, join operand fault ps = .ok cs ∧ mark ∉ cs := by
  induction ps with
  | nil => exact ⟨[], rfl, List.not_mem_nil⟩
  | cons p ps ih =>
      obtain ⟨cs, hcs, hplain⟩ := ih (fun f hf => hfault f (List.mem_cons_of_mem _ hf))
        (fun c hc => hchar c (List.mem_cons_of_mem _ hc))
        fun s hs => hslot s (List.mem_cons_of_mem _ hs)
      cases p with
      | char c =>
          refine ⟨c :: cs, by rw [join, hcs]; rfl, ?_⟩
          rw [List.mem_cons, not_or]
          exact ⟨Ne.symm (hchar c List.mem_cons_self), hplain⟩
      | slot s =>
          obtain ⟨text, htext, hmark⟩ := hslot s List.mem_cons_self
          refine ⟨text.toList ++ cs, by rw [join, htext, hcs]; rfl, ?_⟩
          rw [List.mem_append, not_or]
          exact ⟨hmark, hplain⟩
      | fault f => exact absurd List.mem_cons_self (hfault f)

/-- The text of a slot over the names of operands. -/
def slotName (reads writes : List Register) : Slot → Except Unit String
  | .read i => (reads.map Register.name)[i]?.elim (.error ()) .ok
  | .write i => (writes.map Register.name)[i]?.elim (.error ()) .ok
  | .window => .ok Slot.window.text

/-- A template without windows is filled in with names. -/
theorem Fillable.render?_eq_some {template : String} {reads writes : List Register}
    (h : Fillable template reads.length writes.length) (hwindow : .slot .window ∉ scan template) :
    ∃ text, render? template (reads.map Register.name) (writes.map Register.name) = some text ∧
      mark ∉ text.toList := by
  -- Every slot has an operand, and the name of a register holds no mark.
  have hname : ∀ (rs : List Register) (k : Nat), k < rs.length →
      ∃ text, ((rs.map Register.name)[k]?.elim (.error ()) .ok : Except Unit String) = .ok text ∧
        mark ∉ text.toList := by
    intro rs k hk
    rw [List.getElem?_map, List.getElem?_eq_getElem hk]
    exact ⟨_, rfl, mark_notMem_name _⟩
  have hslot : ∀ s, Piece.slot s ∈ scan template →
      ∃ text, slotName reads writes s = .ok text ∧ mark ∉ text.toList := by
    intro s hs
    cases s with
    | read k => exact hname reads k (h.read k hs)
    | write k => exact hname writes k (h.write k hs)
    | window => exact absurd hs hwindow
  have hchar : ∀ c, Piece.char c ∈ scan template → c ≠ mark :=
    fun c hc => (spaced_scanFrom .text _).ne_mark hc
  obtain ⟨cs, hcs, hplain⟩ : ∃ cs, join (slotName reads writes) (fun _ => ()) (scan template) =
      .ok cs ∧ mark ∉ cs := join_unmarked h.wellFormed hchar hslot
  refine ⟨String.ofList cs, ?_, by rwa [String.toList_ofList]⟩
  show (expand template (slotName reads writes) fun _ => ()).toOption = _
  rw [expand, hcs]
  rfl

/-- Once the window is written into a template, it can still be filled in, and no window is left. -/
theorem Fillable.bindWindow {template : String} {reads writes : Nat}
    (h : Fillable template reads writes) (window : Register) :
    ∃ text, Instr.bindWindow template window = .ok text ∧ Fillable text reads writes ∧
      .slot .window ∉ scan text := by
  obtain ⟨text, htext⟩ := h.wellFormed.bindWindow_eq_ok window
  -- What is not a character was there before, and it is no window.
  have hold : ∀ p : Piece, p ∈ scan text → (∃ c, p = .char c) ∨
      p ≠ .slot .window ∧ p ∈ scan template := by
    intro p hp
    rw [scan_bindWindow htext, List.mem_flatMap] at hp
    obtain ⟨q, hq, hp⟩ := hp
    unfold bindPiece at hp
    split at hp
    · obtain ⟨c, -, rfl⟩ := List.mem_map.mp hp
      exact .inl ⟨c, rfl⟩
    · next hne =>
      obtain rfl := List.mem_singleton.mp hp
      exact .inr ⟨hne, hq⟩
  refine ⟨text, htext, ⟨fun f hf => ?_, fun k hk => ?_, fun k hk => ?_⟩, fun hp => ?_⟩
  · rcases hold _ hf with ⟨c, hc⟩ | ⟨-, hf⟩
    · cases hc
    · exact h.wellFormed f hf
  · rcases hold _ hk with ⟨c, hc⟩ | ⟨-, hk⟩
    · cases hc
    · exact h.read k hk
  · rcases hold _ hk with ⟨c, hc⟩ | ⟨-, hk⟩
    · cases hc
    · exact h.write k hk
  · rcases hold _ hp with ⟨c, hc⟩ | ⟨hne, -⟩
    · cases hc
    · exact hne rfl

end Template

/-! ### Bound instructions -/

namespace BoundInstr

/-- The registers of an instruction: those that are read, then those that are written. -/
def registers : BoundInstr → List Register
  | oper _ uses defs _ => uses ++ defs
  | label _ => []

/-- The instruction has a text without marks, and its registers lie below `bound`. -/
structure Resolved (b : BoundInstr) (bound : Nat) : Prop where
  text : ∃ text, b.text? = some text ∧ Template.mark ∉ text.toList
  registers : ∀ r ∈ b.registers, r.index.toNat < bound

/-- An instruction with a text has a line without marks. -/
theorem Resolved.line {b : BoundInstr} {bound : Nat} (h : b.Resolved bound) :
    ∃ line, b.line? = some line ∧ Template.mark ∉ line.toList := by
  obtain ⟨text, htext, hmark⟩ := h.text
  cases b with
  | label l =>
      refine ⟨text ++ "\n", by rw [line?, htext]; rfl, ?_⟩
      simpa [Template.mark] using hmark
  | oper template uses defs jumps =>
      refine ⟨"\t" ++ text ++ "\n", ?_, by simpa [Template.mark] using hmark⟩
      show (text? _).map _ = _
      rw [htext]
      rfl

end BoundInstr

namespace Instr

/-- The template of the instruction has an operand for each slot, and its label holds no mark. -/
structure Printable (i : Instr) : Prop where
  label : ∀ l, i.label? = some l → l.Plain
  fillable : Template.Fillable i.template i.uses.length i.defs.length

variable {i j : Instr}

/-- Live sets do not matter for whether an instruction is printable. -/
theorem Printable.congr (h : i.Printable) (hkind : j.kind = i.kind) : j.Printable := by
  obtain ⟨kind, live⟩ := i
  obtain ⟨kind', live'⟩ := j
  cases hkind
  exact ⟨h.label, h.fillable⟩

/-- Operands that have registers below a bound are bound to registers below it. -/
theorem registers_eq_ok {color : Temp → Option Register} {bound : Nat} {ts : List Temp}
    (h : ∀ t ∈ ts, ∃ r, color t = some r ∧ r.index.toNat < bound) :
    ∃ rs, ts.mapM (i.registerOf color) = .ok rs ∧ rs.length = ts.length ∧
      ∀ r ∈ rs, r.index.toNat < bound := by
  obtain ⟨rs, hrs, hbound⟩ : ∃ rs, ts.mapM (i.registerOf color) = .ok rs ∧
      ∀ r ∈ rs, r.index.toNat < bound := by
    refine mapM_eq_ok fun t ht => ?_
    obtain ⟨r, hr, hlt⟩ := h t ht
    exact ⟨r, by rw [registerOf, hr], hlt⟩
  exact ⟨rs, hrs, (forall₂_of_mapM_eq_ok hrs).length_eq.symm, hbound⟩

/-- A printable instruction can be bound once its operands have registers, and then
it has a text. -/
theorem Printable.bind_eq_ok (h : i.Printable) (window : Register)
    {color : Temp → Option Register} {bound : Nat}
    (hcolors : ∀ t ∈ i.operands, ∃ r, color t = some r ∧ r.index.toNat < bound) :
    ∃ b, i.bind window color = .ok b ∧ b.Resolved bound := by
  -- A label is bound as it is. All else has operands, and each of them has a register.
  cases hlabel : i.label? with
  | some l =>
      have hkind : i.kind = .label l := by
        obtain ⟨kind, live⟩ := i
        cases kind <;> cases hlabel
        rfl
      refine ⟨.label l, by rw [bind, hkind], ⟨l.name ++ ":", rfl, ?_⟩, nofun⟩
      have hplain : Template.mark ∉ l.name.toList := h.label l hlabel
      simpa [Template.mark] using hplain
  | none =>
      obtain ⟨us, hus, huses, husBound⟩ := registers_eq_ok (i := i) fun t ht =>
        hcolors t (List.mem_append_left _ ht)
      obtain ⟨ds, hds, hdefs, hdsBound⟩ := registers_eq_ok (i := i) fun t ht =>
        hcolors t (List.mem_append_right _ ht)
      obtain ⟨template, htemplate, hfillable, hwindow⟩ := h.fillable.bindWindow window
      rw [← huses, ← hdefs] at hfillable
      refine ⟨.oper template us ds i.jumps, ?_, hfillable.render?_eq_some hwindow, ?_⟩
      · obtain ⟨kind, live⟩ := i
        cases kind with
        | label l => cases hlabel
        | oper _ _ _ _ | move _ _ _ =>
            rw [bind]
            dsimp only
            rw [hus, hds, htemplate]
            rfl
      · intro r hr
        exact (List.mem_append.mp hr).elim (husBound r) (hdsBound r)

end Instr

/-! ### Operations -/

namespace Operand

/-- Slots are numbered by the operands of their kind to the left of them. -/
theorem slot_mem_args {os : List Operand} {reads writes : Nat} {s : Slot}
    (h : .slot s ∈ args reads writes os) :
    (∀ k, s = .read k → k < reads + (os.filterMap read?).length) ∧
      ∀ k, s = .write k → k < writes + (os.filterMap write?).length := by
  induction os generalizing reads writes with
  | nil => cases h
  | cons o os ih =>
      -- A slot of a later operand is in place by induction; otherwise the first operand is it.
      cases o <;> rw [args, List.mem_cons] at h <;> rcases h with heq | h
      case read.inr | write.inr | update.inr | number.inr | label.inr | register.inr |
          remainder.inr | window.inr =>
        obtain ⟨hread, hwrite⟩ := ih h
        refine ⟨fun k hk => ?_, fun k hk => ?_⟩
        · have hlt := hread k hk
          simp only [List.filterMap_cons, read?, List.length_cons] at hlt ⊢
          omega
        · have hlt := hwrite k hk
          simp only [List.filterMap_cons, write?, List.length_cons] at hlt ⊢
          omega
      case number.inl | label.inl | register.inl | remainder.inl => cases heq
      case window.inl =>
        cases heq
        constructor <;> rintro k ⟨⟩
      case read.inl =>
        cases heq
        constructor <;> rintro k ⟨⟩
        simp [read?]
      case write.inl | update.inl =>
        cases heq
        constructor <;> rintro k ⟨⟩
        simp [write?]

end Operand

namespace Arg

variable {s : Slot}

/-- The text of an operand shows a slot just if the operand is that slot. -/
theorem slot_mem_pieces_iff {a : Arg} : Template.Piece.slot s ∈ a.pieces ↔ a = .slot s := by
  cases a <;> simp [pieces, eq_comm]

/-- Operands between commas show the slots that are among them. -/
theorem slot_mem_intercalate_iff {as : List Arg} :
    Template.Piece.slot s ∈ [Template.Piece.char ','].intercalate (as.map pieces) ↔
      .slot s ∈ as := by
  induction as with
  | nil => simp
  | cons a as ih =>
      cases as with
      | nil =>
          rw [List.map_singleton, List.intercalate_singleton, slot_mem_pieces_iff,
            List.mem_singleton, eq_comm]
      | cons b bs =>
          -- The comma is a character.
          have hcomma : Template.Piece.slot s ∉ [Template.Piece.char ','] := by simp
          rw [List.map_cons, List.map_cons, List.intercalate_cons_cons, List.mem_append,
            List.mem_append, or_iff_left hcomma, ← List.map_cons, ih, slot_mem_pieces_iff, eq_comm]
          exact List.mem_cons.symm

end Arg

namespace Operation

variable {o : Operation}

/-- The template of an operation shows the slots of its operands. -/
theorem slot_mem_pieces_iff {s : Slot} : .slot s ∈ o.pieces ↔ .slot s ∈ o.args := by
  -- The mnemonic and the blank behind it are characters.
  have hname : Template.Piece.slot s ∉ o.mnemonic.name.toList.map Template.Piece.char := by simp
  have hblank : Template.Piece.slot s ≠ .char ' ' := by simp
  rw [pieces, List.mem_append, List.mem_cons, or_iff_right hname, or_iff_right hblank,
    Arg.slot_mem_intercalate_iff]

/-- Slots and operands of an operation are made from the same list, so each slot has its operand. -/
theorem fillable_template (h : o.Plain) :
    Template.Fillable o.template o.uses.length o.defs.length where
  wellFormed := wellFormed_template h
  read := by
    intro k hk
    rw [scan_template h] at hk
    have hlt := (Operand.slot_mem_args (slot_mem_pieces_iff.mp hk)).1 k rfl
    rwa [Nat.zero_add] at hlt
  write := by
    intro k hk
    rw [scan_template h] at hk
    have hlt := (Operand.slot_mem_args (slot_mem_pieces_iff.mp hk)).2 k rfl
    rwa [Nat.zero_add] at hlt

/-- The instruction of a plain operation is printable. -/
theorem printable_instr (h : o.Plain) : o.instr.Printable :=
  ⟨nofun, fillable_template h⟩

end Operation

namespace Instr

/-- A copy is written like an addition of zero. -/
theorem template_copy (dst src : Temp) :
    (copy dst src).template = (Operation.combineNumber .add dst src 0).template := rfl

/-- A copy is printable. -/
theorem printable_copy (dst src : Temp) : (copy dst src).Printable := by
  refine ⟨nofun, ?_⟩
  rw [template_copy]
  exact Operation.fillable_template (Operation.plain_combineNumber .add 0)

/-- A plain label is printable. -/
theorem printable_label {l : Label} (h : l.Plain) : (ofKind (.label l)).Printable := by
  refine ⟨fun m hm => ?_, ⟨fun f hf => ?_, fun k hk => ?_, fun k hk => ?_⟩⟩
  · cases hm
    exact h
  · cases hf
  · cases hk
  · cases hk

end Instr

end MmixCodegen
