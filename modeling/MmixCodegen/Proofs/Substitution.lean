import MmixCodegen.Proofs.Printable
import MmixCodegen.Proofs.Select.Emit

/-!
# `MmixCodegen.Proofs.Substitution`: templates are filled in step by step

A template goes through several hands. Selection writes the register of the frame pointer into
it and numbers the other slots anew, binding writes the window into it, and only then are the
operands filled in. Each time the template is printed and scanned again.

This module says what a template means without a scan. `Reads` is its grammar: text without
marks, and slots whose index is a run of digits as long as possible. `Fills` puts a name in the
place of each slot, and `Expands` does both, so it is the expansion in one pass.
`expand_eq_ok_iff` says that the code does just that, of all templates, also of those that cannot
be read.

`expands_of_expand` is why the steps compose: a template in which each slot is replaced by
something that is read again as some pieces expands to what the old one expands to with the
names of these pieces. `substitutions_compose` has both steps, binding and the frame pointer.
-/

set_option autoImplicit false

namespace MmixCodegen

/-- An outcome without its error is there just if there was no error. -/
theorem toOption_eq_some_iff {ε α : Type} {x : Except ε α} {a : α} :
    x.toOption = some a ↔ x = .ok a := by
  cases x <;> simp [Except.toOption]

namespace Template

/-! ### The grammar of templates -/

/-- Digits that write an index. Leading zeros do not matter. -/
structure Numeral (digits : List Char) (index : Nat) : Prop where
  nonempty : digits ≠ []
  digit : ∀ c ∈ digits, c.isDigit = true
  value : Nat.ofDigitChars 10 digits 0 = index
  small : index < UInt64.size

/-- How a template is read: the pieces of a list of characters. -/
inductive Reads : List Char → List Piece → Prop
  | nil : Reads [] []
  | char {c : Char} {cs : List Char} {ps : List Piece} (plain : c ≠ mark) (rest : Reads cs ps) :
      Reads (c :: cs) (.char c :: ps)
  | window {cs : List Char} {ps : List Piece} (rest : Reads cs ps) :
      Reads (mark :: windowLetter :: cs) (.slot .window :: ps)
  | read {digits cs : List Char} {index : Nat} {ps : List Piece} (numeral : Numeral digits index)
      (ends : ∀ c ∈ cs.head?, c.isDigit = false) (rest : Reads cs ps) :
      Reads (mark :: readLetter :: (digits ++ cs)) (.slot (.read index) :: ps)
  | write {digits cs : List Char} {index : Nat} {ps : List Piece} (numeral : Numeral digits index)
      (ends : ∀ c ∈ cs.head?, c.isDigit = false) (rest : Reads cs ps) :
      Reads (mark :: writeLetter :: (digits ++ cs)) (.slot (.write index) :: ps)

variable {cs ds : List Char} {ps qs : List Piece}

/-- What can be read has no faults. -/
theorem Reads.notMem_fault (h : Reads cs ps) (f : Fault) : Piece.fault f ∉ ps := by
  induction h with
  | nil => exact List.not_mem_nil
  | char _ _ ih | window _ ih | read _ _ _ ih | write _ _ _ ih => simpa using ih

/-- A scan finds what the grammar says. -/
theorem scanFrom_of_reads (h : Reads cs ps) : scanFrom .text cs = ps := by
  induction h with
  | nil => rfl
  | char plain _ ih => rw [scanFrom, if_neg plain, ih]
  | window _ ih =>
      rw [scanFrom, if_pos rfl, scanFrom, if_pos rfl, ih]
  | @read digits cs index ps numeral ends _ ih =>
      have hpiece : slotPiece readLetter (some index) = .slot (.read index) := by
        simp [slotPiece, Nat.not_le.mpr numeral.small]
      rw [scanFrom, if_pos rfl, scanFrom, if_neg (by decide), scanFrom_index numeral.digit,
        foldl_pushDigit_none numeral.nonempty, numeral.value, scanFrom_index_end hpiece ends, ih]
  | @write digits cs index ps numeral ends _ ih =>
      have hpiece : slotPiece writeLetter (some index) = .slot (.write index) := by
        simp [slotPiece, Nat.not_le.mpr numeral.small, writeLetter, readLetter]
      rw [scanFrom, if_pos rfl, scanFrom, if_neg (by decide), scanFrom_index numeral.digit,
        foldl_pushDigit_none numeral.nonempty, numeral.value, scanFrom_index_end hpiece ends, ih]

/-- What a scan has taken in since the last piece. -/
def Mode.Behind : Mode → List Char → Prop
  | .text, cs => cs = []
  | .marked, cs => cs = [mark]
  | .index kind value, cs => ∃ digits : List Char, cs = mark :: kind :: digits ∧
      kind ≠ windowLetter ∧ (∀ c ∈ digits, c.isDigit = true) ∧ digits.foldl pushDigit none = value

/-- An index that ends makes a slot, unless there is a fault in it. -/
theorem reads_slotPiece {kind : Char} {value : Option Nat} {before : List Char}
    (hbefore : (Mode.index kind value).Behind before)
    (hends : ∀ c ∈ cs.head?, c.isDigit = false) (hrest : Reads cs ps)
    (hfault : ∀ f, slotPiece kind value ≠ .fault f) :
    Reads (before ++ cs) (slotPiece kind value :: ps) := by
  obtain ⟨digits, rfl, -, hdigits, rfl⟩ := hbefore
  by_cases hempty : digits = []
  · subst hempty
    exact absurd rfl (hfault .noIndex)
  rw [foldl_pushDigit_none hempty] at hfault ⊢
  -- The index may be too large, and the letter may be none that stands for a slot.
  simp only [slotPiece] at hfault ⊢
  split at hfault
  · exact absurd rfl (hfault .noIndex)
  · next hsmall =>
      have hnumeral : Numeral digits (Nat.ofDigitChars 10 digits 0) :=
        ⟨hempty, hdigits, rfl, Nat.lt_of_not_le hsmall⟩
      rw [if_neg hsmall]
      split at hfault
      · next hread =>
          rw [if_pos hread, hread]
          exact .read hnumeral hends hrest
      · next hread =>
          rw [if_neg hread]
          split at hfault
          · next hwrite =>
              rw [if_pos hwrite, hwrite]
              exact .write hnumeral hends hrest
          · exact absurd rfl (hfault (.unknownKind kind))

/-- A scan without a fault reads all that it has taken in. -/
theorem reads_scanFrom (mode : Mode) (cs : List Char) {before : List Char}
    (hbefore : mode.Behind before) (hfault : ∀ f, Piece.fault f ∉ scanFrom mode cs) :
    Reads (before ++ cs) (scanFrom mode cs) := by
  fun_induction scanFrom mode cs generalizing before with
  | case1 =>
      cases hbefore
      exact .nil
  | case2 cs ih =>
      cases hbefore
      exact ih rfl hfault
  | case3 c cs hc ih =>
      cases hbefore
      exact .char hc (ih rfl fun f hf => hfault f (List.mem_cons_of_mem _ hf))
  | case4 => exact absurd List.mem_cons_self (hfault .dangling)
  | case5 cs ih =>
      cases hbefore
      exact .window (ih rfl fun f hf => hfault f (List.mem_cons_of_mem _ hf))
  | case6 c cs hc ih =>
      cases hbefore
      exact ih ⟨[], rfl, hc, List.forall_mem_nil _, rfl⟩ hfault
  | case7 kind value =>
      exact reads_slotPiece hbefore (by simp) .nil fun f hf => hfault f (by simp [hf])
  | case8 kind value c cs hdigit ih =>
      obtain ⟨digits, rfl, hkind, hdigits, rfl⟩ := hbefore
      have hlonger : (Mode.index kind (pushDigit (digits.foldl pushDigit none) c)).Behind
          (mark :: kind :: (digits ++ [c])) := by
        refine ⟨digits ++ [c], rfl, hkind, ?_, by simp⟩
        rw [List.forall_mem_append]
        exact ⟨hdigits, by simpa using hdigit⟩
      simpa using ih hlonger hfault
  | case9 kind value c cs hdigit f hf => exact absurd List.mem_cons_self (hfault f)
  | case10 kind value c cs hdigit hpiece ihMarked ihText =>
      -- The character that ends an index belongs to the next piece.
      have hrest : Reads (c :: cs)
          (if c = mark then scanFrom .marked cs else .char c :: scanFrom .text cs) := by
        split
        · next hmark =>
            subst hmark
            refine ihMarked rfl fun f hf => hfault f (List.mem_cons_of_mem _ ?_)
            rwa [if_pos rfl]
        · next hplain =>
            refine .char hplain (ihText rfl fun f hf => hfault f (List.mem_cons_of_mem _ ?_))
            rw [if_neg hplain]
            exact List.mem_cons_of_mem _ hf
      refine reads_slotPiece hbefore ?_ hrest hpiece
      simpa using hdigit

/-- The grammar and the scan agree on all texts in which the scan meets no fault. -/
theorem reads_iff : Reads cs ps ↔ scanFrom .text cs = ps ∧ ∀ f, Piece.fault f ∉ ps := by
  refine ⟨fun h => ⟨scanFrom_of_reads h, h.notMem_fault⟩, ?_⟩
  rintro ⟨rfl, hfault⟩
  exact reads_scanFrom .text cs rfl hfault

/-! ### Names for slots -/

/-- The text of some pieces with a name for each slot. -/
inductive Fills (name : Slot → Option String) : List Piece → List Char → Prop
  | nil : Fills name [] []
  | char {c : Char} {ps : List Piece} {cs : List Char} (rest : Fills name ps cs) :
      Fills name (.char c :: ps) (c :: cs)
  | slot {s : Slot} {text : String} {ps : List Piece} {cs : List Char}
      (named : name s = some text) (rest : Fills name ps cs) :
      Fills name (.slot s :: ps) (text.toList ++ cs)

variable {name name' : Slot → Option String}

/-- Joining pieces is putting names in the places of their slots. -/
theorem join_eq_ok_iff {ε : Type} {operand : Slot → Except ε String} {fault : Fault → ε} :
    join operand fault ps = .ok cs ↔ Fills (fun s => (operand s).toOption) ps cs := by
  constructor
  · intro h
    induction ps generalizing cs with
    | nil =>
        cases h
        exact .nil
    | cons p ps ih =>
        cases p with
        | char c =>
            obtain ⟨rest, hrest, h⟩ := bind_eq_ok.mp h
            cases h
            exact .char (ih hrest)
        | slot s =>
            obtain ⟨text, htext, h⟩ := bind_eq_ok.mp h
            obtain ⟨rest, hrest, h⟩ := bind_eq_ok.mp h
            cases h
            exact .slot (by rw [htext]; rfl) (ih hrest)
        | fault f => cases h
  · intro h
    induction h with
    | nil => rfl
    | char _ ih =>
        rw [join, ih]
        rfl
    | @slot s text ps cs named _ ih =>
        cases hs : operand s with
        | error e =>
            rw [hs] at named
            cases named
        | ok text' =>
            rw [hs] at named
            cases named
            rw [join, hs, ih]
            rfl

/-- Pieces can be filled in if each slot has a name. -/
theorem exists_fills_iff : (∃ cs, Fills name ps cs) ↔
    (∀ f, Piece.fault f ∉ ps) ∧ ∀ s, Piece.slot s ∈ ps → (name s).isSome = true := by
  constructor
  · rintro ⟨cs, h⟩
    induction h with
    | nil => simp
    | char _ ih => simpa using ih
    | slot named _ ih =>
        refine ⟨by simpa using ih.1, fun s hs => ?_⟩
        rcases List.mem_cons.mp hs with heq | hs
        · cases heq
          rw [named]
          rfl
        · exact ih.2 s hs
  · rintro ⟨hfault, hslot⟩
    induction ps with
    | nil => exact ⟨[], .nil⟩
    | cons p ps ih =>
        obtain ⟨cs, hcs⟩ := ih (fun f hf => hfault f (List.mem_cons_of_mem _ hf))
          fun s hs => hslot s (List.mem_cons_of_mem _ hs)
        cases p with
        | char c => exact ⟨c :: cs, .char hcs⟩
        | slot s =>
            obtain ⟨text, htext⟩ := Option.isSome_iff_exists.mp (hslot s List.mem_cons_self)
            exact ⟨text.toList ++ cs, .slot htext hcs⟩
        | fault f => exact absurd List.mem_cons_self (hfault f)

/-- Pieces are filled in part by part. -/
theorem fills_append : Fills name (ps ++ qs) cs ↔
    ∃ as bs, cs = as ++ bs ∧ Fills name ps as ∧ Fills name qs bs := by
  constructor
  · intro h
    induction ps generalizing cs with
    | nil => exact ⟨[], cs, rfl, .nil, h⟩
    | cons p ps ih =>
        cases h with
        | char rest =>
            obtain ⟨as, bs, rfl, has, hbs⟩ := ih rest
            exact ⟨_ :: as, bs, rfl, .char has, hbs⟩
        | slot named rest =>
            obtain ⟨as, bs, rfl, has, hbs⟩ := ih rest
            exact ⟨_ ++ as, bs, by simp, .slot named has, hbs⟩
  · rintro ⟨as, bs, rfl, has, hbs⟩
    induction has with
    | nil => exact hbs
    | char _ ih => exact .char ih
    | slot named _ ih =>
        rw [List.append_assoc]
        exact .slot named ih

/-- Plain characters are their own text. -/
theorem fills_chars {text : List Char} : Fills name (text.map .char) cs ↔ cs = text := by
  constructor
  · intro h
    induction text generalizing cs with
    | nil =>
        cases h
        rfl
    | cons c text ih =>
        cases h with
        | char rest => rw [ih rest]
  · rintro rfl
    induction cs with
    | nil => exact .nil
    | cons c cs ih => exact .char ih

/-- A slot by itself becomes its name. -/
theorem fills_slot {s : Slot} : Fills name [.slot s] cs ↔
    ∃ text, name s = some text ∧ cs = text.toList := by
  constructor
  · intro h
    cases h with
    | slot named rest =>
        cases rest
        exact ⟨_, named, List.append_nil _⟩
  · rintro ⟨text, named, rfl⟩
    have h : Fills name [.slot s] (text.toList ++ []) := .slot named .nil
    rwa [List.append_nil] at h

/-- Pieces may be replaced by others if they are filled in with the same text. -/
theorem fills_flatMap {f : Piece → List Piece} (hchar : ∀ c, f (.char c) = [.char c])
    (hslot : ∀ s, Piece.slot s ∈ ps → ∀ cs, Fills name (f (.slot s)) cs ↔
      ∃ text, name' s = some text ∧ cs = text.toList)
    (hfault : ∀ g, Piece.fault g ∉ ps) :
    Fills name (ps.flatMap f) cs ↔ Fills name' ps cs := by
  induction ps generalizing cs with
  | nil =>
      constructor
      · intro h
        cases h
        exact .nil
      · intro h
        cases h
        exact .nil
  | cons p ps ih =>
      have ih : ∀ {cs}, Fills name (ps.flatMap f) cs ↔ Fills name' ps cs :=
        ih (fun s hs => hslot s (List.mem_cons_of_mem _ hs))
          fun g hg => hfault g (List.mem_cons_of_mem _ hg)
      rw [List.flatMap_cons, fills_append]
      cases p with
      | char c =>
          rw [hchar]
          constructor
          · rintro ⟨as, bs, rfl, has, hbs⟩
            cases has with
            | char rest =>
                cases rest
                exact .char (ih.mp hbs)
          · intro h
            cases h with
            | char rest => exact ⟨[c], _, rfl, .char .nil, ih.mpr rest⟩
      | slot s =>
          constructor
          · rintro ⟨as, bs, rfl, has, hbs⟩
            obtain ⟨text, named, rfl⟩ := (hslot s List.mem_cons_self as).mp has
            exact .slot named (ih.mp hbs)
          · intro h
            cases h with
            | slot named rest =>
                exact ⟨_, _, rfl, (hslot s List.mem_cons_self _).mpr ⟨_, named, rfl⟩, ih.mpr rest⟩
      | fault g => exact absurd List.mem_cons_self (hfault g)

/-! ### Expansion in one pass -/

/-- The text of a template that is read once and filled in. -/
def Expands (template : String) (name : Slot → Option String) (text : String) : Prop :=
  ∃ ps, Reads template.toList ps ∧ Fills name ps text.toList

variable {template text : String}

/-- What can be filled in has no faults, so it can be read as well. -/
theorem expands_iff_fills_scan :
    Expands template name text ↔ Fills name (scan template) text.toList := by
  constructor
  · rintro ⟨ps, hreads, hfills⟩
    rwa [scan, scanFrom_of_reads hreads]
  · intro h
    exact ⟨scan template, reads_iff.mpr ⟨rfl, (exists_fills_iff.mp ⟨_, h⟩).1⟩, h⟩

/-- The code expands a template to a text just if reading it once and filling it in does. -/
theorem expand_eq_ok_iff {ε : Type} {operand : Slot → Except ε String} {fault : Fault → ε} :
    expand template operand fault = .ok text ↔
      Expands template (fun s => (operand s).toOption) text := by
  rw [expands_iff_fills_scan]
  refine Iff.trans ?_ (join_eq_ok_iff : join operand fault _ = _ ↔ _)
  constructor
  · intro h
    obtain ⟨cs, hjoin, h⟩ := bind_eq_ok.mp h
    cases h
    rw [hjoin, String.toList_ofList]
  · intro h
    rw [expand, h]
    show Except.ok (String.ofList text.toList) = _
    rw [String.ofList_toList]

/-- The names of slots, given those of the operands that are read and of those that are written. -/
def operandName (reads writes : List String) (window : String) : Slot → Option String
  | .read k => reads[k]?
  | .write k => writes[k]?
  | .window => some window

/-- Rendering is expansion with the names of the operands by position, and the window left open. -/
theorem render?_eq_some_iff {reads writes : List String} :
    render? template reads writes = some text ↔
      Expands template (operandName reads writes Slot.window.text) text := by
  have hname : ∀ x : Option String, (x.elim (.error ()) .ok : Except Unit String).toOption = x := by
    intro x
    cases x <;> rfl
  rw [render?, toOption_eq_some_iff, expand_eq_ok_iff]
  refine iff_of_eq (congrArg (Expands template · text) (funext fun s => ?_))
  cases s with
  | read k => exact hname _
  | write k => exact hname _
  | window => rfl

end Template

/-- The slot has an operand among those that are read or written. -/
def Slot.InRange (reads writes : Nat) : Slot → Prop
  | read k => k < reads
  | write k => k < writes
  | window => True

namespace Template

variable {template text : String} {name name' : Slot → Option String}

/-- A template has an expansion just if it can be read and its slots are in range. -/
theorem exists_expands_iff {reads writes : List String} {window : String} :
    (∃ text, Expands template (operandName reads writes window) text) ↔
      ∃ ps, Reads template.toList ps ∧
        ∀ s, Piece.slot s ∈ ps → s.InRange reads.length writes.length := by
  have hrange : ∀ s : Slot, (operandName reads writes window s).isSome = true ↔
      s.InRange reads.length writes.length := by
    intro s
    cases s <;> simp [operandName, Slot.InRange]
  constructor
  · rintro ⟨text, ps, hreads, hfills⟩
    exact ⟨ps, hreads, fun s hs => (hrange s).mp ((exists_fills_iff.mp ⟨_, hfills⟩).2 s hs)⟩
  · rintro ⟨ps, hreads, hslots⟩
    obtain ⟨cs, hcs⟩ : ∃ cs, Fills (operandName reads writes window) ps cs :=
      exists_fills_iff.mpr ⟨hreads.notMem_fault, fun s hs => (hrange s).mpr (hslots s hs)⟩
    exact ⟨String.ofList cs, ps, hreads, by rwa [String.toList_ofList]⟩

/-- An expansion of an expansion is an expansion. Each slot is written in a way that is read again
as some pieces, and its name is what these pieces are filled in with. -/
theorem expands_of_expand {ε : Type} {operand : Slot → Except ε String} {fault : Fault → ε}
    {f : Piece → List Piece} {new : String} (h : expand template operand fault = .ok new)
    (hchar : ∀ c, f (.char c) = [.char c])
    (hslot : ∀ s text, s.Small → operand s = .ok text → Restates s text (f (.slot s)))
    (hname : ∀ s text, operand s = .ok text → ∀ cs, Fills name (f (.slot s)) cs ↔
      ∃ text, name' s = some text ∧ cs = text.toList) :
    Expands new name text ↔ Expands template name' text := by
  obtain ⟨cs, hjoin, h⟩ := bind_eq_ok.mp h
  cases h
  have hscan : scan (String.ofList cs) = (scan template).flatMap f := by
    rw [scan, String.toList_ofList]
    exact scanFrom_join hchar hslot (spaced_scanFrom .text _) hjoin
  -- The first expansion went through, so each slot of the template has a text.
  obtain ⟨hfault, hnamed⟩ := exists_fills_iff.mp ⟨cs, join_eq_ok_iff.mp hjoin⟩
  rw [expands_iff_fills_scan, expands_iff_fills_scan, hscan]
  refine fills_flatMap hchar (fun s hs => ?_) hfault
  cases hok : operand s with
  | error e =>
      have hsome := hnamed s hs
      rw [hok] at hsome
      cases hsome
  | ok text => exact hname s text hok

/-! ### Binding -/

/-- The window may be written into a template before the operands are. -/
theorem expands_of_bindWindow {window : Register} {new : String} {reads writes : List String}
    (h : Instr.bindWindow template window = .ok new) :
    Expands new (operandName reads writes Slot.window.text) text ↔
      Expands template (operandName reads writes window.name) text := by
  refine expands_of_expand (f := bindPiece window) h (fun _ => rfl)
    (fun s text hsmall htext => restates_boundText hsmall htext) fun s _ _ cs => ?_
  cases s with
  | window =>
      rw [show bindPiece window (.slot .window) =
        window.name.toList.map .char from rfl, fills_chars]
      simp [operandName]
  | read k => exact fills_slot
  | write k => exact fills_slot

end Template

namespace Instr

variable {i : Instr} {window : Register} {color : Temp → Option Register} {reg : Temp → Register}

/-- The text of an instruction once it is bound to registers, if it can be bound and has one. -/
def boundText? (i : Instr) (window : Register) (color : Temp → Option Register) : Option String :=
  (i.bind window color).toOption.bind BoundInstr.text?

/-- Operands that all have registers are bound to these registers. -/
theorem mapM_registerOf {ts : List Temp} (h : ∀ t ∈ ts, color t = some (reg t)) :
    ts.mapM (i.registerOf color) = .ok (ts.map reg) := by
  induction ts with
  | nil => rfl
  | cons t ts ih =>
      rw [List.forall_mem_cons] at h
      rw [List.mapM_cons, registerOf, h.1, ih h.2]
      rfl

/-- What becomes of an instruction that is not a label once all its operands have registers. -/
theorem boundText?_eq (hlabel : i.label? = none) (h : ∀ t ∈ i.operands, color t = some (reg t)) :
    i.boundText? window color = (bindWindow i.template window).toOption.bind fun template =>
      Template.render? template ((i.uses.map reg).map Register.name)
        ((i.defs.map reg).map Register.name) := by
  have huses := mapM_registerOf (i := i) fun t ht => h t (List.mem_append_left _ ht)
  have hdefs := mapM_registerOf (i := i) fun t ht => h t (List.mem_append_right _ ht)
  have hbind : i.bind window color = (do
      let template ← bindWindow i.template window
      return .oper template (i.uses.map reg) (i.defs.map reg) i.jumps) := by
    obtain ⟨kind, live⟩ := i
    cases kind with
    | label l => cases hlabel
    | oper _ _ _ _ | move _ _ _ =>
        rw [bind]
        dsimp only
        rw [huses, hdefs]
        rfl
  rw [boundText?, hbind]
  cases bindWindow i.template window <;> rfl

/-- Binding an instruction and then printing it is expanding its template in one pass. -/
theorem boundText?_eq_some_iff (hlabel : i.label? = none)
    (h : ∀ t ∈ i.operands, color t = some (reg t)) {text : String} :
    i.boundText? window color = some text ↔
      Template.Expands i.template (Template.operandName (i.uses.map fun t => (reg t).name)
        (i.defs.map fun t => (reg t).name) window.name) text := by
  have hmap : ∀ ts : List Temp, (ts.map reg).map Register.name = ts.map fun t => (reg t).name :=
    fun ts => List.map_map
  rw [boundText?_eq hlabel h, hmap, hmap]
  cases hbind : bindWindow i.template window with
  | ok new =>
      rw [← Template.expands_of_bindWindow hbind, ← Template.render?_eq_some_iff]
      rfl
  | error e =>
      -- The template cannot be read, so it has no expansion either.
      refine iff_of_false (by simp [Except.toOption]) ?_
      rintro ⟨ps, hreads, -⟩
      have hwellFormed : Template.WellFormed i.template := by
        intro f
        rw [Template.scan, Template.scanFrom_of_reads hreads]
        exact hreads.notMem_fault f
      obtain ⟨new, hnew⟩ := hwellFormed.bindWindow_eq_ok window
      rw [hbind] at hnew
      cases hnew

end Instr

/-! ### The frame pointer -/

section FramePointer

open Template

variable {fp : Temp} {template inlined text : String} {uses kept : List Temp}

/-- An element that is kept is found at the number of kept elements in front of it. -/
theorem getElem?_filter_of_getElem? {α : Type} {p : α → Bool} {xs : List α} {k : Nat} {x : α}
    (hx : xs[k]? = some x) (hp : p x = true) :
    (xs.filter p)[((xs.take k).filter p).length]? = some x := by
  induction xs generalizing k with
  | nil => simp at hx
  | cons y ys ih =>
      cases k with
      | zero =>
          cases hx
          simp [hp]
      | succ k =>
          have htail := ih (k := k) hx
          by_cases hy : p y = true
          · simpa [hy] using htail
          · simpa [hy] using htail

namespace Select

/-- What a piece of a template becomes once the register of the frame pointer is written into it:
its uses are gone, and the other ones are numbered anew. -/
def inlinePiece (fp : Temp) (uses : List Temp) : Piece → List Piece
  | .slot (.read k) =>
      if uses[k]? = some fp then Register.framePointer.name.toList.map .char
      else [.slot (.read ((uses.take k).filter (· ≠ fp)).length)]
  | p => [p]

/-- A slot that has a text is read again as its pieces. The new index of a slot is at most the old
one, so it can be written. -/
theorem restates_slotText {s : Slot} (hsmall : s.Small)
    (h : slotText fp template uses s = .ok text) :
    Restates s text (inlinePiece fp uses (.slot s)) := by
  cases s with
  | window =>
      cases h
      exact restates_slot hsmall id
  | write k =>
      cases h
      exact restates_slot hsmall id
  | read k =>
      rw [slotText] at h
      cases hget : uses[k]? with
      | none =>
          rw [hget] at h
          cases h
      | some t =>
          rw [hget] at h
          -- The frame pointer is named in place; any other read gets a smaller index.
          by_cases ht : t = fp
          · cases (if_pos ht).symm.trans h
            rw [inlinePiece, if_pos (by rw [hget, ht])]
            exact restates_name _ _
          · cases (if_neg ht).symm.trans h
            rw [inlinePiece, if_neg (by simpa [hget] using ht)]
            refine restates_slot ?_ (fun h => Slot.noConfusion h)
            have hle : ((uses.take k).filter (· ≠ fp)).length ≤ k :=
              Nat.le_trans (List.length_filter_le _ _) (List.length_take_le _ _)
            exact Nat.lt_of_le_of_lt hle hsmall

/-- The name of a slot over the operands that are kept is its name over all of them. -/
theorem fills_inlinePiece {s : Slot} (h : slotText fp template uses s = .ok text)
    (name : Temp → String) (writes : List String) (window : String) (cs : List Char) :
    Fills (operandName ((uses.filter (· ≠ fp)).map name) writes window)
        (inlinePiece fp uses (.slot s)) cs ↔
      ∃ text, operandName (uses.map fun t => if t = fp then Register.framePointer.name else name t)
        writes window s = some text ∧ cs = text.toList := by
  cases s with
  | window => exact fills_slot
  | write k => exact fills_slot
  | read k =>
      cases hget : uses[k]? with
      | none =>
          rw [slotText, hget] at h
          cases h
      | some t =>
          by_cases ht : t = fp
          · rw [inlinePiece, if_pos (by rw [hget, ht]), fills_chars]
            simp [operandName, hget, ht]
          · rw [inlinePiece, if_neg (by simpa [hget] using ht), fills_slot]
            -- The new index counts the reads before `k` that are kept, which is where `t` ends up.
            have hkept := getElem?_filter_of_getElem? (p := (· ≠ fp)) hget (by simpa using ht)
            have hname : operandName ((uses.filter (· ≠ fp)).map name) writes window
                (.read ((uses.take k).filter (· ≠ fp)).length) = some (name t) := by
              rw [operandName, List.getElem?_map, hkept]
              rfl
            rw [hname]
            simp [operandName, hget, ht]

/-- The register of the frame pointer may be written into a template before
the other operands are. -/
theorem expands_of_inlineFramePointer
    (h : inlineFramePointer fp template uses = .ok (inlined, kept))
    (name : Temp → String) (writes : List String) (window : String) :
    Expands inlined (operandName (kept.map name) writes window) text ↔
      Expands template
        (operandName (uses.map fun t => if t = fp then Register.framePointer.name else name t)
          writes window) text := by
  obtain ⟨hnot, rfl, rfl⟩ | ⟨hexpand, rfl⟩ := inlineFramePointer_cases h
  · -- No operand is the frame pointer, so all of them keep their names.
    have hname : kept.map (fun t => if t = fp then Register.framePointer.name else name t) =
        kept.map name := by
      refine List.map_congr_left fun t ht => if_neg ?_
      rintro rfl
      exact hnot ht
    rw [hname]
  · exact expands_of_expand (f := inlinePiece fp uses) hexpand (fun _ => rfl)
      (fun _ _ => restates_slotText) fun s text htext => fills_inlinePiece htext name writes window

end Select

end FramePointer

/-! ### Both steps -/

namespace Template

/-- Templates may be filled in step by step. An instruction that is bound to registers has the
expansion of its template in one pass as its text, and there is one just if the template can be
read and all its slots are in range. A template into which the register of the frame pointer is
written has the same expansions over the operands that are kept as before over all of them. -/
theorem substitutions_compose :
    (∀ (i : Instr) (window : Register) (color : Temp → Option Register) (reg : Temp → Register),
      i.label? = none → (∀ t ∈ i.operands, color t = some (reg t)) →
        ((∃ text, i.boundText? window color = some text) ↔
          ∃ ps, Reads i.template.toList ps ∧
            ∀ s, Piece.slot s ∈ ps → s.InRange i.uses.length i.defs.length) ∧
        ∀ text, i.boundText? window color = some text ↔
          Expands i.template (operandName (i.uses.map fun t => (reg t).name)
            (i.defs.map fun t => (reg t).name) window.name) text) ∧
    ∀ (fp : Temp) (template inlined : String) (uses kept : List Temp),
      Select.inlineFramePointer fp template uses = .ok (inlined, kept) →
        kept = uses.filter (· ≠ fp) ∧
        ∀ (name : Temp → String) (writes : List String) (window text : String),
          Expands inlined (operandName (kept.map name) writes window) text ↔
            Expands template (operandName (uses.map fun t =>
              if t = fp then Register.framePointer.name else name t) writes window) text := by
  constructor
  · intro i window color reg hlabel hcolor
    refine ⟨?_, fun text => Instr.boundText?_eq_some_iff hlabel hcolor⟩
    simp only [Instr.boundText?_eq_some_iff hlabel hcolor, exists_expands_iff, List.length_map]
  · intro fp template inlined uses kept h
    exact ⟨Select.kept_of_inlineFramePointer h, fun name writes window text =>
      Select.expands_of_inlineFramePointer h name writes window⟩

/-- A load whose base is the frame pointer. The index of the base has a leading zero, and
no blank stands between the two slots that are read. -/
theorem load_substitutions_compose :
    Select.inlineFramePointer ⟨0⟩ "LDO `d0,`s00`s1,`k" [⟨0⟩, ⟨5⟩] =
        .ok ("LDO `d0,$253`s0,`k", [⟨5⟩]) ∧
      Expands "LDO `d0,`s00`s1,`k" (operandName ["$253", "$1"] ["$1"] "$2") "LDO $1,$253$1,$2" := by
  have hinline : Select.inlineFramePointer ⟨0⟩ "LDO `d0,`s00`s1,`k" [⟨0⟩, ⟨5⟩] =
      .ok ("LDO `d0,$253`s0,`k", [⟨5⟩]) := by
    rw [← toOption_eq_some_iff]
    decide +kernel
  have hbound : (Instr.ofKind (.oper "LDO `d0,$253`s0,`k" [⟨5⟩] [⟨6⟩] [])).boundText? ⟨2⟩
      (fun _ => some ⟨1⟩) = some "LDO $1,$253$1,$2" := by decide +kernel
  obtain ⟨hbind, hframe⟩ := substitutions_compose
  have hexpands := ((hbind (.ofKind (.oper "LDO `d0,$253`s0,`k" [⟨5⟩] [⟨6⟩] [])) ⟨2⟩
    (fun _ => some ⟨1⟩) (fun _ => ⟨1⟩) rfl fun _ _ => rfl).2 _).mp hbound
  exact ⟨hinline, ((hframe _ _ _ _ _ hinline).2 (fun _ => "$1") ["$1"] "$2" _).mp hexpands⟩

end Template

end MmixCodegen
