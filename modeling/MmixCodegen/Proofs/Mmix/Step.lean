import MmixCodegen.Proofs.Machine
import MmixCodegen.Proofs.Mmix.Read

/-!
# `MmixCodegen.Proofs.Mmix.Step`: what the machine does

The part of MMIX that the selected code uses, over temporaries in place of
registers. The machine reads the text of an instruction (`Mmix.read?`), fetches the
values of its operands and carries it out: arithmetic is on 64-bit words and wraps
around, a division rounds down and leaves its remainder in `rR`, and memory is read
and written in octabytes, so that the last three bits of an address do not matter.
`BNZ` goes on at the next instruction if its operand is zero.

A `World` says what is not part of the code: where labels are, and what a called
procedure does. `Operation.perform_instr` is what the machine makes of an operation,
in terms of its operands, and `Mmix.run_straight` is a run through instructions that do
not jump.
-/

set_option autoImplicit false

namespace MmixCodegen

/-- The contents of a register. -/
abbrev Word := UInt64

/-- The octabytes of the memory, by their addresses divided by eight. -/
abbrev Memory := Word → Word

namespace Memory

/-- The octabyte that an address lies in. -/
def load (m : Memory) (a : Word) : Word :=
  m (a / 8)

/-- Replace the octabyte that an address lies in. -/
def store (m : Memory) (a value : Word) : Memory :=
  Function.update m (a / 8) value

end Memory

/-- Put a number into a group of a word. -/
def Wyde.put (group : Wyde) (n : Word) : Word :=
  n <<< UInt64.ofNat group.shift

/-- Whether a word passes a test against zero. -/
def Condition.test : Condition → Word → Bool
  | zero, x => x = 0
  | nonzero, x => x ≠ 0
  | negative, x => x.toInt64 < 0
  | positive, x => 0 < x.toInt64
  | nonpositive, x => x.toInt64 ≤ 0
  | nonnegative, x => 0 ≤ x.toInt64

namespace Mmix

/-- The quotient of a division, rounded down; zero for a division by zero. -/
def quotient (x y : Word) : Word :=
  (Int64.ofInt (x.toInt64.toInt.fdiv y.toInt64.toInt)).toUInt64

/-- The remainder of a division; the dividend for a division by zero. -/
def residue (x y : Word) : Word :=
  (Int64.ofInt (x.toInt64.toInt.fmod y.toInt64.toInt)).toUInt64

/-- Compare two words as signed numbers. -/
def order (x y : Word) : Word :=
  if x.toInt64 < y.toInt64 then -1 else if x = y then 0 else 1

/-- What there is apart from the temporaries. -/
structure Hidden (E : Type) where
  /-- The registers that operations name. -/
  global : Register → Word
  /-- The special register `rR`. -/
  remainder : Word
  memory : Memory
  /-- Everything else. -/
  rest : E

/-- What the code does not say. -/
structure World (E : Type) where
  /-- The address of a label. -/
  address : Label → Word
  /-- What a called procedure does. -/
  callee : Label → Hidden E → Hidden E

/-- The values of the temporaries, and everything else. -/
structure Core (E : Type) where
  store : Temp → Word
  hidden : Hidden E

variable {E : Type}

/-- The value of an operand that the operation reads. -/
def input? (w : World E) (reads : List Word) (h : Hidden E) : Arg → Option Word
  | .slot (.read i) => reads[i]?
  | .slot _ => none
  | .number n => some (UInt64.ofNat n)
  | .register r => some (h.global r)
  | .remainder => some h.remainder
  | .label l => some (w.address l)

/-- The values that an operation reads. -/
def inputs (w : World E) (as : List Arg) (reads : List Word) (h : Hidden E) : List Word :=
  as.filterMap (input? w reads h)

/-- The word that an operation writes. Operations that add to a group of their
destination start from its `old` value. -/
def value (h : Hidden E) (old : Word) : Mnemonic → (inputs : List Word) → Word
  | .set group, [n] => group.put n
  | .inc group, [n] => old + group.put n
  | .lda, [a] => a
  | .neg, [x] => -x
  | .add, [x, y] => x + y
  | .sub, [x, y] => x - y
  | .mul, [x, y] => x * y
  | .div, [x, y] => quotient x y
  | .and, [x, y] => x &&& y
  | .or, [x, y] => x ||| y
  | .cmp, [x, y] => order x y
  | .zeroOrSet cond, [x, y] => if cond.test x then y else 0
  | .get, [r] => r
  | .ldo, [x, y] => h.memory.load (x + y)
  | _, _ => 0

/-- What an operation does apart from writing a temporary. -/
def effect (w : World E) (h : Hidden E) : Mnemonic → List Arg → (inputs : List Word) → Hidden E
  | .div, _, [x, y] => { h with remainder := residue x y }
  | .sto, _, [z, x, y] => { h with memory := h.memory.store (x + y) z }
  | .pushj, [_, .label l], _ => w.callee l h
  | _, _, _ => h

/-- Only a load writes what it finds in memory. -/
theorem value_of_ne_ldo {m : Mnemonic} (hldo : m ≠ .ldo) (h h' : Hidden E) (old : Word)
    (inputs : List Word) : value h' old m inputs = value h old m inputs := by
  rw [value.eq_def, value.eq_def]
  split <;> first | rfl | exact absurd rfl hldo

/-- Operations other than stores and calls keep registers and memory. -/
theorem effect_keeps (w : World E) (h : Hidden E) {m : Mnemonic} (hsto : m ≠ .sto)
    (hpushj : m ≠ .pushj) (as : List Arg) (inputs : List Word) :
    (effect w h m as inputs).global = h.global ∧ (effect w h m as inputs).memory = h.memory := by
  rw [effect.eq_def]
  split
  · exact ⟨rfl, rfl⟩
  · exact absurd rfl hsto
  · exact absurd rfl hpushj
  · exact ⟨rfl, rfl⟩

/-- The label that an operation jumps to. -/
def target? : Mnemonic → List Arg → (inputs : List Word) → Option Label
  | .jmp, [.label l], _ => some l
  | .bnz, [_, .label l], x :: _ => if x = 0 then none else some l
  | _, _, _ => none

/-! ### By template -/

/-- The word that the operation with a template writes. A destination that it adds to is
the operand that it reads. -/
def result (w : World E) (template : String) (reads : List Word) (h : Hidden E) : Word :=
  match read? template with
  | some (m, as) => value h (reads.headD 0) m (inputs w as reads h)
  | none => 0

/-- What is left by the operation with a template, apart from the temporaries. -/
def outcome (w : World E) (template : String) (reads : List Word) (h : Hidden E) : Hidden E :=
  match read? template with
  | some (m, as) => effect w h m as (inputs w as reads h)
  | none => h

/-- The label that the operation with a template jumps to. -/
def jump? (w : World E) (template : String) (reads : List Word) (h : Hidden E) : Option Label :=
  (read? template).bind fun (m, as) => target? m as (inputs w as reads h)

/-- MMIX as a meaning of operations. An operation that may jump has its target as the first
of its jumps. -/
def meaning (w : World E) : Meaning Word (Hidden E) where
  values template reads h _ := result w template reads h
  hidden := outcome w
  branch template reads h _ := if (jump? w template reads h).isSome then 0 else 1

/-! ### The machine -/

/-- Carry out an instruction. -/
def perform (w : World E) (i : Instr) (c : Core E) : Core E where
  store := i.defs.foldl (fun store d =>
    Function.update store d (result w i.template (i.uses.map c.store) c.hidden)) c.store
  hidden := outcome w i.template (i.uses.map c.store) c.hidden

/-- Carry out instructions in order. -/
def performAll (w : World E) (is : List Instr) (c : Core E) : Core E :=
  is.foldl (fun c i => perform w i c) c

/-- A state of the machine. -/
structure State (E : Type) where
  place : Place
  core : Core E

/-- Where a jump leads. A label that is set twice stands for its last occurrence. -/
def goto (code : List Instr) (l : Label) : Place :=
  match Flow.labelIndex? l code with
  | some index => .line index
  | none => .left l

/-- One step, and the label that it jumps to. The machine stops outside of the code and
at anything that it cannot read. -/
def step (w : World E) (code : List Instr) (s : State E) : State E × List Label :=
  match s.place with
  | .left _ => (s, [])
  | .line index =>
      match code[index]? with
      | none => (s, [])
      | some i =>
          if i.label?.isSome then
            ({ s with place := .line (index + 1) }, [])
          else if (read? i.template).isNone then
            (s, [])
          else
            let jump := jump? w i.template (i.uses.map s.core.store) s.core.hidden
            (⟨jump.elim (.line (index + 1)) (goto code), perform w i s.core⟩, jump.toList)

/-- The state after some steps, and the jumps on the way. -/
def run (w : World E) (code : List Instr) (s : State E) : Nat → State E × List Label
  | 0 => (s, [])
  | n + 1 =>
      let (reached, before) := run w code s n
      let (next, now) := step w code reached
      (next, before ++ now)

/-- A run is a first part followed by a run from where that part ends. -/
theorem run_add (w : World E) (code : List Instr) (s : State E) (n k : Nat) :
    run w code s (n + k) =
      ((run w code (run w code s n).1 k).1,
        (run w code s n).2 ++ (run w code (run w code s n).1 k).2) := by
  induction k with
  | zero => simp [run]
  | succ k ih =>
      rw [← Nat.add_assoc, run, ih]
      simp only [run, List.append_assoc]

/-- Code in two parts is carried out part by part. -/
theorem performAll_append (w : World E) (is js : List Instr) (c : Core E) :
    performAll w (is ++ js) c = performAll w js (performAll w is c) :=
  List.foldl_append

/-- The instruction is an operation that does not jump. -/
def Straight (i : Instr) : Prop :=
  i.label? = none ∧ ∃ m as, read? i.template = some (m, as) ∧ m ≠ .jmp ∧ m ≠ .bnz

/-- An operation that is neither `JMP` nor `BNZ` never jumps. -/
theorem Straight.jump?_eq_none {i : Instr} (h : Straight i) (w : World E) (reads : List Word)
    (hidden : Hidden E) : jump? w i.template reads hidden = none := by
  obtain ⟨-, m, as, hread, hjmp, hbnz⟩ := h
  rw [jump?, hread, Option.bind_some]
  cases m with
  | jmp => exact absurd rfl hjmp
  | bnz => exact absurd rfl hbnz
  | _ => rfl

/-- A step at a straight instruction carries it out and goes on behind it. -/
theorem step_straight {i : Instr} (h : Straight i) {w : World E} {code : List Instr} {index : Nat}
    (hi : code[index]? = some i) (c : Core E) :
    step w code ⟨.line index, c⟩ = (⟨.line (index + 1), perform w i c⟩, []) := by
  have hjump := h.jump?_eq_none w (i.uses.map c.store) c.hidden
  obtain ⟨hlabel, m, as, hread, -⟩ := h
  simp [step, hi, hlabel, hread, hjump]

/-- A run through a part of the code that does not jump. -/
theorem run_straight {part : List Instr} (h : ∀ i ∈ part, Straight i) (w : World E)
    (before after : List Instr) (c : Core E) :
    run w (before ++ part ++ after) ⟨.line before.length, c⟩ part.length =
      (⟨.line (before.length + part.length), performAll w part c⟩, []) := by
  induction part generalizing before c with
  | nil => rfl
  | cons i part ih =>
      have hi : (before ++ i :: part ++ after)[before.length]? = some i := by simp
      have hfirst : run w (before ++ i :: part ++ after) ⟨.line before.length, c⟩ 1 =
          (⟨.line (before.length + 1), perform w i c⟩, []) := by
        simp only [run, step_straight (h i List.mem_cons_self) hi, List.nil_append]
      have hrest := ih (fun j hj => h j (List.mem_cons_of_mem _ hj)) (before ++ [i]) (perform w i c)
      rw [List.length_append, List.length_singleton, List.append_assoc before] at hrest
      rw [List.length_cons, Nat.add_comm part.length, run_add, hfirst]
      simp only [List.nil_append]
      rw [show before ++ i :: part = before ++ ([i] ++ part) from rfl, hrest, ← Nat.add_assoc]
      rfl

end Mmix

/-! ### Operations -/

namespace Operand

variable {E : Type}

/-- The value of an operand that an operation reads, from the values of temporaries.
An operand that is updated is not fetched: the operation starts from it. -/
def input? (w : Mmix.World E) (store : Temp → Word) (h : Mmix.Hidden E) : Operand → Option Word
  | read t => some (store t)
  | number n => some (UInt64.ofNat n)
  | label l => some (w.address l)
  | register r => some (h.global r)
  | remainder => some h.remainder
  | write _ | update _ | window => none

/-- Slots are numbered so that each one finds its own operand. -/
theorem filterMap_args (w : Mmix.World E) (store : Temp → Word) (h : Mmix.Hidden E)
    (os : List Operand) (before : List Word) (writes : Nat) :
    (args before.length writes os).filterMap
        (Mmix.input? w (before ++ (os.filterMap read?).map store) h) =
      os.filterMap (input? w store h) := by
  induction os generalizing before writes with
  | nil => rfl
  | cons o os ih =>
      -- An operand that is read is the next one of those that were.
      have hread : ∀ t n, (args (before.length + 1) n os).filterMap
            (Mmix.input? w (before ++ store t :: (os.filterMap read?).map store) h) =
          os.filterMap (input? w store h) := by
        intro t n
        have hrest := ih (before ++ [store t]) n
        rwa [List.length_append, List.length_singleton, List.append_assoc] at hrest
      cases o with
      | read t =>
          simp only [args, read?, List.filterMap_cons, Mmix.input?, input?, List.map_cons, hread]
          simp
      | update t =>
          simp only [args, read?, List.filterMap_cons, Mmix.input?, input?, List.map_cons, hread]
      | _ => simp only [args, read?, List.filterMap_cons, Mmix.input?, input?, ih]

end Operand

namespace Operation

variable {E : Type} {o : Operation}

/-- The values that an operation reads. -/
def inputs (o : Operation) (w : Mmix.World E) (store : Temp → Word) (h : Mmix.Hidden E) :
    List Word :=
  o.operands.filterMap (Operand.input? w store h)

/-- The operands of a template fetch the same values as those of the operation. -/
theorem inputs_args (o : Operation) (w : Mmix.World E) (store : Temp → Word)
    (h : Mmix.Hidden E) : Mmix.inputs w o.args (o.uses.map store) h = o.inputs w store h :=
  Operand.filterMap_args w store h o.operands [] 0

/-- What is written by the operation that is read is what the operation writes. -/
theorem result_template (ho : o.Readable) (w : Mmix.World E) (store : Temp → Word)
    (h : Mmix.Hidden E) :
    Mmix.result w o.template (o.uses.map store) h =
      Mmix.value h ((o.uses.map store).headD 0) o.mnemonic (o.inputs w store h) := by
  rw [Mmix.result, read?_template ho, ← inputs_args]

/-- What is left by the operation that is read is what the operation leaves. -/
theorem outcome_template (ho : o.Readable) (w : Mmix.World E) (store : Temp → Word)
    (h : Mmix.Hidden E) :
    Mmix.outcome w o.template (o.uses.map store) h =
      Mmix.effect w h o.mnemonic o.args (o.inputs w store h) := by
  rw [Mmix.outcome, read?_template ho, ← inputs_args]

/-- The operation that is read jumps where the operation jumps. -/
theorem jump?_template (ho : o.Readable) (w : Mmix.World E) (store : Temp → Word)
    (h : Mmix.Hidden E) :
    Mmix.jump? w o.template (o.uses.map store) h =
      Mmix.target? o.mnemonic o.args (o.inputs w store h) := by
  rw [Mmix.jump?, read?_template ho, ← inputs_args]
  rfl

/-- What an operation does. -/
theorem perform_instr (ho : o.Readable) (w : Mmix.World E) (c : Mmix.Core E) :
    Mmix.perform w o.instr c =
      ⟨o.defs.foldl (fun store d => Function.update store d
          (Mmix.value c.hidden ((o.uses.map c.store).headD 0) o.mnemonic
            (o.inputs w c.store c.hidden))) c.store,
        Mmix.effect w c.hidden o.mnemonic o.args (o.inputs w c.store c.hidden)⟩ := by
  rw [← result_template ho, ← outcome_template ho]
  rfl

/-- The instruction of an operation that is neither `JMP` nor `BNZ` is straight. -/
theorem straight_instr (ho : o.Readable) (hjmp : o.mnemonic ≠ .jmp) (hbnz : o.mnemonic ≠ .bnz) :
    Mmix.Straight o.instr :=
  ⟨rfl, o.mnemonic, o.args, read?_template ho, hjmp, hbnz⟩

end Operation

namespace Mmix

variable {E : Type} (dst src : Temp)

/-- A copy writes the value of its source to its destination, and nothing else. -/
theorem perform_copy (w : World E) (c : Core E) :
    perform w (.copy dst src) c = ⟨Function.update c.store dst (c.store src), c.hidden⟩ := by
  show perform w (Operation.combineNumber .add dst src 0).instr c = _
  rw [Operation.perform_instr (Operation.proper_combineNumber rfl rfl (by decide)).toReadable]
  show Core.mk (Function.update c.store dst (c.store src + 0)) _ = _
  rw [UInt64.add_zero]
  rfl

/-- A copy does not jump. -/
theorem straight_copy : Straight (.copy dst src) := by
  have hproper : (Operation.combineNumber .add dst src 0).Proper :=
    Operation.proper_combineNumber rfl rfl (by decide)
  obtain ⟨-, hread⟩ := Operation.straight_instr hproper.toReadable nofun nofun
  exact ⟨rfl, hread⟩

end Mmix

end MmixCodegen
