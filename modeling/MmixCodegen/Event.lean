import MmixCodegen.Instr

/-!
# Events

Code generation reports what it does as a sequence of events, and a computation
that reports events gives them together with its outcome.
-/

set_option autoImplicit false

namespace MmixCodegen

/-!
## Events

Code generation reports what it does as a sequence of events. Each event has a
level of detail and a text. An event that shows an instruction without a text
has none itself.
-/

/-- The levels of detail, from coarse to fine. -/
inductive Level where
  | warn
  | debug
  | trace
deriving DecidableEq, Repr

namespace Level

/-- The rank of a level; finer levels have a higher rank. -/
def rank : Level → Nat
  | warn => 0
  | debug => 1
  | trace => 2

/-- The name of a level in reports. -/
def name : Level → String
  | warn => "WARN"
  | debug => "DEBUG"
  | trace => "TRACE"

end Level

/-- Something that happened during code generation. -/
inductive Event where
  /-- Instructions were selected for a procedure. -/
  | selected (count : Nat) (label : Label)
  /-- The live sets of a routine no longer change. -/
  | liveSettled (label : Label) (passes : Nat)
  /-- The interference graph is complete. -/
  | graphBuilt (nodes edges moves : Nat)
  /-- A temporary of low degree was taken out of the graph. -/
  | simplified (t : Temp)
  /-- The moves of a temporary were given up. -/
  | frozen (t : Temp)
  /-- Every candidate for spilling is protected, and one is taken all the same. -/
  | onlyProtected (t : Temp)
  /-- A temporary of high degree was chosen to leave the graph. -/
  | potentialSpill (t : Temp)
  /-- No register was left for a temporary. -/
  | actualSpill (t : Temp)
  /-- The temporary `src` was merged into `dst`. -/
  | merged (src dst : Temp)
  /-- Both ends of a move had been merged before. -/
  | alreadyMerged (dst src : Temp)
  /-- The ends of a move interfere. -/
  | constrained (dst src : Temp)
  /-- A colouring is complete. -/
  | colored (temps registers spilled coalesced moves : Nat)
  /-- A routine got slots for spilled temporaries. -/
  | slotsAdded (label : Label) (added : Nat) (size : Int)
  /-- A round ended with spilling. -/
  | spillRound (round : Nat) (spilled : TempSet) (slots coalesced supply : Nat)
  /-- Only temporaries made by spilling were left without a register. -/
  | stuck (round : Nat) (spilled : TempSet)
  /-- Every temporary has a register. -/
  | converged (rounds spilled instrs : Nat)
  /-- The final code of a routine follows. -/
  | routine (label : Label)
  /-- An instruction of the final code. -/
  | instr (i : Instr)
  /-- The register of a temporary of the final code. -/
  | assignment (t : Temp) (reg : Option Register)

namespace Event

/-- The level of an event. -/
def level : Event → Level
  | selected _ _ => .trace
  | liveSettled _ _ => .trace
  | graphBuilt _ _ _ => .trace
  | simplified _ => .trace
  | frozen _ => .trace
  | onlyProtected _ => .warn
  | potentialSpill _ => .trace
  | actualSpill _ => .trace
  | merged _ _ => .trace
  | alreadyMerged _ _ => .trace
  | constrained _ _ => .trace
  | colored _ _ _ _ _ => .debug
  | slotsAdded _ _ _ => .debug
  | spillRound _ _ _ _ _ => .debug
  | stuck _ _ => .warn
  | converged _ _ _ => .debug
  | routine _ => .debug
  | instr _ => .debug
  | assignment _ _ => .debug

/-- The operands and live sets of an instruction, listed. -/
def instrNotes (i : Instr) : String :=
  let uses := Temp.listing i.uses
  let defs := Temp.listing i.defs
  let before := Temp.listing i.live.before.toList
  let after := Temp.listing i.live.after.toList
  s!"  uses={uses} defs={defs} in={before} out={after}"

/-- The text of an event. -/
def text? : Event → Option String
  | selected count label => some s!"selected {count} instructions for {label.name}"
  | liveSettled label passes =>
      some s!"liveness for {label.name} converged after {passes} passes"
  | graphBuilt nodes edges moves =>
      some s!"interference graph: {nodes} nodes, {edges} edges, {moves} moves"
  | simplified t => some s!"simplify {t.name}"
  | frozen t => some s!"freeze {t.name}"
  | onlyProtected t =>
      some s!"every spill candidate was introduced by spilling; choosing {t.name} anyway"
  | potentialSpill t => some s!"potential spill {t.name}"
  | actualSpill t => some s!"actual spill {t.name}"
  | merged src dst => some s!"coalesce {src.name} into {dst.name}"
  | alreadyMerged dst src => some s!"move {dst.name} := {src.name} already coalesced"
  | constrained dst src => some s!"move {dst.name} := {src.name} constrained"
  | colored temps registers spilled coalesced moves =>
      some (s!"colored {temps} temps with k={registers}: {spilled} spilled, " ++
        s!"{coalesced} of {moves} moves coalesced")
  | slotsAdded label added size =>
      some s!"{label.name}: {added} new spill slots, {size} bytes of temporaries"
  | spillRound round spilled slots coalesced supply =>
      let temps := TempSet.listing spilled
      some (s!"round {round}: spilled {temps} into {slots} new slots, " ++
        s!"{coalesced} moves coalesced, {supply} temps allocated")
  | stuck round spilled =>
      let temps := TempSet.listing spilled
      some s!"round {round}: only spill temporaries {temps} left uncolored"
  | converged rounds spilled instrs =>
      some (s!"allocation converged after {rounds} rounds, {spilled} temps spilled, " ++
        s!"{instrs} instructions")
  | routine label => some s!"{label.name}:"
  | instr i => i.text?.map fun text => "  " ++ text ++ instrNotes i
  | assignment t (some reg) => some s!"  {t.name} -> {reg.name}"
  | assignment t none => some s!"  {t.name} -> <none>"

/-- The line of an event in a report. -/
def line (e : Event) : String :=
  e.level.name ++ " " ++ e.text?.getD "<format error>"

/-- The lines of all events up to a level. -/
def report (level : Level) (events : List Event) : List String :=
  (events.filter fun e => e.level.rank ≤ level.rank).map line

end Event

/-!
## Results with events

A computation that reports events gives them together with its outcome. After
a failure the events up to it are kept.
-/

/-- An outcome and the events on the way to it. -/
structure Logged (α : Type) where
  events : List Event
  outcome : Except Failure α

namespace Logged

variable {α β : Type}

/-- Go on with `f` unless the first part failed. -/
def andThen (x : Logged α) (f : α → Logged β) : Logged β :=
  match x.outcome with
  | .ok a =>
      let y := f a
      ⟨x.events ++ y.events, y.outcome⟩
  | .error e => ⟨x.events, .error e⟩

instance : Monad Logged where
  pure a := ⟨[], .ok a⟩
  bind := andThen

/-- A result at the end of a computation adds nothing. -/
theorem andThen_pure (x : Logged α) : x.andThen pure = x := by
  obtain ⟨events, outcome⟩ := x
  cases outcome with
  | error e => rfl
  | ok a =>
    show Logged.mk (events ++ []) (.ok a) = ⟨events, .ok a⟩
    rw [List.append_nil]

/-- It does not matter how a sequence of computations is bracketed. -/
theorem andThen_assoc {γ : Type} (x : Logged α) (f : α → Logged β) (g : β → Logged γ) :
    (x.andThen f).andThen g = x.andThen fun a => (f a).andThen g := by
  obtain ⟨events, outcome⟩ := x
  cases outcome with
  | error e => rfl
  | ok a =>
    simp only [andThen]
    cases (f a).outcome with
    | error e => rfl
    | ok b => simp only [List.append_assoc]

instance : LawfulMonad Logged :=
  LawfulMonad.mk' Logged (fun x => andThen_pure x) (fun _ _ => rfl)
    (fun x f g => andThen_assoc x f g)

/-- Report one event. -/
def emit (e : Event) : Logged Unit :=
  ⟨[e], .ok ()⟩

/-- Report several events. -/
def emitAll (es : List Event) : Logged Unit :=
  ⟨es, .ok ()⟩

/-- An outcome without events. -/
def ofExcept (x : Except Failure α) : Logged α :=
  ⟨[], x⟩

/-- A failure without events. -/
def fail (e : Failure) : Logged α :=
  ⟨[], .error e⟩

/-- A result by itself is its own outcome. -/
@[simp]
theorem outcome_pure (a : α) : (pure a : Logged α).outcome = .ok a := rfl

/-- An outcome without events is the outcome. -/
@[simp]
theorem outcome_ofExcept (x : Except Failure α) : (ofExcept x).outcome = x := rfl

/-- The outcome of a sequence depends on the outcomes of its parts alone. -/
@[simp]
theorem outcome_bind (x : Logged α) (f : α → Logged β) :
    (x >>= f).outcome = x.outcome.bind fun a => (f a).outcome := by
  show (x.andThen f).outcome = _
  unfold andThen
  cases x.outcome <;> rfl

end Logged

end MmixCodegen
