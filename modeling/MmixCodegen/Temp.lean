import Std.Data.ExtTreeMap
import Std.Data.ExtTreeSet

/-!
# Temporaries, registers and frames

What code computes with before and after register allocation: temporaries, the
supply from which fresh ones are drawn, machine registers, and the stack frame
of a procedure with the temporaries that have a fixed meaning in it.
-/

set_option autoImplicit false

namespace MmixCodegen

/-!
## Temporaries

A temporary is a virtual register. Code before register allocation may use as
many of them as it likes. They are ordered by number, so that sets of
temporaries list their members in ascending order and two sets with the same
members are equal.
-/

/-- A virtual register, known by its number. -/
@[ext]
structure Temp where
  number : Nat
deriving Repr

namespace Temp

/-- Temporaries are compared by number. -/
instance : DecidableEq Temp := fun a b =>
  decidable_of_iff (a.number = b.number) Temp.ext_iff.symm

/-- Temporaries are ordered by number. -/
instance : Ord Temp where
  compare a b := compare a.number b.number

/-- The order of temporaries, spelled out. -/
theorem compare_def (a b : Temp) : compare a b = compare a.number b.number := rfl

instance : Std.TransOrd Temp where
  eq_swap := by
    intro a b
    rw [compare_def, compare_def]
    exact Std.OrientedCmp.eq_swap
  isLE_trans := by
    intro a b c hab hbc
    rw [compare_def] at hab hbc ⊢
    exact Std.TransCmp.isLE_trans hab hbc

instance : Std.LawfulEqOrd Temp where
  compare_self := by
    intro a
    rw [compare_def]
    exact Std.ReflCmp.compare_self
  eq_of_compare := by
    intro a b h
    rw [compare_def] at h
    cases a
    cases b
    exact congrArg Temp.mk (Std.LawfulEqCmp.eq_of_compare h)

/-- The short name of a temporary, such as `T7`. -/
def name (t : Temp) : String :=
  "T" ++ toString t.number

/-- The form a temporary takes inside a listing, such as `Temp(7)`. -/
def entry (t : Temp) : String :=
  "Temp(" ++ toString t.number ++ ")"

/-- A bracketed listing, in the order given. -/
def listing (ts : List Temp) : String :=
  "[" ++ ", ".intercalate (ts.map entry) ++ "]"

end Temp

/-- A finite set of temporaries; equal sets have equal members. -/
abbrev TempSet := Std.ExtTreeSet Temp

/-- A finite map from temporaries. -/
abbrev TempMap (α : Type) := Std.ExtTreeMap Temp α

namespace TempSet

/-- Sets are compared by their members in ascending order. -/
instance : DecidableEq TempSet := fun s t =>
  decidable_of_iff (s.toList = t.toList) Std.ExtTreeSet.toList_inj

/-- The set of the members of a list. -/
def ofList (ts : List Temp) : TempSet :=
  Std.ExtTreeSet.ofList ts compare

/-- The members of the set of a list are those of the list. -/
@[simp]
theorem mem_ofList {ts : List Temp} {t : Temp} : t ∈ ofList ts ↔ t ∈ ts := by
  simp [ofList]

/-- The member with the lowest number. -/
def least? (s : TempSet) : Option Temp :=
  s.toList.head?

/-- A braced listing in ascending order. -/
def listing (s : TempSet) : String :=
  "\x7b" ++ ", ".intercalate (s.toList.map Temp.entry) ++ "\x7d"

end TempSet

/-!
## The supply of fresh temporaries

All routines of a program draw their new temporaries from one supply, so that
a temporary made for one routine never turns up in another. Numbers fit in 32
bits, and the last of them cannot be handed out.
-/

/-- The numbers from `next` on are unused. -/
structure Supply where
  next : Nat
deriving DecidableEq, Repr

namespace Supply

/-- The first number that is never handed out. -/
def limit : Nat := 4294967295

/-- The next temporary together with the remaining supply, if there is one left. -/
def fresh? (s : Supply) : Option (Temp × Supply) :=
  if s.next < limit then some (⟨s.next⟩, ⟨s.next + 1⟩) else none

/-- A fresh temporary carries the next number, and the supply moves past it. -/
theorem fresh?_eq_some_iff {s rest : Supply} {t : Temp} :
    s.fresh? = some (t, rest) ↔ s.next < limit ∧ t = ⟨s.next⟩ ∧ rest = ⟨s.next + 1⟩ := by
  unfold fresh?
  split
  · next h => simp [h, eq_comm]
  · next h => simp [h]

end Supply

/-!
## Machine registers

MMIX has 256 registers, written `$0` to `$255`. Two of the global ones have a
fixed role here: the frame pointer and the stack pointer are never allocated
and appear in operations by name.
-/

/-- A machine register, known by its index. -/
@[ext]
structure Register where
  index : UInt8
deriving Repr

namespace Register

/-- Registers are compared by index. -/
instance : DecidableEq Register := fun a b =>
  decidable_of_iff (a.index = b.index) Register.ext_iff.symm

/-- The register with the given index, counted modulo 256. -/
def ofNat (n : Nat) : Register :=
  ⟨UInt8.ofNat n⟩

/-- The assembly name of a register, such as `$7`. -/
def name (r : Register) : String :=
  "$" ++ toString r.index.toNat

/-- The global register that holds the frame pointer. -/
def framePointer : Register := ⟨253⟩

/-- The global register that holds the stack pointer. -/
def stackPointer : Register := ⟨254⟩

end Register

/-!
## Labels and stack frames

A label names a place in the code or in the data. A frame describes the stack
frame of one procedure: its sizes in bytes, and the two temporaries with a
fixed meaning, the frame pointer and the return value.
-/

/-- A name for a place in code or data. -/
@[ext]
structure Label where
  name : String
deriving Repr

/-- Labels are compared by name. -/
instance : DecidableEq Label := fun a b =>
  decidable_of_iff (a.name = b.name) Label.ext_iff.symm

/-- The stack frame of one procedure. -/
structure Frame where
  /-- The procedure's own label. -/
  label : Label
  /-- How deeply the procedure is nested, `0` at top level. -/
  depth : Nat
  /-- Bytes taken by local variables. -/
  localsSize : Int
  /-- Bytes taken by the arguments of outgoing calls. -/
  argsSize : Int
  /-- Bytes of the whole frame. -/
  size : Int
  /-- The temporary that stands for the frame pointer. -/
  fp : Temp
  /-- The temporary that holds the return value. -/
  rv : Temp
deriving DecidableEq, Repr

end MmixCodegen
