import Mathlib.Data.Nat.Digits.Defs
import MmixCodegen.Proofs.Mmix.Constant

/-!
# `MmixCodegen.Proofs.Mmix.Packing`: loading a word takes as few operations as it can

The 16-bit groups of a word are its digits to the base 65536, and `Wyde.occupied` counts
those that are not zero. `Operation.loadConstant` has one operation for each of them, and
a single one for zero (`Operation.length_loadConstant`).

With operations that set a group or add to one, it cannot be done with fewer. A sum may
carry into higher groups, but a group that a carry goes through is left as zero. So an
operation makes at most one more group nonzero (`Wyde.occupied_add_put`), and a word with
many of them takes as many operations (`Operation.le_length_of_loads`).

`Operation.loadConstant_exact_and_least` puts this together with what the operations do.
-/

set_option autoImplicit false

namespace MmixCodegen

namespace Wyde

/-- How many 16-bit groups of a number are not zero. -/
def occupied (n : Nat) : Nat :=
  (Nat.digits UInt16.size n).countP (· ≠ 0)

/-- The lowest group, and those above it. -/
theorem occupied_eq (n : Nat) :
    occupied n = (if n % 65536 = 0 then 0 else 1) + occupied (n / 65536) := by
  by_cases hn : n = 0
  · subst hn
    simp [occupied]
  · rw [occupied, Nat.digits_eq_cons_digits_div (by decide) hn, List.countP_cons, occupied,
      Nat.add_comm]
    simp [UInt16.size]

/-- Adding to the lowest group makes at most one more group nonzero. -/
theorem occupied_add {d : Nat} (n : Nat) (hd : d < 65536) : occupied (n + d) ≤ occupied n + 1 := by
  induction n using Nat.strongRecOn generalizing d with
  | ind n ih =>
      have hsum := occupied_eq (n + d)
      have hlow : (if (n + d) % 65536 = 0 then 0 else 1) ≤ 1 := by split <;> omega
      rw [occupied_eq n]
      by_cases hcarry : (n + d) / 65536 = n / 65536
      · rw [hcarry] at hsum
        omega
      · -- Without anything in the lowest group nothing would be carried. So that group
        -- counted before, and the one more may be used up by the carry.
        have hrest := ih (n / 65536) (by omega) (show 1 < 65536 by omega)
        rw [show (n + d) / 65536 = n / 65536 + 1 by omega] at hsum
        rw [if_neg (by omega)]
        omega

/-- The same is true of any group. -/
theorem occupied_add_mul {d : Nat} (hd : d < 65536) (k n : Nat) :
    occupied (n + d * 65536 ^ k) ≤ occupied n + 1 := by
  induction k generalizing n with
  | zero => simpa using occupied_add n hd
  | succ k ih =>
      have hlow : (n + d * 65536 ^ (k + 1)) % 65536 = n % 65536 := by
        rw [Nat.pow_succ, ← Nat.mul_assoc, Nat.add_mul_mod_self_right]
      have hhigh : (n + d * 65536 ^ (k + 1)) / 65536 = n / 65536 + d * 65536 ^ k := by
        rw [Nat.pow_succ, ← Nat.mul_assoc, Nat.add_mul_div_right _ _ (by decide)]
      have hrest := ih (n / 65536)
      rw [occupied_eq (n + _), hlow, hhigh, occupied_eq n]
      omega

/-- Dropping the highest groups makes no group nonzero. -/
theorem occupied_mod (k n : Nat) : occupied (n % 65536 ^ k) ≤ occupied n := by
  induction k generalizing n with
  | zero => simp [Nat.mod_one, occupied]
  | succ k ih =>
      have hlow : n % 65536 ^ (k + 1) % 65536 = n % 65536 :=
        Nat.mod_mod_of_dvd n (Dvd.intro_left _ (Nat.pow_succ ..).symm)
      have hhigh : n % 65536 ^ (k + 1) / 65536 = n / 65536 % 65536 ^ k := by
        rw [Nat.pow_succ', Nat.mod_mul_right_div_self]
      have hrest := ih (n / 65536)
      rw [occupied_eq (n % _), hlow, hhigh, occupied_eq n]
      omega

/-- Adding to one group makes at most one more group nonzero, in spite of carries. -/
theorem occupied_add_put (group : Wyde) {n : Nat} (hn : n < UInt16.size) (x : Word) :
    occupied (x + group.put (UInt64.ofNat n)).toNat ≤ occupied x.toNat + 1 := by
  obtain ⟨k, hk⟩ : ∃ k, 2 ^ group.shift = 65536 ^ k := by
    cases group with
    | low => exact ⟨0, rfl⟩
    | mediumLow => exact ⟨1, rfl⟩
    | mediumHigh => exact ⟨2, rfl⟩
    | high => exact ⟨3, rfl⟩
  rw [UInt64.toNat_add, toNat_put group hn, hk]
  calc occupied ((x.toNat + n * 65536 ^ k) % 65536 ^ 4)
      ≤ occupied (x.toNat + n * 65536 ^ k) := occupied_mod 4 _
    _ ≤ occupied x.toNat + 1 := occupied_add_mul hn k _

end Wyde

namespace Operation

open Wyde (occupied)

variable {E : Type} {dst : Temp}

/-! ### How many operations it takes -/

/-- One operation makes at most one more group nonzero. -/
theorem Packs.occupied_perform {o : Operation} (ho : o.Packs dst) (w : Mmix.World E)
    (c : Mmix.Core E) :
    occupied ((Mmix.perform w o.instr c).store dst).toNat ≤ occupied (c.store dst).toNat + 1 := by
  obtain ⟨group, n, hn, rfl | rfl⟩ := ho
  · -- Setting a group is adding it to zero.
    have hset := group.occupied_add_put hn 0
    rw [UInt64.zero_add, show occupied (0 : Word).toNat = 0 from rfl] at hset
    rw [perform_set w c dst group hn]
    simp only [Function.update_self]
    omega
  · rw [perform_inc w c dst group hn]
    simp only [Function.update_self]
    exact group.occupied_add_put hn _

/-- Each operation makes at most one more group of the destination nonzero. -/
theorem occupied_performAll {os : List Operation} (hos : ∀ o ∈ os, o.Packs dst)
    (w : Mmix.World E) (c : Mmix.Core E) :
    occupied ((Mmix.performAll w (os.map instr) c).store dst).toNat ≤
      occupied (c.store dst).toNat + os.length := by
  induction os generalizing c with
  | nil => exact Nat.le_refl _
  | cons o os ih =>
      rw [List.forall_mem_cons] at hos
      have hfirst := hos.1.occupied_perform w c
      have hrest := ih hos.2 (Mmix.perform w o.instr c)
      rw [List.map_cons, Mmix.performAll, List.foldl_cons, ← Mmix.performAll, List.length_cons]
      omega

/-- Operations that load a word, whatever was there before, are at least as many as the
word has groups that are not zero, and at least one. -/
theorem le_length_of_loads {os : List Operation} {v : Word} (hos : ∀ o ∈ os, o.Packs dst)
    (w : Mmix.World E) (hidden : Mmix.Hidden E)
    (hloads : ∀ store, (Mmix.performAll w (os.map instr) ⟨store, hidden⟩).store dst = v) :
    max 1 (occupied v.toNat) ≤ os.length := by
  -- From zero on, all groups have to be made.
  have hgroups := occupied_performAll hos w ⟨fun _ => 0, hidden⟩
  rw [hloads] at hgroups
  simp only [show occupied (0 : Word).toNat = 0 from rfl] at hgroups
  -- From another word on, something has to be done.
  have hsome : os ≠ [] := by
    rintro rfl
    have hkept : v + 1 = v := hloads fun _ => v + 1
    simp at hkept
  have hpos := List.length_pos_iff.mpr hsome
  omega

/-- The nonzero groups of a word are its nonzero digits to the base 65536. -/
theorem length_nonzeroWydes (v : Word) : (nonzeroWydes v).length = occupied v.toNat := by
  have hv := v.toNat_lt
  have htop : v.toNat / 65536 / 65536 / 65536 / 65536 = 0 := by omega
  have hzero : occupied 0 = 0 := rfl
  rw [nonzeroWydes, ← List.countP_eq_length_filter, Wyde.occupied_eq, Wyde.occupied_eq (_ / _),
    Wyde.occupied_eq (_ / _ / _), Wyde.occupied_eq (_ / _ / _ / _), htop, hzero]
  simp only [Wyde.all, List.countP_cons, List.countP_nil, Wyde.get, Wyde.shift, UInt16.size,
    Nat.shiftRight_eq_div_pow, Nat.div_div_eq_div_mul, decide_eq_true_eq, ne_eq, ite_not,
    Nat.reducePow, Nat.reduceMul, Nat.div_one]
  omega

/-- Loading a word takes one operation for each nonzero group, and one for zero. -/
theorem length_loadConstant (dst : Temp) (v : Word) :
    (loadConstant dst v).length = max 1 (occupied v.toNat) := by
  have hlength := length_nonzeroWydes v
  rw [loadConstant]
  split
  · next hnone =>
      rw [hnone, List.length_nil] at hlength
      rw [← hlength]
      rfl
  · next first rest hgroups =>
      rw [hgroups, List.length_cons] at hlength
      rw [List.length_cons, List.length_map]
      omega

/-! ### What the operations are -/

/-- The machine reads an operation without a jump, whose number fits into a group. -/
theorem Packs.reads {o : Operation} (ho : o.Packs dst) :
    Mmix.Straight o.instr ∧
      ∃ m n, Mmix.read? o.template = some (m, [.slot (.write 0), .number n]) ∧ n < 65536 := by
  obtain ⟨group, n, hn, rfl | rfl⟩ := ho
  · have hset : (set group dst n).Readable := (proper_set group hn).toReadable
    exact ⟨straight_instr hset (by rintro ⟨⟩) (by rintro ⟨⟩), _, n, read?_template hset, hn⟩
  · have hinc : (inc group dst n).Readable := (proper_inc group hn).toReadable
    exact ⟨straight_instr hinc (by rintro ⟨⟩) (by rintro ⟨⟩), _, n, read?_template hinc, hn⟩

/-- Loading a word leaves it in its destination, whatever that held and wherever in the
code it is done, and changes nothing else. It takes an operation for each group of the
word that is not zero, or one for zero. Their numbers fit into a group, and all but the
first one start from what is in the destination. No fewer operations that set a group or
add to one will do. -/
theorem loadConstant_exact_and_least (w : Mmix.World E) (before after : List Instr)
    (c : Mmix.Core E) (dst : Temp) (v : Word) :
    let code := (loadConstant dst v).map instr
    Mmix.run w (before ++ code ++ after) ⟨.line before.length, c⟩ code.length =
        (⟨.line (before.length + code.length), ⟨Function.update c.store dst v, c.hidden⟩⟩, []) ∧
      code.length = max 1 (occupied v.toNat) ∧
      (∀ i ∈ code, ∃ m n,
        Mmix.read? i.template = some (m, [.slot (.write 0), .number n]) ∧ n < 65536) ∧
      (∃ first rest, code = first :: rest ∧ first.uses = [] ∧ first.defs = [dst] ∧
        ∀ i ∈ rest, i.uses = [dst] ∧ i.defs = [dst]) ∧
      ∀ os : List Operation, (∀ o ∈ os, o.Packs dst) →
        (∀ store, (Mmix.performAll w (os.map instr) ⟨store, c.hidden⟩).store dst = v) →
        code.length ≤ os.length := by
  intro code
  have hlength : code.length = max 1 (occupied v.toNat) := by
    rw [List.length_map, length_loadConstant]
  have hreads : ∀ i ∈ code, Mmix.Straight i ∧ ∃ m n,
      Mmix.read? i.template = some (m, [.slot (.write 0), .number n]) ∧ n < 65536 :=
    List.forall_mem_map.mpr fun o ho => (packs_of_mem_loadConstant dst ho).reads
  refine ⟨?_, hlength, fun i hi => (hreads i hi).2, ?_, fun os hos hloads => ?_⟩
  · rw [Mmix.run_straight fun i hi => (hreads i hi).1, performAll_loadConstant]
  · obtain ⟨group, n, rest, heq, -, hrest⟩ := loadConstant_eq_cons dst v
    refine ⟨(set group dst n).instr, rest.map instr, congrArg (List.map instr) heq, rfl, rfl, ?_⟩
    refine List.forall_mem_map.mpr fun o ho => ?_
    obtain ⟨_, _, rfl, -⟩ := hrest o ho
    exact ⟨rfl, rfl⟩
  · rw [hlength]
    exact le_length_of_loads hos w c.hidden hloads

/-- A word whose outer groups alone are not zero. Three operations load it too, and two are
the least. -/
theorem outer_groups_take_two :
    let w : Mmix.World Unit := ⟨fun _ => 0, fun _ hidden => hidden⟩
    let hidden : Mmix.Hidden Unit := ⟨fun _ => 0, 0, fun _ => 0, ()⟩
    let v : Word := 0x0003000000000001
    let code := (loadConstant ⟨5⟩ v).map instr
    let detour := [set .low ⟨5⟩ 1, inc .high ⟨5⟩ 1, inc .high ⟨5⟩ 2]
    Mmix.run w (code ++ []) ⟨.line 0, ⟨fun _ => 7, hidden⟩⟩ 2 =
        (⟨.line 2, ⟨Function.update (fun _ => 7) ⟨5⟩ v, hidden⟩⟩, []) ∧
      code.length = 2 ∧ (∀ o ∈ detour, o.Packs ⟨5⟩) ∧
      (∀ store, (Mmix.performAll w (detour.map instr) ⟨store, hidden⟩).store ⟨5⟩ = v) ∧
      code.length ≤ detour.length := by
  intro w hidden v code detour
  obtain ⟨hrun, -, -, -, hleast⟩ :=
    loadConstant_exact_and_least w [] [] ⟨fun _ => 7, hidden⟩ ⟨5⟩ v
  have hlength : ((loadConstant ⟨5⟩ v).map instr).length = 2 := by decide
  rw [hlength] at hrun
  have hpacks : ∀ o ∈ detour, o.Packs ⟨5⟩ := by
    simp only [detour, List.forall_mem_cons]
    exact ⟨⟨_, _, by decide, .inl rfl⟩, ⟨_, _, by decide, .inr rfl⟩, ⟨_, _, by decide, .inr rfl⟩,
      List.forall_mem_nil _⟩
  have hloads : ∀ store,
      (Mmix.performAll w (detour.map instr) ⟨store, hidden⟩).store ⟨5⟩ = v := by
    intro store
    simp only [detour, List.map_cons, List.map_nil, Mmix.performAll, List.foldl_cons,
      List.foldl_nil, perform_set _ _ _ Wyde.low (show 1 < UInt16.size by decide),
      perform_inc _ _ _ Wyde.high (show 1 < UInt16.size by decide),
      perform_inc _ _ _ Wyde.high (show 2 < UInt16.size by decide), Function.update_self]
    decide
  exact ⟨hrun, hlength, hpacks, hloads, hleast detour hpacks hloads⟩

end Operation

end MmixCodegen
