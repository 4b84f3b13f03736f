import MmixCodegen.Allocator.Round
import MmixCodegen.Proofs.Allocator.Underway

/-!
# `MmixCodegen.Proofs.Allocator.Assign`: giving out registers

The stack is unwound from its top. `Unwound a b done rest` is the invariant: `b`
comes from `a` by giving out registers to `done`, the top of the stack, and `rest`
is still to come. Its two main parts are:

* `apart`: what two neighbours stand for does not share a register. When `t` is
  the last of them to get one, `Elimination.Valid.seen` says that `t` sees the
  other one;
* `crowded`: a temporary that got none saw at least as many others as there are
  registers.

`Unwound.assign` is the step and `Unwound.foldl_assign` the whole stack. In the
end merged temporaries get the register of what they stand for
(`inherits_assignAll`).
-/

set_option autoImplicit false

namespace MmixCodegen

namespace Allocator

variable {a b : Allocator} {t x y : Temp} {r s : Register}

/-! ### The palette -/

/-- The palette consists of the lowest registers, as many as there are, and at most 256. -/
theorem mem_palette {k : Nat} : r ∈ palette k ↔ r.index.toNat < min k 256 := by
  unfold palette
  rw [List.mem_map]
  constructor
  · rintro ⟨n, hn, rfl⟩
    rw [List.mem_range] at hn
    have hlt : n < 256 := by omega
    simpa [Register.ofNat, Nat.mod_eq_of_lt hlt] using hn
  · intro hr
    refine ⟨r.index.toNat, List.mem_range.mpr hr, ?_⟩
    exact Register.ext (UInt8.ofNat_toNat)

/-- No register is in the palette twice. -/
theorem nodup_palette (k : Nat) : (palette k).Nodup := by
  unfold palette
  refine List.Nodup.map_on (fun m hm n hn heq => ?_) List.nodup_range
  rw [List.mem_range] at hm hn
  have hindex : UInt8.ofNat m = UInt8.ofNat n := congrArg Register.index heq
  have hnat := congrArg UInt8.toNat hindex
  rw [UInt8.toNat_ofNat', UInt8.toNat_ofNat'] at hnat
  omega

/-- The palette has as many registers as there are, and at most 256. -/
theorem length_palette (k : Nat) : (palette k).length = min k 256 := by
  simp [palette]

/-- A neighbour takes up the register of what it stands for. -/
theorem registerTaken?_eq_some :
    a.registerTaken? x = some r ↔
      a.status (a.representative x) = .colored ∧ a.colors[a.representative x]? = some r := by
  unfold registerTaken?
  dsimp only
  split
  · next h => simp [h]
  · next h => simp [h]

/-- A register that is free is in the palette, and no neighbour has it. -/
theorem freeRegister?_eq_some (h : a.freeRegister? t = some r) :
    r ∈ palette a.registers ∧ ∀ z ∈ a.graph.neighbors t, a.registerTaken? z ≠ some r := by
  unfold freeRegister? at h
  dsimp only at h
  refine ⟨List.mem_of_find?_eq_some h, fun z hz htaken => ?_⟩
  have hfree := List.find?_some h
  rw [Bool.not_eq_true', ← Bool.not_eq_true, List.contains_iff_mem] at hfree
  exact hfree (List.mem_filterMap.mpr ⟨z, Std.ExtTreeSet.mem_toList.mpr hz, htaken⟩)

/-- If no register is free, each one in the palette is taken by a neighbour. -/
theorem freeRegister?_eq_none (h : a.freeRegister? t = none) (hr : r ∈ palette a.registers) :
    ∃ z ∈ a.graph.neighbors t, a.registerTaken? z = some r := by
  unfold freeRegister? at h
  dsimp only at h
  have hall := List.find?_eq_none.mp h r hr
  rw [Bool.not_eq_true', Bool.not_eq_false, List.contains_iff_mem] at hall
  obtain ⟨z, hz, htaken⟩ := List.mem_filterMap.mp hall
  exact ⟨z, Std.ExtTreeSet.mem_toList.mp hz, htaken⟩

/-! ### One temporary -/

/-- Shortening several chains is housekeeping. -/
theorem Tidy.eases_compressAll (h : a.Tidy) (ts : List Temp) : Eases a (a.compressAll ts) :=
  Eases.foldl (fun _ t h => h.eases_compress t) h ts

/-- Shortening several chains changes the aliases and nothing else. -/
theorem compressAll_eq (a : Allocator) (ts : List Temp) :
    ∃ aliases, a.compressAll ts = { a with aliases } := by
  induction ts generalizing a with
  | nil => exact ⟨a.aliases, rfl⟩
  | cons t ts ih => exact ih (a.compress t)

/-- Colours play no part in the order of a state. -/
theorem Tidy.setColors (h : a.Tidy) (colors : TempMap Register) :
    Tidy { a with colors } ∧
      ∀ x, Allocator.representative { a with colors } x = a.representative x := by
  have hrep : ∀ x, Allocator.representative { a with colors } x = a.representative x :=
    representative_congr rfl fun _ => Iff.rfl
  refine ⟨⟨h.sound, h.closed, h.sorted.congr rfl rfl rfl rfl,
    h.aliased.congr rfl fun _ => Iff.rfl, h.queued.congr rfl rfl rfl rfl, fun x hx => ?_⟩, hrep⟩
  rw [hrep]
  exact h.representative_mem x hx

/-- What happens to a temporary that is unwound. -/
def outcome (a : Allocator) (t : Temp) : NodeStatus :=
  if (a.freeRegister? t).isSome then .colored else .spilled

/-- A temporary that is unwound leaves the stack, and is not merged. -/
theorem outcome_ne (a : Allocator) (t : Temp) :
    a.outcome t ≠ .onStack ∧ a.outcome t ≠ .coalesced := by
  unfold outcome
  split <;> decide

/-- Giving out a register is a change of status, after chains were shortened and
the register was noted. -/
theorem assign_eq (h : a.Tidy) (t : Temp) :
    ∃ c : Allocator, a.assign t = c.place t (a.outcome t) ∧ c.Tidy ∧
      (∀ x, c.representative x = a.representative x) ∧ c.status = a.status ∧ c.graph = a.graph ∧
      c.registers = a.registers ∧ c.stack = a.stack ∧
      c.colors = (a.freeRegister? t).elim a.colors (a.colors.insert t) := by
  have heases := h.eases_compressAll (a.graph.neighbors t).toList
  obtain ⟨aliases, heq⟩ := compressAll_eq a (a.graph.neighbors t).toList
  unfold assign outcome
  dsimp only
  cases hfree : a.freeRegister? t with
  | none =>
      refine ⟨_, rfl, heases.tidy, heases.representative, ?_, ?_, ?_, ?_, ?_⟩ <;> rw [heq] <;> rfl
  | some r =>
      obtain ⟨htidy, hrep⟩ := heases.tidy.setColors
        ((a.compressAll (a.graph.neighbors t).toList).colors.insert t r)
      refine ⟨_, rfl, htidy, fun x => (hrep x).trans (heases.representative x), ?_, ?_, ?_, ?_, ?_⟩
        <;> rw [heq] <;> rfl

/-- What giving out a register to `t` changes. -/
structure Assigns (a : Allocator) (t : Temp) (b : Allocator) : Prop where
  tidy : b.Tidy
  registers : b.registers = a.registers
  graph : b.graph = a.graph
  representative : ∀ x, b.representative x = a.representative x
  stack : b.stack = a.stack.filter (· ≠ t)
  status : ∀ x, b.status x = if t = x then a.outcome t else a.status x
  colors : b.colors = (a.freeRegister? t).elim a.colors (a.colors.insert t)

/-- Giving out a register to a temporary of the stack does what `Assigns` says. -/
theorem Tidy.assigns (h : a.Tidy) (ht : a.status t = .onStack) : Assigns a t (a.assign t) := by
  obtain ⟨c, heq, htidy, hrep, hstatus, hgraph, hregisters, hstack, hcolors⟩ := assign_eq h t
  have hmem : t ∈ c.graph.nodes := by
    rw [hgraph]
    exact h.mem_nodes_of_status ht (by decide)
  have hprev : c.status t ≠ .coalesced := by
    rw [hstatus, ht]
    decide
  have hnext := outcome_ne a t
  rw [heq]
  refine ⟨htidy.place hmem hprev hnext.2, hregisters, hgraph, fun x => ?_, ?_, fun x => ?_, hcolors⟩
  · rw [representative_place hprev hnext.2, hrep]
  · rw [htidy.sorted.stack_place, if_neg hnext.1, hstack]
  · rw [status_place, hstatus]

/-- Only the temporary at hand gets a register. -/
theorem Assigns.getElem?_colors (h : Assigns a t b) (ht : a.colors[t]? = none) (x : Temp) :
    b.colors[x]? = if t = x then a.freeRegister? t else a.colors[x]? := by
  rw [h.colors]
  cases hfree : a.freeRegister? t with
  | none =>
      split
      · next heq => exact heq ▸ ht
      · rfl
  | some r => simp [Std.ExtTreeMap.getElem?_insert]

/-! ### The whole stack -/

/-- Registers were given out to `done`, the top of the stack of `a`, and `rest` is
still to come. -/
structure Unwound (a b : Allocator) (done rest : List Temp) : Prop where
  tidy : b.Tidy
  registers : b.registers = a.registers
  graph : b.graph = a.graph
  representative : ∀ t, b.representative t = a.representative t
  stack : b.stack = rest
  status : ∀ t, t ∉ done → b.status t = a.status t
  settled : ∀ t ∈ done, b.status t = .colored ∨ b.status t = .spilled
  colored : ∀ t, b.colors[t]?.isSome ↔ t ∈ done ∧ b.status t = .colored
  palette : ∀ (t : Temp) (r : Register), b.colors[t]? = some r → r ∈ palette a.registers
  apart : ∀ (x y : Temp) (r : Register), x ∈ a.graph.neighbors y →
    b.colors[a.representative x]? = some r → b.colors[a.representative y]? ≠ some r
  crowded : ∀ t ∈ done, b.status t = .spilled → ∃ top below, a.stack = top ++ t :: below ∧
    min a.registers 256 ≤ (a.view.sight t below).card

namespace Unwound

variable {done rest : List Temp}

/-- At the start no register was given out. -/
theorem start (h : a.Tidy) (hcolors : a.colors = ∅) : Unwound a a [] a.stack := by
  have hnone : ∀ t : Temp, a.colors[t]? = none := fun t => by rw [hcolors]; simp
  refine ⟨h, rfl, rfl, fun _ => rfl, rfl, fun _ _ => rfl, ?_, fun t => ?_, ?_, ?_, ?_⟩
  · simp
  · simp [hnone]
  · intro t r hr
    rw [hnone] at hr
    cases hr
  · intro x y r _ hr
    rw [hnone] at hr
    cases hr
  · simp

/-- A temporary that is about to be unwound sees what its neighbours stand for, as
far as that has a register. -/
theorem exists_taken (h : Unwound a b done (t :: rest)) (hvalid : a.view.Valid)
    (hstack : a.stack = done ++ t :: rest) (hxy : x ∈ a.graph.neighbors y)
    (hy : a.representative y = t) (hr : b.colors[a.representative x]? = some r) :
    ∃ z ∈ b.graph.neighbors t, b.registerTaken? z = some r := by
  obtain ⟨hdone, hcolored⟩ := (h.colored _).mp (by rw [hr]; rfl)
  have hrest : a.representative x ∉ rest := by
    intro hmem
    have hnodup := hvalid.nodup
    rw [show a.view.stack = done ++ t :: rest from hstack, List.nodup_append] at hnodup
    exact hnodup.2.2 _ hdone _ (List.mem_cons_of_mem t hmem) rfl
  obtain ⟨z, hz, hrep⟩ :=
    hvalid.seen done t rest hstack x y (Interference.mem_nbrs.mpr hxy) hy hrest
  replace hrep : a.representative z = a.representative x := hrep
  rw [h.graph]
  refine ⟨z, Interference.mem_nbrs.mp hz, registerTaken?_eq_some.mpr ?_⟩
  rw [h.representative, hrep]
  exact ⟨hcolored, hr⟩

/-- If no register is left for a temporary, then it sees one temporary for each
of them. -/
theorem card_sight (h : Unwound a b done (t :: rest)) (hfree : b.freeRegister? t = none) :
    min a.registers 256 ≤ (a.view.sight t rest).card := by
  have hsub : (Allocator.palette a.registers).toFinset.map ⟨some, Option.some_injective _⟩
      ⊆ (a.view.sight t rest).image fun x => b.colors[x]? := by
    intro o ho
    obtain ⟨r, hr, rfl⟩ := Finset.mem_map.mp ho
    rw [List.mem_toFinset] at hr
    obtain ⟨z, hz, htaken⟩ := freeRegister?_eq_none hfree (h.registers.symm ▸ hr)
    obtain ⟨hcolored, hcolor⟩ := registerTaken?_eq_some.mp htaken
    rw [h.representative] at hcolored hcolor
    refine Finset.mem_image.mpr ⟨a.representative z, ?_, hcolor⟩
    -- A temporary that has a register was unwound, so it is not below `t`.
    refine Finset.mem_sdiff.mpr ⟨Finset.mem_image.mpr ⟨z, ?_, rfl⟩, ?_⟩
    · exact Interference.mem_nbrs.mpr (h.graph ▸ hz)
    · rw [List.mem_toFinset]
      intro hmem
      have hstatus := (h.tidy.sorted.mem_stack _).mp (h.stack ▸ List.mem_cons_of_mem t hmem)
      rw [hcolored] at hstatus
      cases hstatus
  -- The registers inject into the temporaries that hold them.
  have hcard := (Finset.card_le_card hsub).trans Finset.card_image_le
  rwa [Finset.card_map, List.toFinset_card_of_nodup (nodup_palette _), length_palette] at hcard

/-- The stack holds each temporary once. -/
theorem not_mem_of_stack (hvalid : a.view.Valid) (hstack : a.stack = done ++ t :: rest) :
    t ∉ done ∧ t ∉ rest := by
  have hnodup : (done ++ t :: rest).Nodup := hstack ▸ hvalid.nodup
  rw [List.nodup_append, List.nodup_cons] at hnodup
  exact ⟨fun hmem => hnodup.2.2 t hmem t List.mem_cons_self rfl, hnodup.2.1.1⟩

section Next

variable (h : Unwound a b done (t :: rest)) (hvalid : a.view.Valid)
  (hstack : a.stack = done ++ t :: rest)

include h

/-- The next temporary is still on the stack. -/
theorem status_next : b.status t = .onStack := by
  rw [← h.tidy.sorted.mem_stack, h.stack]
  exact List.mem_cons_self

include hvalid hstack

/-- The next temporary gets the register that is free for it, if any. -/
theorem getElem?_colors_assign (x : Temp) :
    (b.assign t).colors[x]? = if t = x then b.freeRegister? t else b.colors[x]? := by
  refine (h.tidy.assigns h.status_next).getElem?_colors ?_ x
  by_contra hcon
  rw [← ne_eq, Option.ne_none_iff_isSome, h.colored] at hcon
  exact (not_mem_of_stack hvalid hstack).1 hcon.1

/-- A register that is free for `t` is not that of a neighbour of what stands for `t`. -/
theorem ne_freeRegister? (hxy : x ∈ a.graph.neighbors y) (hy : a.representative y = t)
    (hfree : b.freeRegister? t = some r) : (b.assign t).colors[a.representative x]? ≠ some r := by
  intro hr
  -- Two temporaries that stand for `t` are no neighbours, so the other one has its
  -- register already.
  have hne : t ≠ a.representative x := by
    intro heq
    exact hvalid.apart x y (Interference.mem_nbrs.mpr hxy) (heq.symm.trans hy.symm)
  rw [h.getElem?_colors_assign hvalid hstack, if_neg hne] at hr
  obtain ⟨z, hz, htaken⟩ := h.exists_taken hvalid hstack hxy hy hr
  exact (freeRegister?_eq_some hfree).2 z hz htaken

/-- The register that is given out keeps neighbours apart, because `t` sees what its neighbours
stand for. -/
theorem apart_assign (hxy : x ∈ a.graph.neighbors y)
    (hx : (b.assign t).colors[a.representative x]? = some r) :
    (b.assign t).colors[a.representative y]? ≠ some r := by
  intro hy
  have hcolors := h.getElem?_colors_assign hvalid hstack
  by_cases hyt : t = a.representative y
  · rw [hcolors, if_pos hyt] at hy
    exact h.ne_freeRegister? hvalid hstack hxy hyt.symm hy hx
  · by_cases hxt : t = a.representative x
    · rw [hcolors, if_pos hxt] at hx
      have hyx : y ∈ a.graph.neighbors x :=
        Interference.mem_nbrs.mp (hvalid.symm _ _ (Interference.mem_nbrs.mpr hxy))
      exact h.ne_freeRegister? hvalid hstack hyx hxt.symm hx hy
    · rw [hcolors, if_neg hxt] at hx
      rw [hcolors, if_neg hyt] at hy
      exact h.apart x y r hxy hx hy

/-- One more temporary is unwound. -/
theorem assign : Unwound a (b.assign t) (done ++ [t]) rest := by
  have hassign := h.tidy.assigns h.status_next
  have hcolors := h.getElem?_colors_assign hvalid hstack
  have hmem : ∀ x ∈ done ++ [t], t ≠ x → x ∈ done := by
    intro x hx hne
    rcases List.mem_append.mp hx with hx | hx
    · exact hx
    · exact absurd (List.mem_singleton.mp hx).symm hne
  refine ⟨hassign.tidy, hassign.registers.trans h.registers, hassign.graph.trans h.graph,
    fun x => (hassign.representative x).trans (h.representative x), ?_, ?_, ?_, ?_, ?_,
    fun x y r hxy => h.apart_assign hvalid hstack hxy, ?_⟩
  -- `t` was on top, and nowhere else.
  · rw [hassign.stack, h.stack, List.filter_cons_of_neg (by simp), List.filter_eq_self]
    intro x hx
    have hne : x ≠ t := by
      rintro rfl
      exact (not_mem_of_stack hvalid hstack).2 hx
    simpa using hne
  · intro x hx
    rw [List.mem_append, not_or, List.mem_singleton] at hx
    rw [hassign.status, if_neg (Ne.symm hx.2), h.status x hx.1]
  · intro x hx
    rw [hassign.status]
    split
    · unfold outcome
      split
      · exact Or.inl rfl
      · exact Or.inr rfl
    · next hne => exact h.settled x (hmem x hx hne)
  · intro x
    rw [hcolors, hassign.status]
    by_cases hx : t = x
    · subst hx
      rw [if_pos rfl, if_pos rfl]
      unfold outcome
      split
      · next hsome => simp [hsome]
      · next hsome => simp [hsome]
    · rw [if_neg hx, if_neg hx, h.colored]
      simp [Ne.symm hx]
  · intro x r hr
    rw [hcolors] at hr
    split at hr
    · exact h.registers ▸ (freeRegister?_eq_some hr).1
    · exact h.palette x r hr
  -- If `t` itself is spilled, no register was free, so what it sees has them all.
  · intro x hx hspilled
    rw [hassign.status] at hspilled
    by_cases hxt : t = x
    · subst hxt
      refine ⟨done, rest, hstack, h.card_sight ?_⟩
      rw [if_pos rfl] at hspilled
      unfold outcome at hspilled
      split at hspilled
      · cases hspilled
      · next hnone => simpa using hnone
    · rw [if_neg hxt] at hspilled
      exact h.crowded x (hmem x hx hxt) hspilled

end Next

/-- Unwinding the rest of the stack, step by step, comes to its end. -/
theorem foldl_assign (h : Unwound a b done rest) (hvalid : a.view.Valid)
    (hstack : a.stack = done ++ rest) : Unwound a (rest.foldl Allocator.assign b) a.stack [] := by
  induction rest generalizing b done with
  | nil =>
      rw [List.append_nil] at hstack
      rw [hstack]
      exact h
  | cons t rest ih =>
      exact ih (h.assign hvalid hstack) (by rw [hstack, List.append_assoc]; rfl)

end Unwound

/-! ### Merged temporaries -/

/-- Giving a merged temporary the register of what it stands for changes its
register alone. -/
structure Inherits (a b : Allocator) : Prop where
  tidy : b.Tidy
  registers : b.registers = a.registers
  graph : b.graph = a.graph
  sets : b.sets = a.sets
  representative : ∀ x, b.representative x = a.representative x
  status : ∀ x, b.status x = a.status x

/-- A merged temporary gets the register of what it stands for, and nothing else changes. -/
theorem Tidy.inherits (h : a.Tidy) (t : Temp) :
    Inherits a (a.inherit t) ∧ ∀ x : Temp, (a.inherit t).colors[x]? =
      if t = x then (a.colors[a.representative t]?).or a.colors[t]? else a.colors[x]? := by
  have hshort := h.eases_compress t
  unfold inherit
  dsimp only
  cases hcolor : a.colors[a.representative t]? with
  | none =>
      refine ⟨⟨hshort.tidy, rfl, rfl, rfl, hshort.representative, fun _ => rfl⟩, fun x => ?_⟩
      show a.colors[x]? = _
      by_cases heq : t = x
      · subst heq
        simp
      · simp [heq]
  | some r =>
      obtain ⟨htidy, hrep⟩ := hshort.tidy.setColors ((a.compress t).colors.insert t r)
      refine ⟨⟨htidy, rfl, rfl, rfl, fun x => (hrep x).trans (hshort.representative x),
        fun _ => rfl⟩, fun x => ?_⟩
      show (a.colors.insert t r)[x]? = _
      simp [Std.ExtTreeMap.getElem?_insert]

/-- Registers may be inherited one after the other. -/
theorem Inherits.trans {c : Allocator} (h : Inherits a b) (h' : Inherits b c) : Inherits a c :=
  ⟨h'.tidy, h'.registers.trans h.registers, h'.graph.trans h.graph, h'.sets.trans h.sets,
    fun x => (h'.representative x).trans (h.representative x),
    fun x => (h'.status x).trans (h.status x)⟩

/-- What a merged temporary stands for is not merged itself, so the order of the
list does not matter. -/
theorem Tidy.foldl_inherit (h : a.Tidy) {l : List Temp} (hnodup : l.Nodup)
    (hl : ∀ t ∈ l, a.status t = .coalesced ∧ a.colors[t]? = none) :
    Inherits a (l.foldl inherit a) ∧ ∀ x : Temp, (l.foldl inherit a).colors[x]? =
      if x ∈ l then a.colors[a.representative x]? else a.colors[x]? := by
  induction l generalizing a with
  | nil =>
      exact ⟨⟨h, rfl, rfl, rfl, fun _ => rfl, fun _ => rfl⟩, fun x => by simp⟩
  | cons t l ih =>
      obtain ⟨htl, hnodup⟩ := List.nodup_cons.mp hnodup
      obtain ⟨hfirst, hcolors⟩ := h.inherits t
      obtain ⟨ht, hnone⟩ := hl t (by simp)
      -- What others stand for is not in the list, so it keeps its register until the end.
      have hroot : ∀ x, t ≠ a.representative x := fun x heq =>
        h.aliased.status_representative x (heq ▸ ht)
      have hl' : ∀ x ∈ l, (a.inherit t).status x = .coalesced ∧
          (a.inherit t).colors[x]? = none := by
        intro x hx
        have hne : t ≠ x := fun heq => htl (heq ▸ hx)
        obtain ⟨hstatus, hnone⟩ := hl x (by simp [hx])
        rw [hfirst.status, hcolors, if_neg hne]
        exact ⟨hstatus, hnone⟩
      obtain ⟨hrest, hrestColors⟩ := ih hfirst.tidy hnodup hl'
      refine ⟨hfirst.trans hrest, fun x => ?_⟩
      rw [List.foldl_cons, hrestColors, hfirst.representative, hcolors, hcolors, if_neg (hroot x)]
      by_cases hx : t = x
      · subst hx
        simp [htl, hnone]
      · simp [hx, Ne.symm hx]

/-- The stack of a drained state is unwound, then merged temporaries inherit. So
each temporary ends with the register of what it stands for. -/
theorem inherits_assignAll (h : a.Tidy) (hvalid : a.view.Valid) (hcolors : a.colors = ∅) :
    Unwound a (a.stack.foldl assign a) a.stack [] ∧
      Inherits (a.stack.foldl assign a) a.assignAll ∧
      ∀ t : Temp, a.assignAll.colors[t]? =
        (a.stack.foldl assign a).colors[a.representative t]? := by
  have hunwound := (Unwound.start h hcolors).foldl_assign hvalid (List.nil_append _).symm
  -- Merged temporaries are not on the stack, so unwinding gave them nothing.
  have hmerged : ∀ t ∈ (a.stack.foldl assign a).sets.coalesced.toList,
      (a.stack.foldl assign a).status t = .coalesced ∧
        (a.stack.foldl assign a).colors[t]? = none := by
    intro t ht
    rw [Std.ExtTreeSet.mem_toList, hunwound.tidy.sorted.mem_coalesced] at ht
    refine ⟨ht, ?_⟩
    by_contra hcon
    rw [← ne_eq, Option.ne_none_iff_isSome, hunwound.colored, ht] at hcon
    cases hcon.2
  obtain ⟨hinherits, hfinal⟩ := hunwound.tidy.foldl_inherit (TempSet.nodup_toList _) hmerged
  refine ⟨hunwound, hinherits, fun t => (hfinal t).trans ?_⟩
  rw [hunwound.representative]
  split
  · rfl
  · next ht =>
    rw [Std.ExtTreeSet.mem_toList, hunwound.tidy.sorted.mem_coalesced] at ht
    rw [← hunwound.representative, representative_of_not_coalesced ht]

end Allocator

end MmixCodegen
