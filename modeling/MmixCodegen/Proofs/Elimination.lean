import MmixCodegen.Temp
import Mathlib.Data.Finset.Card
import Mathlib.Data.Finset.Image

/-!
# `MmixCodegen.Proofs.Elimination`: taking a graph apart

Colouring by simplification takes a graph apart. A temporary is either pushed
on a stack, or merged into another one that is still there. All edges that were
ever drawn stay; a merge only adds edges from what is left of the neighbours.

`Elimination` is this process with everything else removed: no degrees, no
worklists and no moves, only the neighbours, what each temporary stands for, and
the stack. Its two steps are `Elimination.push` and `Elimination.merge`.

* `Valid` is the invariant behind the correctness of a colouring. Edges of
  merged temporaries are kept by what they stand for: directly, as long as
  both of these are present (`Valid.direct`), and otherwise at the one that was
  pushed first (`Valid.seen`), which is the one that is coloured last.
  `Valid.push` and `Valid.merge` say that both steps keep it.
* `live_push`, `Valid.live_merge_self`, `live_merge_of_mem` and
  `Valid.live_merge_of_not_mem` say which neighbours are left after a step.
-/

set_option autoImplicit false

namespace MmixCodegen

/-- A graph that is being taken apart. -/
@[ext]
structure Elimination where
  /-- All neighbours that a temporary ever had. -/
  nbrs : Temp → Finset Temp
  /-- What a temporary stands for: itself, or what it was merged into. -/
  rep : Temp → Temp
  /-- The temporaries that were pushed, the last one first. -/
  stack : List Temp

namespace Elimination

/-- Neither merged nor pushed. -/
def Present (e : Elimination) (t : Temp) : Prop :=
  e.rep t = t ∧ t ∉ e.stack

instance (e : Elimination) : DecidablePred e.Present := fun t =>
  inferInstanceAs (Decidable (e.rep t = t ∧ t ∉ e.stack))

/-- The neighbours that are present. -/
def live (e : Elimination) (t : Temp) : Finset Temp :=
  (e.nbrs t).filter e.Present

/-- A graph of which nothing was taken out yet. -/
def whole (nbrs : Temp → Finset Temp) : Elimination where
  nbrs := nbrs
  rep t := t
  stack := []

/-- Push a temporary. -/
def push (e : Elimination) (t : Temp) : Elimination :=
  { e with stack := t :: e.stack }

/-- Merge `v` into `u`: the present neighbours of `v` become neighbours of `u`. -/
def merge (e : Elimination) (u v : Temp) : Elimination where
  nbrs t :=
    if t = u then e.nbrs u ∪ e.live v
    else if t ∈ e.live v then insert u (e.nbrs t)
    else e.nbrs t
  rep t := if e.rep t = v then u else e.rep t
  stack := e.stack

/-- Colouring the stack from its top keeps neighbours apart. -/
structure Valid (e : Elimination) : Prop where
  symm : ∀ x y, x ∈ e.nbrs y → y ∈ e.nbrs x
  rep_rep : ∀ t, e.rep (e.rep t) = e.rep t
  rep_of_mem : ∀ t ∈ e.stack, e.rep t = t
  nodup : e.stack.Nodup
  /-- Neighbours are never merged with each other. -/
  apart : ∀ x y, x ∈ e.nbrs y → e.rep x ≠ e.rep y
  /-- As long as both are present, what two neighbours stand for are neighbours. -/
  direct : ∀ x y, x ∈ e.nbrs y → e.rep x ∉ e.stack → e.rep y ∉ e.stack → e.rep x ∈ e.nbrs (e.rep y)
  /-- A pushed temporary sees what its neighbours stand for, except for what was
  pushed before it. -/
  seen : ∀ top t rest, e.stack = top ++ t :: rest →
    ∀ x y, x ∈ e.nbrs y → e.rep y = t → e.rep x ∉ rest → ∃ z ∈ e.nbrs t, e.rep z = e.rep x

/-- Two temporaries that may be merged. -/
structure Mergeable (e : Elimination) (u v : Temp) : Prop where
  left : e.Present u
  right : e.Present v
  ne : u ≠ v
  apart : u ∉ e.nbrs v

variable {e : Elimination} {t u v x y : Temp}

/-- The neighbours that are left are those that are present. -/
theorem mem_live : x ∈ e.live t ↔ x ∈ e.nbrs t ∧ e.Present x :=
  Finset.mem_filter

/-! ### Starting -/

/-- At the outset everything is present. -/
theorem present_whole {nbrs : Temp → Finset Temp} : (whole nbrs).Present t :=
  ⟨rfl, List.not_mem_nil⟩

/-- At the outset all neighbours are present. -/
theorem live_whole {nbrs : Temp → Finset Temp} : (whole nbrs).live t = nbrs t :=
  Finset.filter_true_of_mem fun _ _ => present_whole

/-- The invariant holds at the outset, for any graph without loops. -/
theorem valid_whole {nbrs : Temp → Finset Temp} (hsymm : ∀ x y, x ∈ nbrs y → y ∈ nbrs x)
    (hirrefl : ∀ x, x ∉ nbrs x) : (whole nbrs).Valid where
  symm := hsymm
  rep_rep _ := rfl
  rep_of_mem _ _ := rfl
  nodup := List.nodup_nil
  apart := by
    intro x y hxy heq
    replace heq : x = y := heq
    exact hirrefl y (heq ▸ hxy)
  direct _ _ hxy _ _ := hxy
  seen := by
    intro top t rest hstack
    replace hstack : [] = top ++ t :: rest := hstack
    simp at hstack

/-! ### Pushing -/

/-- A push takes out the temporary and nothing else. -/
theorem present_push : (e.push t).Present x ↔ e.Present x ∧ x ≠ t := by
  simp only [Present, push, List.mem_cons]
  tauto

/-- What is left of the neighbours after a push. -/
theorem live_push : (e.push t).live x = (e.live x).erase t := by
  ext y
  rw [Finset.mem_erase, mem_live, mem_live, present_push]
  show y ∈ e.nbrs x ∧ _ ↔ _
  tauto

/-- Pushing keeps an elimination valid: a present temporary still has direct
edges to all that is present. -/
theorem Valid.push (h : e.Valid) (ht : e.Present t) : (e.push t).Valid where
  symm := h.symm
  rep_rep := h.rep_rep
  rep_of_mem := by
    intro x hx
    rcases List.mem_cons.mp hx with rfl | hx
    · exact ht.1
    · exact h.rep_of_mem x hx
  nodup := List.nodup_cons.mpr ⟨ht.2, h.nodup⟩
  apart := h.apart
  direct := by
    intro x y hxy hx hy
    exact h.direct x y hxy (fun hmem => hx (List.mem_cons_of_mem t hmem))
      (fun hmem => hy (List.mem_cons_of_mem t hmem))
  seen := by
    intro top s rest hstack x y hxy hy hx
    replace hstack : t :: e.stack = top ++ s :: rest := hstack
    cases top with
    | nil =>
        -- `s` was pushed just now, so `y` stands for a present temporary.
        rw [List.nil_append, List.cons.injEq] at hstack
        obtain ⟨rfl, rfl⟩ := hstack
        have hdirect := h.direct x y hxy hx (by rw [show e.rep y = t from hy]; exact ht.2)
        rw [show e.rep y = t from hy] at hdirect
        exact ⟨e.rep x, hdirect, h.rep_rep x⟩
    | cons _ top =>
        rw [List.cons_append, List.cons.injEq] at hstack
        exact h.seen top s rest hstack.2 x y hxy hy hx

/-! ### Merging -/

/-- Temporaries that may be merged are not neighbours. -/
theorem Mergeable.not_mem_live (hm : e.Mergeable u v) : u ∉ e.live v :=
  fun h => hm.apart (mem_live.mp h).1

/-- A merge draws edges between `u` and the present neighbours of `v`. -/
theorem mem_nbrs_merge (hm : e.Mergeable u v) :
    x ∈ (e.merge u v).nbrs t ↔
      x ∈ e.nbrs t ∨ (t = u ∧ x ∈ e.live v) ∨ (x = u ∧ t ∈ e.live v) := by
  have hu := hm.not_mem_live
  simp only [merge]
  by_cases htu : t = u
  · subst htu
    simp [hu]
  · by_cases ht : t ∈ e.live v
    · simp [htu, ht, or_comm]
    · simp [htu, ht]

/-- Whatever was represented by `v` is represented by `u` after the merge. -/
theorem rep_merge : (e.merge u v).rep t = if e.rep t = v then u else e.rep t :=
  rfl

/-- After a merge `v` is gone, and nothing else. -/
theorem present_merge (hm : e.Mergeable u v) : (e.merge u v).Present x ↔ e.Present x ∧ x ≠ v := by
  have hv := hm.right.1
  have hu := hm.left.1
  simp only [Present, merge]
  by_cases hx : e.rep x = v
  · -- `x` stood for `v`, so it now stands for `u`, which is another temporary.
    rw [if_pos hx]
    constructor
    · rintro ⟨rfl, -⟩
      exact absurd (hu.symm.trans hx) hm.ne
    · rintro ⟨⟨hrep, -⟩, hne⟩
      exact absurd (hrep.symm.trans hx) hne
  · rw [if_neg hx]
    constructor
    · rintro ⟨hrep, hstack⟩
      exact ⟨⟨hrep, hstack⟩, fun hxv => hx (by rw [hxv]; exact hv)⟩
    · exact fun h => h.1

/-- Nothing ever becomes its own neighbour. -/
theorem Valid.irrefl (h : e.Valid) : t ∉ e.nbrs t :=
  fun hmem => h.apart t t hmem rfl

/-- What is left of the neighbours of `u` after a merge into it. -/
theorem Valid.live_merge_self (h : e.Valid) (hm : e.Mergeable u v) :
    (e.merge u v).live u = e.live u ∪ e.live v := by
  ext x
  rw [mem_live, present_merge hm, mem_nbrs_merge hm, Finset.mem_union, mem_live (t := u)]
  constructor
  · rintro ⟨hmem | ⟨-, hmem⟩ | ⟨rfl, hmem⟩, hx, -⟩
    · exact Or.inl ⟨hmem, hx⟩
    · exact Or.inr hmem
    · exact absurd hmem hm.not_mem_live
  · rintro (⟨hmem, hx⟩ | hmem)
    · refine ⟨Or.inl hmem, hx, ?_⟩
      rintro rfl
      exact hm.apart (h.symm _ _ hmem)
    · refine ⟨Or.inr (Or.inl ⟨rfl, hmem⟩), (mem_live.mp hmem).2, ?_⟩
      rintro rfl
      exact h.irrefl (mem_live.mp hmem).1

/-- What is left of the neighbours of a neighbour of `v`: it has `u` in place of `v`. -/
theorem live_merge_of_mem (hm : e.Mergeable u v) (hx : x ∈ e.live v) :
    (e.merge u v).live x = insert u ((e.live x).erase v) := by
  have hxu : x ≠ u := fun heq => hm.not_mem_live (heq ▸ hx)
  ext y
  rw [mem_live, present_merge hm, mem_nbrs_merge hm, Finset.mem_insert, Finset.mem_erase,
    mem_live (t := x)]
  constructor
  · rintro ⟨hmem | ⟨rfl, -⟩ | ⟨rfl, -⟩, hy, hne⟩
    · exact Or.inr ⟨hne, hmem, hy⟩
    · exact absurd rfl hxu
    · exact Or.inl rfl
  · rintro (rfl | ⟨hne, hmem, hy⟩)
    · exact ⟨Or.inr (Or.inr ⟨rfl, hx⟩), hm.left, hm.ne⟩
    · exact ⟨Or.inl hmem, hy, hne⟩

/-- Temporaries that are no neighbours of `v` keep what is left of theirs. -/
theorem Valid.live_merge_of_not_mem (h : e.Valid) (hm : e.Mergeable u v) (hxu : x ≠ u)
    (hx : x ∉ e.live v) (hpresent : e.Present x) : (e.merge u v).live x = e.live x := by
  ext y
  rw [mem_live, present_merge hm, mem_nbrs_merge hm, mem_live (t := x)]
  constructor
  · rintro ⟨hmem | ⟨rfl, -⟩ | ⟨-, hmem⟩, hy, -⟩
    · exact ⟨hmem, hy⟩
    · exact absurd rfl hxu
    · exact absurd hmem hx
  · rintro ⟨hmem, hy⟩
    refine ⟨Or.inl hmem, hy, ?_⟩
    rintro rfl
    exact hx (mem_live.mpr ⟨h.symm _ _ hmem, hpresent⟩)

/-- A pushed temporary does not stand for, and is not represented by, anything
else after a merge of present ones. -/
theorem Mergeable.rep_merge_of_mem_stack (hm : e.Mergeable u v) (ht : t ∈ e.stack) :
    (e.merge u v).rep x = t ↔ e.rep x = t := by
  rw [rep_merge]
  by_cases hx : e.rep x = v
  · rw [if_pos hx, hx]
    constructor
    · rintro rfl
      exact absurd ht hm.left.2
    · rintro rfl
      exact absurd ht hm.right.2
  · rw [if_neg hx]

/-- A pushed temporary keeps its neighbours in a merge of present ones. -/
theorem Mergeable.nbrs_merge_of_mem_stack (hm : e.Mergeable u v) (ht : t ∈ e.stack) :
    (e.merge u v).nbrs t = e.nbrs t := by
  have htu : t ≠ u := fun heq => hm.left.2 (heq ▸ ht)
  have htv : t ∉ e.live v := fun hmem => (mem_live.mp hmem).2.2 ht
  simp [Elimination.merge, htu, htv]

/-- The present neighbours of `v` stand for themselves before and after a merge. -/
theorem Valid.rep_merge_of_mem_live (h : e.Valid) (hm : e.Mergeable u v) (hx : x ∈ e.live v) :
    (e.merge u v).rep x = x := by
  have hxv : x ≠ v := by
    rintro rfl
    exact h.irrefl (mem_live.mp hx).1
  rw [rep_merge, (mem_live.mp hx).2.1, if_neg hxv]

/-- The temporary that was merged into stands for itself. -/
theorem Mergeable.rep_merge_left (hm : e.Mergeable u v) : (e.merge u v).rep u = u := by
  rw [rep_merge, hm.left.1, if_neg hm.ne]

/-- The merged temporary stands for the other one. -/
theorem Mergeable.rep_merge_right (hm : e.Mergeable u v) : (e.merge u v).rep v = u := by
  rw [rep_merge, if_pos hm.right.1]

/-- What stands for `u` has no neighbours among what stands for `v`. -/
theorem Valid.not_mem_nbrs_of_rep (h : e.Valid) (hm : e.Mergeable u v) (hx : e.rep x = u)
    (hy : e.rep y = v) : x ∉ e.nbrs y := by
  intro hmem
  have hedge := h.direct x y hmem (hx ▸ hm.left.2) (hy ▸ hm.right.2)
  rw [hx, hy] at hedge
  exact hm.apart hedge

/-- Neighbours do not come to stand for the same temporary. -/
theorem Valid.rep_merge_ne (h : e.Valid) (hm : e.Mergeable u v) (hmem : x ∈ e.nbrs y) :
    (e.merge u v).rep x ≠ (e.merge u v).rep y := by
  have hne := h.apart x y hmem
  rw [rep_merge, rep_merge]
  by_cases hx : e.rep x = v
  · rw [if_pos hx, if_neg (fun hy => hne (hx.trans hy.symm))]
    exact fun hy => h.not_mem_nbrs_of_rep hm hy.symm hx (h.symm x y hmem)
  · rw [if_neg hx]
    by_cases hy : e.rep y = v
    · rw [if_pos hy]
      exact fun hxu => h.not_mem_nbrs_of_rep hm hxu hy hmem
    · rw [if_neg hy]
      exact hne

/-- What is left of an edge at `v` has moved to `u`. -/
theorem Valid.direct_merge (h : e.Valid) (hm : e.Mergeable u v) (hmem : x ∈ e.nbrs y)
    (hx : (e.merge u v).rep x ∉ e.stack) (hy : (e.merge u v).rep y ∉ e.stack) :
    (e.merge u v).rep x ∈ (e.merge u v).nbrs ((e.merge u v).rep y) := by
  have hne := h.apart x y hmem
  rw [rep_merge] at hx hy
  rw [rep_merge, rep_merge, mem_nbrs_merge hm]
  -- Neighbors have different representatives, so at most one of the two becomes `u`.
  by_cases hxv : e.rep x = v
  · have hyv : e.rep y ≠ v := fun hyv => hne (hxv.trans hyv.symm)
    rw [if_neg hyv] at hy ⊢
    rw [if_pos hxv]
    have hedge := h.direct x y hmem (hxv ▸ hm.right.2) hy
    rw [hxv] at hedge
    exact Or.inr (Or.inr ⟨rfl, mem_live.mpr ⟨h.symm _ _ hedge, h.rep_rep y, hy⟩⟩)
  · rw [if_neg hxv] at hx ⊢
    by_cases hyv : e.rep y = v
    · rw [if_pos hyv]
      have hedge := h.direct x y hmem hx (hyv ▸ hm.right.2)
      rw [hyv] at hedge
      exact Or.inr (Or.inl ⟨rfl, mem_live.mpr ⟨hedge, h.rep_rep x, hx⟩⟩)
    · rw [if_neg hyv] at hy ⊢
      exact Or.inl (h.direct x y hmem hx hy)

/-- The neighbours of what stands for a pushed temporary are old ones, since new
edges are between present temporaries. -/
theorem Mergeable.mem_nbrs_of_rep_mem_stack (hm : e.Mergeable u v) (hy : e.rep y ∈ e.stack)
    (hxy : x ∈ (e.merge u v).nbrs y) : x ∈ e.nbrs y := by
  rcases (mem_nbrs_merge hm).mp hxy with hmem | ⟨rfl, -⟩ | ⟨-, hmem⟩
  · exact hmem
  · rw [hm.left.1] at hy
    exact absurd hy hm.left.2
  · have hpresent := (mem_live.mp hmem).2
    rw [hpresent.1] at hy
    exact absurd hy hpresent.2

/-- Merging keeps an elimination valid. Everything that stood for `v` now stands
for `u`, and `u` gets the edges that `v` had to what is present. What was pushed
already looks up what its neighbours stand for, so nothing changes for it. -/
theorem Valid.merge (h : e.Valid) (hm : e.Mergeable u v) : (e.merge u v).Valid where
  symm := by
    intro x y hxy
    rw [mem_nbrs_merge hm] at hxy ⊢
    rcases hxy with hmem | ⟨rfl, hmem⟩ | ⟨rfl, hmem⟩
    · exact Or.inl (h.symm x y hmem)
    · exact Or.inr (Or.inr ⟨rfl, hmem⟩)
    · exact Or.inr (Or.inl ⟨rfl, hmem⟩)
  rep_rep := by
    intro t
    rw [rep_merge (t := t)]
    by_cases ht : e.rep t = v
    · rw [if_pos ht, hm.rep_merge_left]
    · rw [if_neg ht, rep_merge, h.rep_rep, if_neg ht]
  rep_of_mem := by
    intro t ht
    rw [hm.rep_merge_of_mem_stack ht]
    exact h.rep_of_mem t ht
  nodup := h.nodup
  apart := by
    intro x y hxy
    rcases (mem_nbrs_merge hm).mp hxy with hmem | ⟨rfl, hmem⟩ | ⟨rfl, hmem⟩
    · exact h.rep_merge_ne hm hmem
    · rw [hm.rep_merge_left, h.rep_merge_of_mem_live hm hmem]
      rintro rfl
      exact hm.not_mem_live hmem
    · rw [hm.rep_merge_left, h.rep_merge_of_mem_live hm hmem]
      rintro rfl
      exact hm.not_mem_live hmem
  direct := by
    intro x y hxy hx hy
    rcases (mem_nbrs_merge hm).mp hxy with hmem | ⟨rfl, hmem⟩ | ⟨rfl, hmem⟩
    · exact h.direct_merge hm hmem hx hy
    · rw [hm.rep_merge_left, h.rep_merge_of_mem_live hm hmem]
      exact hxy
    · rw [hm.rep_merge_left, h.rep_merge_of_mem_live hm hmem]
      exact hxy
  -- What was pushed before the merge keeps its own neighbors and has seen those of `e`.
  seen := by
    intro top t rest hstack x y hxy hy hx
    replace hstack : e.stack = top ++ t :: rest := hstack
    have ht : t ∈ e.stack := by simp [hstack]
    rw [hm.rep_merge_of_mem_stack ht] at hy
    have hold : x ∈ e.nbrs y := hm.mem_nbrs_of_rep_mem_stack (hy.symm ▸ ht) hxy
    have hrest : e.rep x ∉ rest := by
      intro hmem
      have hpushed : e.rep x ∈ e.stack := by simp [hstack, hmem]
      have heq : (e.merge u v).rep x = e.rep x := (hm.rep_merge_of_mem_stack hpushed).mpr rfl
      exact hx (heq ▸ hmem)
    obtain ⟨z, hz, hrep⟩ := h.seen top t rest hstack x y hold hy hrest
    rw [hm.nbrs_merge_of_mem_stack ht]
    exact ⟨z, hz, by rw [rep_merge, rep_merge, hrep]⟩

end Elimination

end MmixCodegen
