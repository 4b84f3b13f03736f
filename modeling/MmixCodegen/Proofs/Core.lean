import MmixCodegen.Proofs.Elimination
import Mathlib.Data.Finset.Lattice.Union
import Mathlib.Data.Finset.Powerset
import Mathlib.Order.Bounds.Defs

/-!
# `MmixCodegen.Proofs.Core`: the part of a graph that forces a spill

A set of temporaries is dense if each of its members has at least `k`
neighbours in it. The `k`-core of a graph is its largest dense set
(`isGreatest_core`). A graph that can be emptied by taking out temporaries with
fewer than `k` neighbours has an empty core (`Peels.core_eq_empty`).

The second half is about an elimination that merges only where fewer than `k`
of the merged neighbours have `k` or more neighbours themselves:

* `Untouched`: each dense set of what is left is a dense set of the graph it
  started from, and nothing was ever merged into its members. A merged temporary
  is in no dense set, and remains in none (`Untouched.merge`).
* `Bounded`: a pushed temporary sees fewer than `k` others when it is coloured,
  unless it was `Forced`: chosen from a dense set.
-/

set_option autoImplicit false

namespace MmixCodegen

variable {nbrs : Temp → Finset Temp} {k : Nat}

/-- Each member has at least `k` neighbours among the members. -/
def Dense (nbrs : Temp → Finset Temp) (k : Nat) (s : Finset Temp) : Prop :=
  ∀ t ∈ s, k ≤ (nbrs t ∩ s).card

instance (nbrs : Temp → Finset Temp) (k : Nat) : DecidablePred (Dense nbrs k) := fun s =>
  inferInstanceAs (Decidable (∀ t ∈ s, k ≤ (nbrs t ∩ s).card))

/-- The `k`-core of the subgraph on `vs`: all dense sets together. -/
def core (nbrs : Temp → Finset Temp) (k : Nat) (vs : Finset Temp) : Finset Temp :=
  (vs.powerset.filter (Dense nbrs k)).biUnion id

/-- A temporary is in the core just if it is in some dense set. -/
theorem mem_core {vs : Finset Temp} {t : Temp} :
    t ∈ core nbrs k vs ↔ ∃ s ⊆ vs, Dense nbrs k s ∧ t ∈ s := by
  simp [core, and_assoc]

/-- The core is the largest dense set. -/
theorem isGreatest_core (nbrs : Temp → Finset Temp) (k : Nat) (vs : Finset Temp) :
    IsGreatest {s | s ⊆ vs ∧ Dense nbrs k s} (core nbrs k vs) := by
  have hsubset : ∀ s ⊆ vs, Dense nbrs k s → s ⊆ core nbrs k vs :=
    fun s hs hdense t ht => mem_core.mpr ⟨s, hs, hdense, ht⟩
  refine ⟨⟨?_, ?_⟩, fun s hs => hsubset s hs.1 hs.2⟩
  · intro t ht
    obtain ⟨s, hs, -, hmem⟩ := mem_core.mp ht
    exact hs hmem
  · intro t ht
    obtain ⟨s, hs, hdense, hmem⟩ := mem_core.mp ht
    calc k ≤ (nbrs t ∩ s).card := hdense t hmem
      _ ≤ (nbrs t ∩ core nbrs k vs).card :=
        Finset.card_le_card (Finset.inter_subset_inter_left (hsubset s hs hdense))

/-- A subgraph that can be emptied by taking out temporaries with fewer than `k`
neighbours in what is left. -/
inductive Peels (nbrs : Temp → Finset Temp) (k : Nat) : Finset Temp → Prop
  | empty : Peels nbrs k ∅
  | erase {vs : Finset Temp} {t : Temp} (ht : t ∈ vs) (hlow : (nbrs t ∩ vs).card < k)
      (rest : Peels nbrs k (vs.erase t)) : Peels nbrs k vs

/-- The empty subgraph can be emptied. -/
theorem Peels.of_eq_empty {vs : Finset Temp} (h : vs = ∅) : Peels nbrs k vs :=
  h ▸ .empty

/-- What can be emptied has no core. -/
theorem Peels.core_eq_empty {vs : Finset Temp} (h : Peels nbrs k vs) : core nbrs k vs = ∅ := by
  induction h with
  | empty =>
      rw [Finset.eq_empty_iff_forall_notMem]
      intro t ht
      obtain ⟨s, hs, -, hmem⟩ := mem_core.mp ht
      simpa using hs hmem
  | @erase vs t ht hlow _ ih =>
      rw [Finset.eq_empty_iff_forall_notMem] at ih ⊢
      intro x hx
      obtain ⟨s, hs, hdense, hmem⟩ := mem_core.mp hx
      -- `t` has too few neighbours to be in a dense set.
      have hts : t ∉ s := by
        intro hts
        have hle : (nbrs t ∩ s).card ≤ (nbrs t ∩ vs).card :=
          Finset.card_le_card (Finset.inter_subset_inter_left hs)
        have hk := hdense t hts
        omega
      exact ih x (mem_core.mpr ⟨s, Finset.subset_erase.mpr ⟨hs, hts⟩, hdense, hmem⟩)

namespace Elimination

variable {e : Elimination} {nbrs₀ : Temp → Finset Temp} {vs shield : Finset Temp} {t u v : Temp}

/-- Nothing else stands for the temporary. -/
def Alone (e : Elimination) (t : Temp) : Prop :=
  ∀ x, e.rep x = t → x = t

/-- The dense sets of what is left were dense in the graph `nbrs₀` already, and
nothing was merged into their members. -/
def Untouched (e : Elimination) (nbrs₀ : Temp → Finset Temp) (k : Nat) : Prop :=
  ∀ s : Finset Temp, (∀ t ∈ s, e.Present t) → Dense e.nbrs k s →
    Dense nbrs₀ k s ∧ ∀ t ∈ s, e.Alone t

/-- The temporary was chosen from a dense set of the graph `nbrs₀` on `vs`, if it
was shielded from one in which all are. -/
def Forced (e : Elimination) (nbrs₀ : Temp → Finset Temp) (k : Nat) (vs shield : Finset Temp)
    (t : Temp) : Prop :=
  e.Alone t ∧ ∃ s ⊆ vs, t ∈ s ∧ Dense nbrs₀ k s ∧ (t ∈ shield → s ⊆ shield)

/-- What a pushed temporary sees when it is coloured: what its neighbours stand
for, without what was pushed before it. -/
def sight (e : Elimination) (t : Temp) (rest : List Temp) : Finset Temp :=
  (e.nbrs t).image e.rep \ rest.toFinset

/-- Each pushed temporary sees fewer than `k` others when it is coloured, or was forced. -/
def Bounded (e : Elimination) (nbrs₀ : Temp → Finset Temp) (k : Nat) (vs shield : Finset Temp) :
    Prop :=
  ∀ top t rest, e.stack = top ++ t :: rest →
    (e.sight t rest).card < k ∨ e.Forced nbrs₀ k vs shield t

/-- The test that allows a merge: fewer than `k` of the joint neighbours have `k`
or more neighbours. -/
def Briggs (e : Elimination) (k : Nat) (u v : Temp) : Prop :=
  ((e.live u ∪ e.live v).filter fun n => k ≤ (e.live n).card).card < k

/-! ### Dense sets -/

/-- At the outset nothing has been merged, and what is left is the whole graph. -/
theorem untouched_whole : (whole nbrs₀).Untouched nbrs₀ k :=
  fun _ _ hdense => ⟨hdense, fun _ _ _ heq => heq⟩

/-- At the outset nothing has been pushed. -/
theorem bounded_whole : (whole nbrs₀).Bounded nbrs₀ k vs shield := by
  intro top t rest hstack
  replace hstack : [] = top ++ t :: rest := hstack
  simp at hstack

/-- A push only takes a temporary away, and what is dense without it was dense before. -/
theorem Untouched.push (h : e.Untouched nbrs₀ k) : (e.push t).Untouched nbrs₀ k := by
  intro s hs hdense
  exact h s (fun x hx => (present_push.mp (hs x hx)).1) hdense

/-- Merging does not raise the number of present neighbours of any other temporary. -/
theorem Valid.card_live_merge_le (h : e.Valid) (hm : e.Mergeable u v) {x : Temp}
    (hx : x ∈ e.live u ∪ e.live v) : ((e.merge u v).live x).card ≤ (e.live x).card := by
  have hxu : x ≠ u := by
    rintro rfl
    rcases Finset.mem_union.mp hx with hmem | hmem
    · exact h.irrefl (mem_live.mp hmem).1
    · exact hm.not_mem_live hmem
  have hpresent : e.Present x := by
    rcases Finset.mem_union.mp hx with hmem | hmem
    · exact (mem_live.mp hmem).2
    · exact (mem_live.mp hmem).2
  by_cases hxv : x ∈ e.live v
  · rw [live_merge_of_mem hm hxv]
    -- `x` has `u` in place of `v` now.
    have hv : v ∈ e.live x := mem_live.mpr ⟨h.symm _ _ (mem_live.mp hxv).1, hm.right⟩
    calc (insert u ((e.live x).erase v)).card ≤ ((e.live x).erase v).card + 1 :=
          Finset.card_insert_le _ _
      _ = (e.live x).card := Finset.card_erase_add_one hv
  · rw [h.live_merge_of_not_mem hm hxu hxv hpresent]

/-- A temporary that another one was just merged into is in no dense set. Each of
its neighbours in such a set has `k` neighbours, and had them before the merge,
so the test would have counted `k` of them. -/
theorem Valid.not_mem_of_dense_merge (h : e.Valid) (hm : e.Mergeable u v) (hb : e.Briggs k u v)
    {s : Finset Temp} (hs : ∀ t ∈ s, (e.merge u v).Present t)
    (hdense : Dense (e.merge u v).nbrs k s) : u ∉ s := by
  intro hu
  have hsub : (e.merge u v).nbrs u ∩ s
      ⊆ (e.live u ∪ e.live v).filter fun n => k ≤ (e.live n).card := by
    intro n hn
    obtain ⟨hnu, hns⟩ := Finset.mem_inter.mp hn
    have hlive : n ∈ e.live u ∪ e.live v := by
      rw [← h.live_merge_self hm]
      exact mem_live.mpr ⟨hnu, hs n hns⟩
    refine Finset.mem_filter.mpr ⟨hlive, ?_⟩
    calc k ≤ ((e.merge u v).nbrs n ∩ s).card := hdense n hns
      _ ≤ ((e.merge u v).live n).card := by
          refine Finset.card_le_card fun x hx => ?_
          obtain ⟨hxn, hxs⟩ := Finset.mem_inter.mp hx
          exact mem_live.mpr ⟨hxn, hs x hxs⟩
      _ ≤ (e.live n).card := h.card_live_merge_le hm hlive
  -- So `u` has `k` neighbours that the test has counted.
  have hk := hdense u hu
  have hle := Finset.card_le_card hsub
  unfold Briggs at hb
  omega

/-- A merge makes only `u` stand for more, so any other that stood alone still does. -/
theorem Alone.merge (h : e.Alone t) (htu : t ≠ u) : (e.merge u v).Alone t := by
  intro x hx
  rw [rep_merge] at hx
  split at hx
  · exact absurd hx.symm htu
  · exact h x hx

/-- Away from `u` a merge draws no edges. -/
theorem mem_nbrs_merge_of_ne (hm : e.Mergeable u v) {x y : Temp} (hx : x ≠ u) (hy : y ≠ u) :
    x ∈ (e.merge u v).nbrs y ↔ x ∈ e.nbrs y := by
  rw [mem_nbrs_merge hm]
  simp [hx, hy]

/-- A merge that passes the test makes no new dense set, and the ones that remain avoid the
merged temporary. -/
theorem Untouched.merge (h : e.Untouched nbrs₀ k) (hvalid : e.Valid) (hm : e.Mergeable u v)
    (hb : e.Briggs k u v) : (e.merge u v).Untouched nbrs₀ k := by
  intro s hs hdense
  have hu := hvalid.not_mem_of_dense_merge hm hb hs hdense
  have hne : ∀ t ∈ s, t ≠ u := fun t ht heq => hu (heq ▸ ht)
  -- Since `u` is not in the set, its edges are old ones.
  have hinter : ∀ t ∈ s, (e.merge u v).nbrs t ∩ s = e.nbrs t ∩ s := by
    intro t ht
    ext x
    simp only [Finset.mem_inter]
    exact and_congr_left fun hx => mem_nbrs_merge_of_ne hm (hne x hx) (hne t ht)
  have hold : Dense e.nbrs k s := fun t ht => hinter t ht ▸ hdense t ht
  obtain ⟨hdense₀, halone⟩ := h s (fun t ht => ((present_merge hm).mp (hs t ht)).1) hold
  exact ⟨hdense₀, fun t ht => (halone t ht).merge (hne t ht)⟩

/-! ### What a pushed temporary sees -/

/-- A temporary that was forced remains so when others are merged. -/
theorem Forced.merge (h : e.Forced nbrs₀ k vs shield t) (htu : t ≠ u) :
    (e.merge u v).Forced nbrs₀ k vs shield t :=
  ⟨h.1.merge htu, h.2⟩

/-- When a temporary is pushed, what it sees are its present neighbours. -/
theorem Valid.sight_subset_live (h : e.Valid) (ht : e.Present t) :
    e.sight t e.stack ⊆ e.live t := by
  intro r hr
  obtain ⟨hmem, hstack⟩ := Finset.mem_sdiff.mp hr
  obtain ⟨z, hz, rfl⟩ := Finset.mem_image.mp hmem
  rw [List.mem_toFinset] at hstack
  have hdirect := h.direct z t hz hstack (ht.1.symm ▸ ht.2)
  rw [ht.1] at hdirect
  exact mem_live.mpr ⟨hdirect, h.rep_rep z, hstack⟩

/-- A push keeps the bound, if the pushed temporary has few neighbours left or was forced. -/
theorem Bounded.push (h : e.Bounded nbrs₀ k vs shield) (hvalid : e.Valid) (ht : e.Present t)
    (hlow : (e.live t).card < k ∨ e.Forced nbrs₀ k vs shield t) :
    (e.push t).Bounded nbrs₀ k vs shield := by
  intro top s rest hstack
  replace hstack : t :: e.stack = top ++ s :: rest := hstack
  cases top with
  | nil =>
      rw [List.nil_append, List.cons.injEq] at hstack
      obtain ⟨rfl, rfl⟩ := hstack
      rcases hlow with hlow | hforced
      · exact Or.inl (lt_of_le_of_lt (Finset.card_le_card (hvalid.sight_subset_live ht)) hlow)
      · exact Or.inr hforced
  | cons _ top =>
      rw [List.cons_append, List.cons.injEq] at hstack
      exact h top s rest hstack.2

/-- A merge of present temporaries can only make pushed ones see fewer. -/
theorem Mergeable.card_sight_merge_le (hm : e.Mergeable u v) {top rest : List Temp}
    (hstack : e.stack = top ++ t :: rest) :
    ((e.merge u v).sight t rest).card ≤ (e.sight t rest).card := by
  have ht : t ∈ e.stack := by simp [hstack]
  have hrest : ∀ r ∈ rest, r ∈ e.stack := fun r hr => by simp [hstack, hr]
  -- What is seen through `v` is now seen as `u`. Two may become one.
  have hsub : (e.merge u v).sight t rest
      ⊆ (e.sight t rest).image fun r => if r = v then u else r := by
    intro r hr
    obtain ⟨hmem, hnot⟩ := Finset.mem_sdiff.mp hr
    rw [hm.nbrs_merge_of_mem_stack ht] at hmem
    obtain ⟨z, hz, rfl⟩ := Finset.mem_image.mp hmem
    refine Finset.mem_image.mpr ⟨e.rep z, ?_, rfl⟩
    refine Finset.mem_sdiff.mpr ⟨Finset.mem_image_of_mem _ hz, ?_⟩
    rw [List.mem_toFinset] at hnot ⊢
    intro hz'
    have heq := (hm.rep_merge_of_mem_stack (x := z) (hrest _ hz')).mpr rfl
    exact hnot (heq ▸ hz')
  exact (Finset.card_le_card hsub).trans Finset.card_image_le

/-- A merge gives no pushed temporary more to see. -/
theorem Bounded.merge (h : e.Bounded nbrs₀ k vs shield) (hm : e.Mergeable u v) :
    (e.merge u v).Bounded nbrs₀ k vs shield := by
  intro top t rest hstack
  replace hstack : e.stack = top ++ t :: rest := hstack
  rcases h top t rest hstack with hlow | hforced
  · exact Or.inl (lt_of_le_of_lt (hm.card_sight_merge_le hstack) hlow)
  · refine Or.inr (hforced.merge ?_)
    rintro rfl
    exact hm.left.2 (by simp [hstack])

end Elimination

end MmixCodegen
