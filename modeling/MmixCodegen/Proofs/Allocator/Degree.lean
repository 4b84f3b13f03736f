import MmixCodegen.Proofs.Allocator.Ease
import Mathlib.Data.List.Nodup

/-!
# `MmixCodegen.Proofs.Allocator.Degree`: counting neighbours

An allocation does not count neighbours again. It lowers the degree of a
temporary when a neighbour leaves (`loseNeighbor`), and raises and lowers degrees
when `u` takes over the neighbours of what was merged into it (`takeOver`). The
first half of this module says what these two, and their runs over a list of
neighbours, do to edges and degrees.

A status claims something about the degree: temporaries of status `spill` have a
high one, those of status `freeze` a low one. `Graded` states this for one
temporary. `Graded.loseNeighbor` and `Graded.takeOver` say that it stays true.
-/

set_option autoImplicit false

namespace MmixCodegen

namespace Allocator

variable {a : Allocator} {t u x : Temp}

/-! ### What leaves the graph and the statuses alone -/

/-- What each step of a run leaves alone, the run leaves alone. -/
theorem foldl_eq {α β : Type} {p : Allocator → β} {f : Allocator → α → Allocator}
    (hf : ∀ a x, p (f a x) = p a) (a : Allocator) (l : List α) : p (l.foldl f a) = p a := by
  induction l generalizing a with
  | nil => rfl
  | cons x l ih => rw [List.foldl_cons, ih, hf]

/-- Waking moves leaves the graph alone. -/
@[simp]
theorem graph_wakeMoves (a : Allocator) (t : Temp) : (a.wakeMoves t).graph = a.graph := by
  refine foldl_eq (p := Allocator.graph) (fun a index => ?_) a _
  split <;> rfl

/-- Waking moves leaves the statuses of temporaries alone. -/
@[simp]
theorem status_wakeMoves (a : Allocator) (t x : Temp) : (a.wakeMoves t).status x = a.status x := by
  refine foldl_eq (p := fun b => b.status x) (fun a index => ?_) a _
  split <;> rfl

/-- Waking the moves around a temporary leaves the graph alone. -/
@[simp]
theorem graph_wakeAround (a : Allocator) (t : Temp) : (a.wakeAround t).graph = a.graph :=
  foldl_eq (p := Allocator.graph) graph_wakeMoves a _

/-- Waking the moves around a temporary leaves the statuses of temporaries alone. -/
@[simp]
theorem status_wakeAround (a : Allocator) (t x : Temp) : (a.wakeAround t).status x = a.status x :=
  foldl_eq (p := fun b => b.status x) (fun a t => status_wakeMoves a t x) a _

/-- Sorting a temporary that was one of high degree leaves the graph alone. -/
@[simp]
theorem graph_lighten (a : Allocator) (t : Temp) : (a.lighten t).graph = a.graph := by
  unfold lighten
  split <;> rfl

/-- Releasing a temporary leaves the graph alone. -/
@[simp]
theorem graph_release (a : Allocator) (t : Temp) : (a.release t).graph = a.graph := by
  unfold release
  split <;> rfl

/-- Sorting a temporary that became one of high degree leaves the graph alone. -/
@[simp]
theorem graph_burden (a : Allocator) (t : Temp) : (a.burden t).graph = a.graph := by
  unfold burden
  split <;> rfl

/-- A temporary keeps its status, unless it becomes a candidate for spilling. -/
theorem status_burden_self (a : Allocator) (t : Temp) :
    (a.burden t).status t = a.status t ∨ (a.burden t).status t = .spill := by
  unfold burden
  split
  · right
    rw [status_place, if_pos rfl]
  · exact Or.inl rfl

/-- Sorting one temporary changes the status of no other one. -/
theorem status_burden_of_ne (a : Allocator) (hx : x ≠ t) : (a.burden t).status x = a.status x := by
  unfold burden
  split
  · rw [status_place, if_neg (Ne.symm hx)]
  · rfl

/-- Giving up moves leaves the graph alone. -/
@[simp]
theorem graph_freezeMoves (a : Allocator) (t : Temp) : (a.freezeMoves t).graph = a.graph := by
  refine foldl_eq (p := Allocator.graph) (fun a index => ?_) (a.compress t) _
  unfold freezeMove
  split
  · rfl
  · rw [graph_release]
    rfl

/-! ### Losing a neighbour -/

/-- A new degree concerns one temporary only. -/
@[simp]
theorem degree_setDegree (g : Interference) (t : Temp) (d : Nat) (x : Temp) :
    (g.setDegree t d).degree x = if x = t then d else g.degree x := by
  simp only [Interference.degree, Interference.setDegree, Std.ExtTreeMap.getD_insert,
    Std.LawfulEqCmp.compare_eq_iff_eq, eq_comm (a := t)]

/-- Losing a neighbour is a matter of counting: all edges stay. -/
@[simp]
theorem neighbors_loseNeighbor (a : Allocator) (t x : Temp) :
    (a.loseNeighbor t).graph.neighbors x = a.graph.neighbors x := by
  unfold loseNeighbor
  split
  · rfl
  · split
    · rw [graph_lighten, graph_wakeAround]
      rfl
    · rfl

/-- Losing a neighbour lowers one degree by one. -/
@[simp]
theorem degree_loseNeighbor (a : Allocator) (t x : Temp) :
    (a.loseNeighbor t).graph.degree x =
      if x = t then a.graph.degree t - 1 else a.graph.degree x := by
  unfold loseNeighbor
  split
  · next hzero =>
    split
    · next heq => rw [heq, hzero]
    · rfl
  · split
    · rw [graph_lighten, graph_wakeAround, lowerDegree, degree_setDegree]
    · rw [lowerDegree, degree_setDegree]

/-- Losing a neighbour changes the status of no other temporary. -/
theorem status_loseNeighbor_of_ne (a : Allocator) (hx : x ≠ t) :
    (a.loseNeighbor t).status x = a.status x := by
  unfold loseNeighbor
  split
  · rfl
  · split
    · unfold lighten
      split
      · rw [status_place, if_neg hx.symm, status_wakeAround]
        rfl
      · rw [status_wakeAround]
        rfl
    · rfl

/-- Only a temporary whose degree drops below the number of registers gets a new
status, and only if it was one of high degree. -/
theorem status_loseNeighbor_self (a : Allocator) (t : Temp) :
    (a.loseNeighbor t).status t = a.status t ∧
        (a.status t = .spill → a.graph.degree t = a.registers → a.graph.degree t = 0) ∨
      a.status t = .spill ∧ a.graph.degree t = a.registers ∧ a.graph.degree t ≠ 0 ∧
        ((a.loseNeighbor t).status t = .freeze ∨ (a.loseNeighbor t).status t = .simplify) := by
  unfold loseNeighbor
  split
  · next hzero => exact Or.inl ⟨rfl, fun _ _ => hzero⟩
  · next hpos =>
    split
    · next hregisters =>
      -- Waking moves up changes the status of no temporary.
      have hwoken : ((a.lowerDegree t).wakeAround t).status t = a.status t :=
        status_wakeAround _ _ _
      unfold lighten
      split
      · next hspill =>
        rw [hwoken] at hspill
        refine Or.inr ⟨hspill, hregisters, hpos, ?_⟩
        rw [status_place, if_pos rfl]
        split
        · exact Or.inl rfl
        · exact Or.inr rfl
      · next hspill =>
        rw [hwoken] at hspill ⊢
        exact Or.inl ⟨rfl, fun h => absurd h hspill⟩
    · next hregisters => exact Or.inl ⟨rfl, fun _ h => absurd h hregisters⟩

/-- Each temporary of a list loses a neighbour. -/
theorem degree_foldl_loseNeighbor (a : Allocator) {l : List Temp} (hl : l.Nodup) (x : Temp) :
    (l.foldl loseNeighbor a).graph.degree x =
      if x ∈ l then a.graph.degree x - 1 else a.graph.degree x := by
  induction l generalizing a with
  | nil => rfl
  | cons t l ih =>
      obtain ⟨ht, hl⟩ := List.nodup_cons.mp hl
      rw [List.foldl_cons, ih _ hl, degree_loseNeighbor]
      by_cases hx : x = t
      · subst hx
        simp [ht]
      · simp [hx]

/-! ### Taking over neighbours -/

section TakeOver

variable {n : Temp} {l : List Temp}

/-- Nothing is drawn between temporaries that have an edge already. -/
theorem takeOver_of_mem (h : a.graph.Sound) (hmem : n ∈ a.graph.neighbors u) :
    a.takeOver u n = a.loseNeighbor n := by
  have hold : a.graph.addEdge n u = a.graph := by
    refine Interference.addEdge_of_not_isNewEdge fun hnew => ?_
    rw [← h.interferes_iff, Interference.interferes_comm, hnew.2] at hmem
    cases hmem
  rw [takeOver, hold]

/-- An edge between different temporaries that are not neighbours is new. -/
theorem isNewEdge_of_not_mem (h : a.graph.Sound) (hn : n ≠ u) (hmem : n ∉ a.graph.neighbors u) :
    a.graph.IsNewEdge n u := by
  refine ⟨hn, ?_⟩
  rw [← Bool.not_eq_true, Interference.interferes_comm, h.interferes_iff]
  exact hmem

/-- Taking over a neighbour makes the two neighbours of each other, and nothing else. -/
theorem mem_neighbors_takeOver (h : a.graph.Sound) (hn : n ≠ u) (t x : Temp) :
    x ∈ (a.takeOver u n).graph.neighbors t ↔
      x ∈ a.graph.neighbors t ∨ (t = n ∧ x = u) ∨ (t = u ∧ x = n) := by
  unfold takeOver
  rw [neighbors_loseNeighbor, h.mem_neighbors_addEdge]
  simp [hn]

/-- If the neighbour has no edge to `u` yet, then it keeps its degree and `u` has
one neighbour more. Otherwise the two edges become one. -/
theorem degree_takeOver (h : a.graph.Sound) (hn : n ≠ u) (x : Temp) :
    (a.takeOver u n).graph.degree x =
      if x = u then a.graph.degree u + if n ∈ a.graph.neighbors u then 0 else 1
      else if x = n ∧ n ∈ a.graph.neighbors u then a.graph.degree n - 1
      else a.graph.degree x := by
  -- With an old edge only `n` loses something. A new edge raises both degrees before
  -- `n` loses its edge to what was merged.
  by_cases hmem : n ∈ a.graph.neighbors u
  · rw [takeOver_of_mem h hmem, degree_loseNeighbor]
    by_cases hx : x = n
    · subst hx
      simp [hn, hmem]
    · by_cases hxu : x = u
      · subst hxu
        simp [hx, hmem]
      · simp [hx, hxu]
  · unfold takeOver
    rw [degree_loseNeighbor]
    simp only [Interference.degree_addEdge_of_isNewEdge (isNewEdge_of_not_mem h hn hmem)]
    by_cases hx : x = n
    · subst hx
      simp [hn, hmem]
    · by_cases hxu : x = u
      · subst hxu
        simp [hx, hmem]
      · simp [hx, hxu]

/-- Only the neighbour that is taken over may get another status. -/
theorem status_takeOver_of_ne (a : Allocator) (hx : x ≠ n) :
    (a.takeOver u n).status x = a.status x :=
  status_loseNeighbor_of_ne _ hx

/-- Taking over a list of neighbours changes no status outside of it. -/
theorem status_foldl_takeOver (a : Allocator) (hx : x ∉ l) :
    (l.foldl (takeOver u) a).status x = a.status x := by
  induction l generalizing a with
  | nil => rfl
  | cons n l ih =>
      obtain ⟨hn, hl⟩ := not_or.mp (List.mem_cons.not.mp hx)
      rw [List.foldl_cons, ih _ hl, status_takeOver_of_ne a hn]

/-- Taking over a list of neighbours is housekeeping, apart from edges and degrees. -/
theorem Tidy.eases_foldl_takeOver (h : a.Tidy) (hu : u ∈ a.graph.nodes)
    (hl : ∀ n ∈ l, n ∈ a.graph.nodes) : Eases a (l.foldl (takeOver u) a) := by
  induction l generalizing a with
  | nil => exact Eases.refl h
  | cons n l ih =>
      have hfirst := h.eases_takeOver hu (hl n (by simp))
      refine hfirst.trans (ih hfirst.tidy (hfirst.nodes ▸ hu) fun m hm => ?_)
      rw [hfirst.nodes]
      exact hl m (by simp [hm])

/-- The graph stays sound when a neighbour is taken over. -/
theorem sound_takeOver (h : a.graph.Sound) (u n : Temp) : (a.takeOver u n).graph.Sound := by
  have hedge := h.addEdge n u
  unfold Allocator.takeOver loseNeighbor
  split
  · exact hedge
  · split
    · rw [graph_lighten, graph_wakeAround]
      exact hedge.of_eq rfl rfl
    · exact hedge.of_eq rfl rfl

/-- Taking over a list makes neighbours of `u` and each of its members, and of nothing else. -/
theorem mem_neighbors_foldl_takeOver (h : a.graph.Sound) (hl : u ∉ l) (t x : Temp) :
    x ∈ (l.foldl (takeOver u) a).graph.neighbors t ↔
      x ∈ a.graph.neighbors t ∨ (t = u ∧ x ∈ l) ∨ (x = u ∧ t ∈ l) := by
  induction l generalizing a with
  | nil => simp
  | cons n l ih =>
      obtain ⟨hn, hl⟩ := not_or.mp (List.mem_cons.not.mp hl)
      rw [List.foldl_cons, ih (sound_takeOver h u n) hl, mem_neighbors_takeOver h (Ne.symm hn),
        List.mem_cons, List.mem_cons]
      tauto

/-- A neighbour that was one of `u` already has one neighbour less; for each of
the others `u` has one more. -/
theorem degree_foldl_takeOver (h : a.graph.Sound) (hnodup : l.Nodup) (hl : u ∉ l) (x : Temp) :
    (l.foldl (takeOver u) a).graph.degree x =
      if x = u then a.graph.degree u + (l.filter fun n => n ∉ a.graph.neighbors u).length
      else if x ∈ l ∧ x ∈ a.graph.neighbors u then a.graph.degree x - 1
      else a.graph.degree x := by
  induction l generalizing a with
  | nil =>
      simp only [List.foldl_nil, List.filter_nil, List.length_nil, Nat.add_zero, List.not_mem_nil,
        false_and, if_false]
      split
      · next heq => rw [heq]
      · rfl
  | cons n l ih =>
      obtain ⟨hnl, hnodup⟩ := List.nodup_cons.mp hnodup
      obtain ⟨hn, hl⟩ := not_or.mp (List.mem_cons.not.mp hl)
      -- Taking over `n` changes nothing about the other members of the list.
      have hsame : ∀ m, m ≠ n →
          (m ∈ (a.takeOver u n).graph.neighbors u ↔ m ∈ a.graph.neighbors u) := by
        intro m hm
        rw [mem_neighbors_takeOver h (Ne.symm hn)]
        simp [hm, hn]
      have hfilter : (l.filter fun m => m ∉ (a.takeOver u n).graph.neighbors u)
          = l.filter fun m => m ∉ a.graph.neighbors u := by
        refine List.filter_congr fun m hm => ?_
        have hne : m ≠ n := fun heq => hnl (heq ▸ hm)
        simp [hsame m hne]
      rw [List.foldl_cons, ih (sound_takeOver h u n) hnodup hl, hfilter,
        degree_takeOver h (Ne.symm hn),
        degree_takeOver h (Ne.symm hn), if_pos rfl]
      by_cases hxu : x = u
      · rw [if_pos hxu, if_pos hxu, List.filter_cons]
        by_cases hmem : n ∈ a.graph.neighbors u
        · simp [hmem]
        · simp [hmem]
          omega
      · rw [if_neg hxu, if_neg hxu, if_neg hxu]
        by_cases hxn : x = n
        · subst hxn
          simp [hnl]
        · simp [hxn, hsame x hxn]

end TakeOver

/-! ### Statuses and degrees -/

/-- The status of a temporary fits its degree. A temporary that can be simplified
may also be one that was `forced` to be. -/
structure Graded (a : Allocator) (forced : Temp → Prop) (t : Temp) : Prop where
  spill : a.status t = .spill → a.registers ≤ a.graph.degree t
  freeze : a.status t = .freeze → a.graph.degree t < a.registers
  simplify : a.status t = .simplify → a.graph.degree t < a.registers ∨ forced t

namespace Graded

variable {b : Allocator} {forced : Temp → Prop}

/-- Whether a status fits depends on the registers, the status and the degree only. -/
theorem congr (h : a.Graded forced t) (hregisters : b.registers = a.registers)
    (hstatus : b.status t = a.status t) (hdegree : b.graph.degree t = a.graph.degree t) :
    b.Graded forced t := by
  refine ⟨?_, ?_, ?_⟩
  · rw [hstatus, hregisters, hdegree]
    exact h.spill
  · rw [hstatus, hregisters, hdegree]
    exact h.freeze
  · rw [hstatus, hregisters, hdegree]
    exact h.simplify

/-- More temporaries may have been forced. -/
theorem mono {forced' : Temp → Prop} (h : a.Graded forced t) (hforced : forced t → forced' t) :
    a.Graded forced' t :=
  ⟨h.spill, h.freeze, fun hs => (h.simplify hs).imp_right hforced⟩

/-- A temporary of low degree may have any of the two statuses for these. -/
theorem of_lt (hstatus : b.status t = .freeze ∨ b.status t = .simplify)
    (hdegree : b.graph.degree t < b.registers) : b.Graded forced t := by
  refine ⟨?_, fun _ => hdegree, fun _ => Or.inl hdegree⟩
  intro hspill
  rcases hstatus with hs | hs <;> rw [hspill] at hs <;> cases hs

/-- A lower degree fits the same status, unless it was the lowest that counts as high. -/
theorem lower (h : a.Graded forced t) (hregisters : b.registers = a.registers)
    (hstatus : b.status t = a.status t) (hdegree : b.graph.degree t = a.graph.degree t - 1)
    (hhigh : a.status t = .spill → a.graph.degree t = a.registers → a.graph.degree t = 0) :
    b.Graded forced t := by
  refine ⟨?_, ?_, ?_⟩
  · intro hspill
    rw [hstatus] at hspill
    -- The degree was above the number of registers, and it falls by one.
    have hle := h.spill hspill
    have hne := hhigh hspill
    omega
  · intro hfreeze
    have hlt := h.freeze (hstatus ▸ hfreeze)
    omega
  · intro hsimplify
    rcases h.simplify (hstatus ▸ hsimplify) with hlt | hforced
    · exact Or.inl (by omega)
    · exact Or.inr hforced

/-- Only a temporary of low degree is released, so its new status fits. -/
theorem release (h : a.Graded forced x) (t : Temp) : (a.release t).Graded forced x := by
  unfold Allocator.release
  split
  · next hguard =>
    simp only [Bool.and_eq_true, decide_eq_true_eq, Bool.not_eq_true'] at hguard
    by_cases hx : x = t
    · subst hx
      refine of_lt (Or.inr ?_) (h.freeze hguard.1.1)
      rw [status_place, if_pos rfl]
    · refine h.congr rfl ?_ rfl
      rw [status_place, if_neg (Ne.symm hx)]
  · exact h

/-- Giving up a move releases at most a temporary of low degree. -/
theorem freezeMove (h : a.Graded forced x) (root : Temp) (index : Nat) :
    (a.freezeMove root index).Graded forced x := by
  unfold Allocator.freezeMove
  split
  · exact h
  · next m _ =>
    have hfrozen : ∀ other,
        (((a.compress m.src).compress other).placeMove index .frozen).Graded forced x :=
      fun _ => h.congr rfl rfl rfl
    exact (hfrozen _).release _

/-- Giving up several moves keeps every status fitting. -/
theorem freezeMoves (h : a.Graded forced x) (t : Temp) : (a.freezeMoves t).Graded forced x := by
  have hfold : ∀ (root : Temp) (l : List Nat) (a : Allocator), a.Graded forced x →
      (l.foldl (Allocator.freezeMove root) a).Graded forced x := by
    intro root l
    induction l with
    | nil => exact fun a h => h
    | cons index l ih => exact fun a h => ih _ (h.freezeMove root index)
  exact hfold _ _ _ (h.congr rfl rfl rfl)

/-- A temporary whose degree drops below the limit gets a status for low degrees. -/
theorem loseNeighbor (ha : a.Tidy) (h : a.Graded forced x) (t : Temp) :
    (a.loseNeighbor t).Graded forced x := by
  have hregisters := (ha.eases_loseNeighbor t).registers
  have hdegree := degree_loseNeighbor a t x
  by_cases hx : x = t
  · subst hx
    rw [if_pos rfl] at hdegree
    rcases status_loseNeighbor_self a x with ⟨hstatus, hhigh⟩ | ⟨-, hhigh, hpos, hstatus⟩
    · exact h.lower hregisters hstatus hdegree hhigh
    · exact of_lt hstatus (by omega)
  · rw [if_neg hx] at hdegree
    exact h.congr hregisters (status_loseNeighbor_of_ne a hx) hdegree

/-- Losing several neighbours keeps every status fitting. -/
theorem foldl_loseNeighbor (ha : a.Tidy) (h : a.Graded forced x) (l : List Temp) :
    (l.foldl Allocator.loseNeighbor a).Graded forced x := by
  induction l generalizing a with
  | nil => exact h
  | cons t l ih => exact ih (ha.eases_loseNeighbor t).tidy (loseNeighbor ha h t)

/-- Taking over a neighbour keeps what the statuses say, except for `u` itself:
its degree may have become a high one. -/
theorem takeOver {n : Temp} (ha : a.Tidy) (h : a.Graded forced x) (hu : u ∈ a.graph.nodes)
    (hn : n ∈ a.graph.nodes) (hnu : n ≠ u) (hx : x ≠ u) : (a.takeOver u n).Graded forced x := by
  by_cases hmem : n ∈ a.graph.neighbors u
  · rw [takeOver_of_mem ha.sound hmem]
    exact loseNeighbor ha h n
  · have hregisters := (ha.eases_takeOver hu hn).registers
    have hdegree := degree_takeOver ha.sound hnu x
    rw [if_neg hx, if_neg fun hcon => hmem hcon.2] at hdegree
    refine h.congr hregisters ?_ hdegree
    by_cases hxn : x = n
    · subst hxn
      -- With the new edge its degree is one higher, so it is not the lowest high one.
      have hedge := Interference.degree_addEdge_of_isNewEdge
        (isNewEdge_of_not_mem ha.sound hnu hmem) x
      rw [if_pos (Or.inl rfl)] at hedge
      rcases status_loseNeighbor_self { a with graph := a.graph.addEdge x u } x with
        ⟨hstatus, -⟩ | ⟨hspill, hhigh, -, -⟩
      · exact hstatus
      · have hle := h.spill hspill
        simp only [hedge] at hhigh
        omega
    · exact status_takeOver_of_ne a hxn

/-- Taking over several neighbours keeps the status of any temporary but `u` fitting. -/
theorem foldl_takeOver {l : List Temp} (ha : a.Tidy) (h : a.Graded forced x)
    (hu : u ∈ a.graph.nodes) (hl : ∀ n ∈ l, n ∈ a.graph.nodes ∧ n ≠ u) (hx : x ≠ u) :
    (l.foldl (Allocator.takeOver u) a).Graded forced x := by
  induction l generalizing a with
  | nil => exact h
  | cons n l ih =>
      obtain ⟨hn, hnu⟩ := hl n (by simp)
      have hfirst := ha.eases_takeOver hu hn
      refine ih hfirst.tidy (takeOver ha h hu hn hnu hx) (hfirst.nodes ▸ hu) fun m hm => ?_
      rw [hfirst.nodes]
      exact hl m (by simp [hm])

/-- After a last look at it, the status of `u` fits its degree again. -/
theorem burden (hstatus : a.status t = .freeze ∨ a.status t = .spill)
    (hspill : a.status t = .spill → a.registers ≤ a.graph.degree t) :
    (a.burden t).Graded forced t := by
  unfold Allocator.burden
  split
  · next hguard =>
    rw [Bool.and_eq_true, isSignificant, decide_eq_true_eq] at hguard
    have hnew : (a.place t .spill).status t = .spill := by rw [status_place, if_pos rfl]
    refine ⟨fun _ => hguard.1, fun hs => ?_, fun hs => ?_⟩
    · rw [hnew] at hs
      cases hs
    · rw [hnew] at hs
      cases hs
  · next hguard =>
    simp only [isSignificant, Bool.and_eq_true, decide_eq_true_eq, not_and] at hguard
    refine ⟨hspill, fun hs => ?_, fun hs => ?_⟩
    · by_contra hlt
      exact hguard (by omega) hs
    · rcases hstatus with h | h <;> rw [hs] at h <;> cases h

end Graded

end Allocator

end MmixCodegen
