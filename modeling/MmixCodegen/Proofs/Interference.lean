import MmixCodegen.Interference
import MmixCodegen.Proofs.TempSet
import Mathlib.Algebra.BigOperators.Group.Finset.Basic
import Mathlib.Algebra.BigOperators.Group.Finset.Piecewise

/-!
# `MmixCodegen.Proofs.Interference`: what an interference graph says

A graph keeps its edges twice: as a set of pairs, and as a list of neighbours
per temporary. `Interference.Sound` says that the two agree. Edges are only ever
added by `addEdge`, which keeps a graph sound (`Sound.addEdge`), and
`Sound.mem_neighbors_addEdge` says which neighbours it adds.

For the graph that is built from some routines the theorems are:

* `sound_ofRoutines`: it is sound;
* `interferes_ofRoutines`: two temporaries interfere exactly if they are
  different and some instruction keeps them apart, where `Instr.KeepsApart`
  spells out the three reasons for that;
* `degree_ofRoutines`: degrees count neighbours;
* `mem_nodes_ofRoutines`: its nodes are the temporaries that are mentioned;
* `closed_ofRoutines`: neighbours and the ends of moves are nodes.
-/

set_option autoImplicit false

namespace MmixCodegen

open scoped BigOperators

namespace Edge

/-- It does not matter which end of an edge is named first. -/
theorem between_comm (u v : Temp) : between u v = between v u := by
  unfold between
  by_cases huv : u.number < v.number
  · rw [if_pos huv, if_neg (by omega)]
  · by_cases hvu : v.number < u.number
    · rw [if_neg huv, if_pos hvu]
    · have heq : u = v := Temp.ext (by omega)
      rw [heq]

/-- An edge determines its ends up to their order. -/
theorem between_eq_between {u v x y : Temp} :
    between u v = between x y ↔ (u = x ∧ v = y) ∨ (u = y ∧ v = x) := by
  constructor
  · intro h
    unfold between at h
    split at h <;> split at h <;> rw [Edge.mk.injEq] at h
    · exact Or.inl h
    · exact Or.inr h
    · exact Or.inr h.symm
    · exact Or.inl h.symm
  · rintro (⟨rfl, rfl⟩ | ⟨rfl, rfl⟩)
    · rfl
    · exact between_comm _ _

end Edge

namespace MoveSet

/-- An insertion adds the move and nothing else. -/
theorem mem_insert_iff {s : MoveSet} {i j : Nat} : j ∈ s.insert i ↔ j = i ∨ j ∈ s := by
  simp [eq_comm (a := j)]

end MoveSet

namespace Interference

/-- The set of edges and the lists of neighbours say the same, no temporary
interferes with itself, and each edge is listed once at each of its ends. -/
structure Sound (g : Interference) : Prop where
  interferes_iff : ∀ u v, g.interferes u v = true ↔ v ∈ g.neighbors u
  irrefl : ∀ u, u ∉ g.neighbors u
  ordered : ∀ e ∈ g.edges, e = .between e.low e.high
  listed_eq : g.listed = 2 * g.edges.size

/-- Interference does not depend on the order of the two temporaries. -/
theorem interferes_comm (g : Interference) (u v : Temp) : g.interferes u v = g.interferes v u := by
  rw [interferes, interferes, Edge.between_comm]

/-- Neighbours list each other. -/
theorem Sound.symm {g : Interference} (h : g.Sound) {u v : Temp} (huv : v ∈ g.neighbors u) :
    u ∈ g.neighbors v := by
  rw [← h.interferes_iff, interferes_comm, h.interferes_iff]
  exact huv

/-- The neighbours that are listed for all temporaries, counted over any finite
set that contains every temporary with neighbours. -/
theorem listed_eq_sum (g : Interference) (ts : Finset Temp)
    (hts : ∀ t, t ∉ ts → g.neighbors t = ∅) :
    g.listed = ∑ t ∈ ts, (g.neighbors t).size := by
  -- A pair of the adjacency map is a temporary together with its neighbours.
  have hpairs : (g.adjacency.toList.map fun p => p.2.size)
      = g.adjacency.keys.map fun t => (g.neighbors t).size := by
    rw [← Std.ExtTreeMap.map_fst_toList_eq_keys, List.map_map]
    refine List.map_congr_left ?_
    rintro ⟨t, ns⟩ hmem
    have hget := Std.ExtTreeMap.mem_toList_iff_getElem?_eq_some.mp hmem
    simp [neighbors, Std.ExtTreeMap.getD_eq_getD_getElem?, hget]
  have hnodup : g.adjacency.keys.Nodup := by
    refine (Std.ExtTreeMap.distinct_keys (t := g.adjacency)).imp ?_
    intro a b hne hab
    exact hne (hab ▸ Std.ReflCmp.compare_self)
  have hkeys : g.listed = ∑ t ∈ g.adjacency.keys.toFinset, (g.neighbors t).size := by
    rw [List.sum_toFinset _ hnodup, ← hpairs]
    rfl
  rw [hkeys]
  -- Temporaries without an entry have no neighbours, so both sums are over the
  -- union of the two sets.
  have hzero : ∀ t, t ∉ g.adjacency.keys.toFinset → (g.neighbors t).size = 0 := by
    intro t ht
    rw [List.mem_toFinset, Std.ExtTreeMap.mem_keys] at ht
    have hnone := Std.ExtTreeMap.getElem?_eq_none ht
    simp [neighbors, Std.ExtTreeMap.getD_eq_getD_getElem?, hnone]
  have hleft : ∑ t ∈ g.adjacency.keys.toFinset, (g.neighbors t).size
      = ∑ t ∈ g.adjacency.keys.toFinset ∪ ts, (g.neighbors t).size :=
    Finset.sum_subset Finset.subset_union_left fun t _ ht => hzero t ht
  have hright : ∑ t ∈ ts, (g.neighbors t).size
      = ∑ t ∈ g.adjacency.keys.toFinset ∪ ts, (g.neighbors t).size :=
    Finset.sum_subset Finset.subset_union_right fun t _ ht => by
      rw [hts t ht]
      exact Std.ExtTreeSet.size_empty
  rw [hleft, hright]

/-! ### Adding an edge -/

/-- An edge that is really added. -/
def IsNewEdge (g : Interference) (u v : Temp) : Prop :=
  u ≠ v ∧ g.interferes u v = false

/-- An edge to itself or one that is there already changes nothing. -/
theorem addEdge_of_not_isNewEdge {g : Interference} {u v : Temp} (h : ¬g.IsNewEdge u v) :
    g.addEdge u v = g := by
  unfold addEdge
  rw [if_pos]
  by_cases huv : u = v
  · simp [huv]
  · have hint : g.interferes u v = true := by
      by_contra hne
      exact h ⟨huv, by simpa using hne⟩
    simp [hint]

/-- A new edge is entered once in the set, and counted and listed at both of its ends. -/
theorem addEdge_of_isNewEdge {g : Interference} {u v : Temp} (h : g.IsNewEdge u v) :
    g.addEdge u v =
      { g with
        edges := g.edges.insert (.between u v)
        adjacency := (g.adjacency.insert u ((g.neighbors u).insert v)).insert v
          ((g.neighbors v).insert u)
        degrees := (g.degrees.insert u (g.degree u + 1)).insert v (g.degree v + 1) } := by
  unfold addEdge
  rw [if_neg]
  simp [h.1, h.2]

/-- Adding an edge changes nothing but edges, neighbours and degrees. -/
@[simp]
theorem nodes_addEdge (g : Interference) (u v : Temp) : (g.addEdge u v).nodes = g.nodes := by
  unfold addEdge
  split <;> rfl

/-- An edge leaves the moves as they are. -/
@[simp]
theorem moves_addEdge (g : Interference) (u v : Temp) : (g.addEdge u v).moves = g.moves := by
  unfold addEdge
  split <;> rfl

/-- An edge leaves alone which moves a temporary takes part in. -/
@[simp]
theorem moveIndex_addEdge (g : Interference) (u v : Temp) :
    (g.addEdge u v).moveIndex = g.moveIndex := by
  unfold addEdge
  split <;> rfl

/-- An edge leaves the weights as they are. -/
@[simp]
theorem weights_addEdge (g : Interference) (u v : Temp) : (g.addEdge u v).weights = g.weights := by
  unfold addEdge
  split <;> rfl

/-- The neighbours of a temporary after a new edge. -/
theorem neighbors_addEdge_of_isNewEdge {g : Interference} {u v : Temp} (h : g.IsNewEdge u v)
    (t : Temp) :
    (g.addEdge u v).neighbors t =
      if t = v then (g.neighbors v).insert u
      else if t = u then (g.neighbors u).insert v
      else g.neighbors t := by
  rw [addEdge_of_isNewEdge h]
  simp only [neighbors, Std.ExtTreeMap.getD_insert, Std.LawfulEqCmp.compare_eq_iff_eq]
  simp only [eq_comm (b := t)]

/-- The degrees after a new edge: those of its ends go up by one. -/
theorem degree_addEdge_of_isNewEdge {g : Interference} {u v : Temp} (h : g.IsNewEdge u v)
    (t : Temp) :
    (g.addEdge u v).degree t = g.degree t + if t = u ∨ t = v then 1 else 0 := by
  rw [addEdge_of_isNewEdge h]
  simp only [degree, Std.ExtTreeMap.getD_insert, Std.LawfulEqCmp.compare_eq_iff_eq]
  by_cases hv : v = t
  · subst hv
    simp
  · by_cases hu : u = t
    · subst hu
      simp [hv]
    · simp [hu, hv, Ne.symm hu, Ne.symm hv]

/-- Adding an edge between `u` and `v` makes them neighbours, unless they are the
same, and adds nothing else. -/
theorem Sound.mem_neighbors_addEdge {g : Interference} (hg : g.Sound) (u v t x : Temp) :
    x ∈ (g.addEdge u v).neighbors t ↔
      x ∈ g.neighbors t ∨ (u ≠ v ∧ ((t = u ∧ x = v) ∨ (t = v ∧ x = u))) := by
  by_cases hnew : g.IsNewEdge u v
  · rw [neighbors_addEdge_of_isNewEdge hnew]
    have huv := hnew.1
    by_cases htv : t = v
    · subst htv
      rw [if_pos rfl, TempSet.mem_insert_iff]
      simp [huv, Ne.symm huv, or_comm]
    · by_cases htu : t = u
      · subst htu
        rw [if_neg htv, if_pos rfl, TempSet.mem_insert_iff]
        simp [htv, or_comm]
      · simp [htv, htu]
  -- An edge that is not new is there already, or has one end only.
  · rw [addEdge_of_not_isNewEdge hnew]
    constructor
    · exact Or.inl
    · rintro (h | ⟨huv, h⟩)
      · exact h
      · have hint : g.interferes u v = true := by
          by_contra hne
          exact hnew ⟨huv, by simpa using hne⟩
        have hmem := (hg.interferes_iff u v).mp hint
        rcases h with ⟨rfl, rfl⟩ | ⟨rfl, rfl⟩
        · exact hmem
        · exact hg.symm hmem

/-- The ends of a new edge were no neighbours. -/
theorem Sound.not_mem_of_isNewEdge {g : Interference} (hg : g.Sound) {u v : Temp}
    (hnew : g.IsNewEdge u v) : v ∉ g.neighbors u ∧ u ∉ g.neighbors v := by
  have hv : v ∉ g.neighbors u := by
    rw [← hg.interferes_iff, hnew.2]
    exact Bool.false_ne_true
  exact ⟨hv, fun h => hv (hg.symm h)⟩

/-- All but finitely many temporaries have no neighbours. -/
theorem exists_support (g : Interference) (u v : Temp) :
    ∃ ts : Finset Temp, u ∈ ts ∧ v ∈ ts ∧ ∀ t, t ∉ ts → g.neighbors t = ∅ := by
  refine ⟨g.adjacency.keys.toFinset ∪ {u, v}, by simp, by simp, fun t ht => ?_⟩
  have hkey : t ∉ g.adjacency := by
    intro hmem
    exact ht (by simp [hmem])
  simp [neighbors, Std.ExtTreeMap.getD_eq_getD_getElem?, Std.ExtTreeMap.getElem?_eq_none hkey]

/-- A new edge is listed at both of its ends, so two more neighbours are listed. -/
theorem Sound.listed_addEdge {g : Interference} (hg : g.Sound) {u v : Temp}
    (hnew : g.IsNewEdge u v) : (g.addEdge u v).listed = g.listed + 2 := by
  have hne := hnew.1
  obtain ⟨hv, hu⟩ := hg.not_mem_of_isNewEdge hnew
  -- Both sums run over the temporaries that have an entry now or have one after.
  obtain ⟨ts, huts, hvts, hold⟩ := exists_support g u v
  have hts : ∀ t, t ∉ ts → (g.addEdge u v).neighbors t = ∅ := by
    intro t ht
    have htu : t ≠ u := fun h => ht (h ▸ huts)
    have htv : t ≠ v := fun h => ht (h ▸ hvts)
    rw [neighbors_addEdge_of_isNewEdge hnew, if_neg htv, if_neg htu]
    exact hold t ht
  rw [listed_eq_sum _ ts hts, listed_eq_sum g ts hold]
  have hsize : ∀ t ∈ ts, ((g.addEdge u v).neighbors t).size
      = (g.neighbors t).size + ((if t = u then 1 else 0) + if t = v then 1 else 0) := by
    intro t _
    rw [neighbors_addEdge_of_isNewEdge hnew]
    by_cases htv : t = v
    · subst htv
      simp [Std.ExtTreeSet.size_insert, hu, Ne.symm hne]
    · by_cases htu : t = u
      · subst htu
        simp [Std.ExtTreeSet.size_insert, hv, hne]
      · simp [htu, htv]
  rw [Finset.sum_congr rfl hsize, Finset.sum_add_distrib, Finset.sum_add_distrib,
    Finset.sum_ite_eq', Finset.sum_ite_eq', if_pos huts, if_pos hvts]

/-- Adding an edge keeps a graph sound. -/
theorem Sound.addEdge {g : Interference} (hg : g.Sound) (u v : Temp) : (g.addEdge u v).Sound := by
  by_cases hnew : g.IsNewEdge u v
  · have hedges : (g.addEdge u v).edges = g.edges.insert (.between u v) := by
      rw [addEdge_of_isNewEdge hnew]
    refine ⟨?_, ?_, ?_, ?_⟩
    · intro x y
      rw [hg.mem_neighbors_addEdge, ← hg.interferes_iff]
      unfold interferes
      rw [hedges, Std.ExtTreeSet.contains_insert]
      simp only [Bool.or_eq_true, beq_iff_eq, Std.LawfulEqCmp.compare_eq_iff_eq,
        Edge.between_eq_between]
      have hne := hnew.1
      constructor
      · rintro ((⟨rfl, rfl⟩ | ⟨rfl, rfl⟩) | h)
        · exact Or.inr ⟨hne, Or.inl ⟨rfl, rfl⟩⟩
        · exact Or.inr ⟨hne, Or.inr ⟨rfl, rfl⟩⟩
        · exact Or.inl h
      · rintro (h | ⟨-, ⟨rfl, rfl⟩ | ⟨rfl, rfl⟩⟩)
        · exact Or.inr h
        · exact Or.inl (Or.inl ⟨rfl, rfl⟩)
        · exact Or.inl (Or.inr ⟨rfl, rfl⟩)
    · intro t ht
      rw [hg.mem_neighbors_addEdge] at ht
      rcases ht with h | ⟨hne, ⟨rfl, h⟩ | ⟨rfl, h⟩⟩
      · exact hg.irrefl t h
      · exact hne h
      · exact hne h.symm
    · intro e he
      rw [hedges, Std.ExtTreeSet.mem_insert, Std.LawfulEqCmp.compare_eq_iff_eq] at he
      rcases he with rfl | he
      · unfold Edge.between
        split
        · simp
        · next h =>
          have hne : u.number ≠ v.number := fun heq => hnew.1 (Temp.ext heq)
          rw [if_pos (by show v.number < u.number; omega)]
      · exact hg.ordered e he
    -- Two more neighbours are listed, for one more edge.
    · have hcontains : g.edges.contains (.between u v) = false := hnew.2
      rw [hg.listed_addEdge hnew, hg.listed_eq, hedges, Std.ExtTreeSet.size_insert, hcontains]
      simp only [Bool.false_eq_true, if_false]
      omega
  · rw [addEdge_of_not_isNewEdge hnew]
    exact hg

/-! ### Adding many edges -/

/-- Degrees count neighbours. This holds of a graph as it is built; an
allocation lowers degrees while the edges stay. -/
def Tallied (g : Interference) : Prop :=
  ∀ t, g.degree t = (g.neighbors t).size

/-- `g'` is `g` with edges between the different temporaries that `r` relates. -/
structure Grows (g : Interference) (r : Temp → Temp → Prop) (g' : Interference) : Prop where
  sound : g'.Sound
  mem_neighbors : ∀ t x, x ∈ g'.neighbors t ↔ x ∈ g.neighbors t ∨ (t ≠ x ∧ (r t x ∨ r x t))
  nodes : g'.nodes = g.nodes
  moves : g'.moves = g.moves
  moveIndex : g'.moveIndex = g.moveIndex
  tallied : g.Tallied → g'.Tallied

namespace Grows

variable {g g' g'' : Interference} {r r' : Temp → Temp → Prop}

/-- A sound graph grows into itself by no edge at all. -/
theorem refl (hg : g.Sound) : Grows g (fun _ _ => False) g :=
  ⟨hg, by simp, rfl, rfl, rfl, id⟩

/-- Growing twice adds the edges of both relations. -/
theorem trans (h : Grows g r g') (h' : Grows g' r' g'') :
    Grows g (fun u v => r u v ∨ r' u v) g'' := by
  refine ⟨h'.sound, ?_, h'.nodes.trans h.nodes, h'.moves.trans h.moves,
    h'.moveIndex.trans h.moveIndex, fun ht => h'.tallied (h.tallied ht)⟩
  intro t x
  rw [h'.mem_neighbors, h.mem_neighbors]
  tauto

/-- Only which temporaries are related matters. -/
theorem congr (h : Grows g r g') (heq : ∀ u v, r u v ↔ r' u v) : Grows g r' g' := by
  refine ⟨h.sound, ?_, h.nodes, h.moves, h.moveIndex, h.tallied⟩
  intro t x
  rw [h.mem_neighbors, heq, heq]

/-- One edge. -/
theorem addEdge (hg : g.Sound) (u v : Temp) :
    Grows g (fun x y => x = u ∧ y = v) (g.addEdge u v) := by
  refine ⟨hg.addEdge u v, ?_, by simp, by simp, by simp, ?_⟩
  · intro t x
    rw [hg.mem_neighbors_addEdge]
    constructor
    · rintro (h | ⟨hne, ⟨rfl, rfl⟩ | ⟨rfl, rfl⟩⟩)
      · exact Or.inl h
      · exact Or.inr ⟨hne, Or.inl ⟨rfl, rfl⟩⟩
      · exact Or.inr ⟨Ne.symm hne, Or.inr ⟨rfl, rfl⟩⟩
    · rintro (h | ⟨hne, ⟨rfl, rfl⟩ | ⟨rfl, rfl⟩⟩)
      · exact Or.inl h
      · exact Or.inr ⟨hne, Or.inl ⟨rfl, rfl⟩⟩
      · exact Or.inr ⟨Ne.symm hne, Or.inr ⟨rfl, rfl⟩⟩
  · intro htally t
    -- Both ends of a new edge gain one neighbor they did not have, and one degree.
    by_cases hnew : g.IsNewEdge u v
    · obtain ⟨hv, hu⟩ := hg.not_mem_of_isNewEdge hnew
      rw [degree_addEdge_of_isNewEdge hnew, neighbors_addEdge_of_isNewEdge hnew, htally]
      by_cases htv : t = v
      · subst htv
        simp [Std.ExtTreeSet.size_insert, hu]
      · by_cases htu : t = u
        · subst htu
          simp [Std.ExtTreeSet.size_insert, hv, htv]
        · simp [htu, htv]
    · rw [addEdge_of_not_isNewEdge hnew]
      exact htally t

/-- The edges of several steps. -/
theorem foldl {α : Type} {f : Interference → α → Interference} {s : α → Temp → Temp → Prop}
    (hf : ∀ g a, g.Sound → Grows g (s a) (f g a)) (hg : g.Sound) (l : List α) :
    Grows g (fun u v => ∃ a ∈ l, s a u v) (l.foldl f g) := by
  induction l generalizing g with
  | nil => exact (refl hg).congr (by simp)
  | cons a l ih =>
      have hfirst := hf g a hg
      exact (hfirst.trans (ih hfirst.sound)).congr (by simp)

/-- The edges of a clique. -/
theorem addClique (hg : g.Sound) (ts : List Temp) :
    Grows g (fun u v => u ∈ ts ∧ v ∈ ts) (g.addClique ts) := by
  induction ts generalizing g with
  | nil => exact (refl hg).congr (by simp)
  | cons t ts ih =>
      -- First a star from `t` to the rest, then the clique of the rest.
      have hstar : Grows g (fun x y => ∃ u ∈ ts, x = t ∧ y = u)
          (ts.foldl (fun g u => g.addEdge t u) g) :=
        foldl (fun g u hg => addEdge hg t u) hg ts
      have hall := hstar.trans (ih hstar.sound)
      refine ⟨hall.sound, ?_, hall.nodes, hall.moves, hall.moveIndex, hall.tallied⟩
      intro x y
      show y ∈ (Interference.addClique (ts.foldl (fun g u => g.addEdge t u) g) ts).neighbors x ↔ _
      rw [hall.mem_neighbors]
      simp only [List.mem_cons]
      grind

/-- The edges from written temporaries to those that stay live. -/
theorem addDefs (hg : g.Sound) (defs live : List Temp) :
    Grows g (fun u v => u ∈ defs ∧ v ∈ live) (g.addDefs defs live) := by
  have hrow : ∀ (g : Interference) (d : Temp), g.Sound →
      Grows g (fun u v => ∃ t ∈ live, u = d ∧ v = t) (live.foldl (fun g t => g.addEdge d t) g) :=
    fun g d hg => foldl (fun g t hg => addEdge hg d t) hg live
  exact (foldl hrow hg defs).congr (by grind)

end Grows

end Interference

/-! ### The graph of an instruction -/

namespace Instr

/-- Writing `u` would destroy `v`, which stays live. A copy does not destroy its
own source: both then hold the same value. -/
def Endangers (i : Instr) (u v : Temp) : Prop :=
  u ∈ i.defs ∧ v ∈ i.live.after ∧ i.movePair?.map Prod.snd ≠ some v

/-- The two temporaries must not share a register on account of an instruction. -/
def KeepsApart (i : Instr) (u v : Temp) : Prop :=
  (u ∈ i.live.before ∧ v ∈ i.live.before) ∨ (u ∈ i.live.after ∧ v ∈ i.live.after) ∨
    i.Endangers u v ∨ i.Endangers v u

/-- An instruction mentions what it reads, what it writes and what is live around it. -/
theorem mem_temps {i : Instr} {t : Temp} :
    t ∈ i.temps ↔ t ∈ i.uses ∨ t ∈ i.defs ∨ t ∈ i.live.before ∨ t ∈ i.live.after := by
  simp [temps, operands]

/-- An instruction keeps only temporaries apart that it mentions. -/
theorem KeepsApart.mem_temps {i : Instr} {u v : Temp} (h : i.KeepsApart u v) :
    u ∈ i.temps ∧ v ∈ i.temps := by
  rw [Instr.mem_temps, Instr.mem_temps]
  unfold KeepsApart Endangers at h
  tauto

/-- A copy writes its destination and reads its source. -/
theorem mem_defs_of_movePair? {i : Instr} {dst src : Temp} (h : i.movePair? = some (dst, src)) :
    dst ∈ i.defs ∧ src ∈ i.uses := by
  unfold movePair? at h
  split at h
  · cases h
  · next hkind =>
    cases h
    simp [defs, uses, hkind]
  · cases h

end Instr

namespace Interference

/-- Soundness depends on the edges and the lists of neighbours alone. -/
theorem Sound.of_eq {g g' : Interference} (h : g.Sound) (hedges : g'.edges = g.edges)
    (hadj : g'.adjacency = g.adjacency) : g'.Sound := by
  obtain ⟨nodes, edges, adjacency, degrees, moves, moveIndex, weights⟩ := g'
  dsimp only at hedges hadj
  subst hedges hadj
  exact ⟨h.interferes_iff, h.irrefl, h.ordered, h.listed_eq⟩

/-- Adding temporaries changes the nodes of a graph only. -/
theorem foldl_addNode_eq (g : Interference) (ts : List Temp) :
    ts.foldl addNode g = { g with nodes := ts.foldl (fun s t => s.insert t) g.nodes } := by
  induction ts generalizing g with
  | nil => rfl
  | cons t ts ih => exact ih (g.addNode t)

/-- Inserting a list adds its members and nothing else. -/
theorem mem_foldl_insert {ts : List Temp} {s : TempSet} {t : Temp} :
    t ∈ ts.foldl (fun s t => s.insert t) s ↔ t ∈ s ∨ t ∈ ts := by
  induction ts generalizing s with
  | nil => simp
  | cons u ts ih =>
      rw [List.foldl_cons, ih, TempSet.mem_insert_iff, List.mem_cons]
      tauto

/-- Counting live sets changes the weights of a graph only. -/
theorem foldl_addWeight_eq (g : Interference) (ts : List Temp) :
    ∃ weights, ts.foldl addWeight g = { g with weights } := by
  induction ts generalizing g with
  | nil => exact ⟨g.weights, rfl⟩
  | cons t ts ih =>
      obtain ⟨weights, h⟩ := ih (g.addWeight t)
      exact ⟨weights, h⟩

/-- The moves of a temporary after a copy was added. -/
theorem mem_movesOf_addMove (g : Interference) (dst src t : Temp) (index : Nat) :
    index ∈ (g.addMove dst src).movesOf t ↔
      index ∈ g.movesOf t ∨ (index = g.moves.size ∧ (dst = t ∨ src = t)) := by
  simp only [addMove, movesOf, Std.ExtTreeMap.getD_insert, Std.LawfulEqCmp.compare_eq_iff_eq]
  by_cases hsrc : src = t
  · subst hsrc
    by_cases hdst : dst = src
    · subst hdst
      simp only [if_true, MoveSet.mem_insert_iff]
      tauto
    · simp only [if_true, if_neg hdst, MoveSet.mem_insert_iff]
      tauto
  · by_cases hdst : dst = t
    · subst hdst
      simp only [if_true, if_neg hsrc, MoveSet.mem_insert_iff]
      tauto
    · simp [hsrc, hdst]

/-- Each move is known to its ends, and to nobody else. -/
def Indexed (g : Interference) : Prop :=
  ∀ t index, index ∈ g.movesOf t ↔
    ∃ m : Move, g.moves[index]? = some m ∧ (m.dst = t ∨ m.src = t)

/-- Neighbours and the ends of moves are nodes. -/
structure Closed (g : Interference) : Prop where
  neighbors_subset : ∀ t x, x ∈ g.neighbors t → x ∈ g.nodes
  ends_mem : ∀ (index : Nat) (m : Move), g.moves[index]? = some m → m.dst ∈ g.nodes ∧
    m.src ∈ g.nodes

/-- The conflicts of an instruction are added to the edges. -/
theorem Grows.addConflicts {g : Interference} (hg : g.Sound) (i : Instr) :
    Grows (i.temps.foldl addNode g) i.KeepsApart (g.addConflicts i) := by
  have hnodes : (i.temps.foldl addNode g).Sound := by
    rw [foldl_addNode_eq]
    exact hg.of_eq rfl rfl
  have hbefore := Grows.addClique hnodes i.live.before.toList
  have hafter := Grows.addClique hbefore.sound i.live.after.toList
  have hdefs := Grows.addDefs hafter.sound i.defs
    (i.live.after.toList.filter fun t => some t ≠ i.movePair?.map Prod.snd)
  -- Three kinds of edges, in the order in which `Instr.KeepsApart` lists them.
  have hall := (hbefore.trans hafter).trans hdefs
  refine ⟨hall.sound, ?_, hall.nodes, hall.moves, hall.moveIndex, hall.tallied⟩
  intro t x
  rw [Interference.addConflicts, hall.mem_neighbors]
  simp only [Std.ExtTreeSet.mem_toList, List.mem_filter, decide_eq_true_eq, Instr.KeepsApart,
    Instr.Endangers, ne_eq, eq_comm (a := some _)]
  refine or_congr_right (and_congr_right fun _ => ⟨?_, ?_⟩)
  · rintro (((h | h) | h) | ((h | h) | h))
    · exact Or.inl (Or.inl h)
    · exact Or.inl (Or.inr (Or.inl h))
    · exact Or.inl (Or.inr (Or.inr (Or.inl h)))
    · exact Or.inr (Or.inl h)
    · exact Or.inr (Or.inr (Or.inl h))
    · exact Or.inr (Or.inr (Or.inr (Or.inl h)))
  · rintro ((h | h | h | h) | (h | h | h | h))
    · exact Or.inl (Or.inl (Or.inl h))
    · exact Or.inl (Or.inl (Or.inr h))
    · exact Or.inl (Or.inr h)
    · exact Or.inr (Or.inr h)
    · exact Or.inr (Or.inl (Or.inl h))
    · exact Or.inr (Or.inl (Or.inr h))
    · exact Or.inr (Or.inr h)
    · exact Or.inl (Or.inr h)

/-- An instruction adds its moves after its conflicts, and then only weights. -/
theorem addInstr_eq (g : Interference) (i : Instr) :
    ∃ weights, g.addInstr i = { (g.addConflicts i).addCopy i with weights } :=
  foldl_addWeight_eq _ _

/-- Adding a copy concerns only moves. -/
theorem addCopy_eq (g : Interference) (i : Instr) :
    g.addCopy i =
      { g with moves := (g.addCopy i).moves, moveIndex := (g.addCopy i).moveIndex } := by
  unfold addCopy
  split <;> rfl

/-- An instruction keeps a graph sound. -/
theorem sound_addInstr {g : Interference} (hg : g.Sound) (i : Instr) : (g.addInstr i).Sound := by
  obtain ⟨weights, h⟩ := addInstr_eq g i
  rw [h, addCopy_eq]
  exact (Grows.addConflicts hg i).sound.of_eq rfl rfl

/-- Only the conflicts of an instruction make neighbours, neither its copy nor its weights do. -/
theorem neighbors_addInstr (g : Interference) (i : Instr) (t : Temp) :
    (g.addInstr i).neighbors t = (g.addConflicts i).neighbors t := by
  obtain ⟨weights, h⟩ := addInstr_eq g i
  rw [h, addCopy_eq]
  rfl

/-- An instruction adds edges between the temporaries that it keeps apart. -/
theorem mem_neighbors_addInstr {g : Interference} (hg : g.Sound) (i : Instr) (t x : Temp) :
    x ∈ (g.addInstr i).neighbors t ↔ x ∈ g.neighbors t ∨ (t ≠ x ∧ i.KeepsApart t x) := by
  have hsymm : i.KeepsApart x t ↔ i.KeepsApart t x := by
    unfold Instr.KeepsApart
    tauto
  rw [neighbors_addInstr, (Grows.addConflicts hg i).mem_neighbors, foldl_addNode_eq, hsymm, or_self]
  rfl

/-- An instruction adds the temporaries that it mentions. -/
theorem mem_nodes_addInstr {g : Interference} (hg : g.Sound) (i : Instr) (t : Temp) :
    t ∈ (g.addInstr i).nodes ↔ t ∈ g.nodes ∨ t ∈ i.temps := by
  have hnodes : (g.addInstr i).nodes = (g.addConflicts i).nodes := by
    obtain ⟨weights, h⟩ := addInstr_eq g i
    rw [h, addCopy_eq]
  rw [hnodes, (Grows.addConflicts hg i).nodes, foldl_addNode_eq]
  exact mem_foldl_insert

/-- An instruction keeps degrees equal to numbers of neighbours. -/
theorem tallied_addInstr {g : Interference} (hg : g.Sound) (htally : g.Tallied) (i : Instr) :
    (g.addInstr i).Tallied := by
  have hconflicts : (g.addConflicts i).Tallied := by
    refine (Grows.addConflicts hg i).tallied ?_
    rw [foldl_addNode_eq]
    exact htally
  obtain ⟨weights, h⟩ := addInstr_eq g i
  rw [h, addCopy_eq]
  exact hconflicts

/-- The moves after an instruction: a copy is added at the end. -/
theorem moves_addInstr {g : Interference} (hg : g.Sound) (i : Instr) :
    (g.addInstr i).moves = (g.addCopy i).moves ∧
      ∀ t, (g.addInstr i).movesOf t = (g.addCopy i).movesOf t := by
  have hgrows := Grows.addConflicts hg i
  have hmoves : (g.addConflicts i).moves = g.moves := by
    rw [hgrows.moves, foldl_addNode_eq]
  have hindex : (g.addConflicts i).moveIndex = g.moveIndex := by
    rw [hgrows.moveIndex, foldl_addNode_eq]
  obtain ⟨weights, h⟩ := addInstr_eq g i
  rw [h]
  unfold addCopy
  cases i.movePair? with
  | none => exact ⟨hmoves, fun t => by simp only [movesOf, hindex]⟩
  | some p => exact ⟨by simp only [addMove, hmoves], fun t => by
      simp only [addMove, movesOf, hmoves, hindex]⟩

/-- An instruction keeps moves known to their ends and to nobody else. -/
theorem indexed_addInstr {g : Interference} (hg : g.Sound) (hidx : g.Indexed) (i : Instr) :
    (g.addInstr i).Indexed := by
  intro t index
  obtain ⟨hmoves, hof⟩ := moves_addInstr hg i
  rw [hmoves, hof]
  unfold addCopy
  cases i.movePair? with
  | none => exact hidx t index
  | some p =>
      show index ∈ (g.addMove p.1 p.2).movesOf t ↔
        ∃ m : Move, (g.moves.push ⟨p.1, p.2⟩)[index]? = some m ∧ (m.dst = t ∨ m.src = t)
      rw [mem_movesOf_addMove, hidx, Array.getElem?_push]
      by_cases hlast : index = g.moves.size
      · subst hlast
        simp
      · simp [hlast]

/-- An instruction mentions whatever it lets interfere or copies, so a graph stays closed. -/
theorem closed_addInstr {g : Interference} (hg : g.Sound) (hclosed : g.Closed) (i : Instr) :
    (g.addInstr i).Closed := by
  refine ⟨?_, ?_⟩
  · intro t x hx
    rw [mem_nodes_addInstr hg]
    rcases (mem_neighbors_addInstr hg i t x).mp hx with h | ⟨-, h⟩
    · exact Or.inl (hclosed.neighbors_subset t x h)
    · exact Or.inr h.mem_temps.2
  · intro index m hm
    rw [mem_nodes_addInstr hg, mem_nodes_addInstr hg]
    rw [(moves_addInstr hg i).1] at hm
    unfold addCopy at hm
    cases hpair : i.movePair? with
    | none =>
        rw [hpair] at hm
        have hends := hclosed.ends_mem index m hm
        exact ⟨Or.inl hends.1, Or.inl hends.2⟩
    | some p =>
        rw [hpair] at hm
        replace hm : (g.moves.push ⟨p.1, p.2⟩)[index]? = some m := hm
        -- The move is an old one, or the last, whose ends are operands of `i`.
        rw [Array.getElem?_push] at hm
        split at hm
        · cases hm
          have hops := Instr.mem_defs_of_movePair? hpair
          exact ⟨Or.inr (Instr.mem_temps.mpr (Or.inr (Or.inl hops.1))),
            Or.inr (Instr.mem_temps.mpr (Or.inl hops.2))⟩
        · have hends := hclosed.ends_mem index m hm
          exact ⟨Or.inl hends.1, Or.inl hends.2⟩

end Interference

/-! ### The graph of some routines -/

/-- Some instruction of the routines keeps the two temporaries apart. -/
def KeptApart (rs : List Routine) (u v : Temp) : Prop :=
  ∃ r ∈ rs, ∃ i ∈ r.instrs, i.KeepsApart u v

/-- Some instruction of the routines mentions the temporary. -/
def Mentioned (rs : List Routine) (t : Temp) : Prop :=
  ∃ r ∈ rs, ∃ i ∈ r.instrs, t ∈ i.temps

/-- An instruction of some routines is an instruction of one of them. -/
theorem exists_mem_flatMap_instrs {rs : List Routine} {p : Instr → Prop} :
    (∃ i ∈ rs.flatMap Routine.instrs, p i) ↔ ∃ r ∈ rs, ∃ i ∈ r.instrs, p i := by
  simp only [List.mem_flatMap]
  constructor
  · rintro ⟨i, ⟨r, hr, hi⟩, hp⟩
    exact ⟨r, hr, i, hi, hp⟩
  · rintro ⟨r, hr, i, hi, hp⟩
    exact ⟨i, ⟨r, hr, hi⟩, hp⟩

namespace Interference

/-- Routines are added instruction by instruction. -/
theorem addRoutines_eq (g : Interference) (rs : List Routine) :
    g.addRoutines rs = (rs.flatMap Routine.instrs).foldl addInstr g := by
  unfold addRoutines
  rw [List.foldl_flatMap]

/-- Instructions one after the other keep a graph sound. -/
theorem sound_foldl_addInstr {g : Interference} (hg : g.Sound) (is : List Instr) :
    (is.foldl addInstr g).Sound := by
  induction is generalizing g with
  | nil => exact hg
  | cons i is ih => exact ih (sound_addInstr hg i)

/-- Whole routines keep a graph sound. -/
theorem sound_addRoutines {g : Interference} (hg : g.Sound) (rs : List Routine) :
    (g.addRoutines rs).Sound := by
  rw [addRoutines_eq]
  exact sound_foldl_addInstr hg _

/-- Instructions make neighbours just of the different temporaries that one of them keeps apart. -/
theorem mem_neighbors_foldl_addInstr {g : Interference} (hg : g.Sound) (is : List Instr)
    (t x : Temp) :
    x ∈ (is.foldl addInstr g).neighbors t ↔
      x ∈ g.neighbors t ∨ (t ≠ x ∧ ∃ i ∈ is, i.KeepsApart t x) := by
  induction is generalizing g with
  | nil => simp
  | cons i is ih =>
      rw [List.foldl_cons, ih (sound_addInstr hg i), mem_neighbors_addInstr hg]
      simp only [List.exists_mem_cons_iff]
      tauto

/-- Instructions add the temporaries that they mention to the nodes. -/
theorem mem_nodes_foldl_addInstr {g : Interference} (hg : g.Sound) (is : List Instr) (t : Temp) :
    t ∈ (is.foldl addInstr g).nodes ↔ t ∈ g.nodes ∨ ∃ i ∈ is, t ∈ i.temps := by
  induction is generalizing g with
  | nil => simp
  | cons i is ih =>
      rw [List.foldl_cons, ih (sound_addInstr hg i), mem_nodes_addInstr hg]
      simp only [List.exists_mem_cons_iff]
      tauto

/-- What each instruction keeps of a sound graph, all routines keep. -/
theorem addRoutines_induction {p : Interference → Prop}
    (hstep : ∀ g i, g.Sound → p g → p (g.addInstr i)) {g : Interference} (hg : g.Sound) (hp : p g)
    (rs : List Routine) : p (g.addRoutines rs) := by
  rw [addRoutines_eq]
  induction rs.flatMap Routine.instrs generalizing g with
  | nil => exact hp
  | cons i is ih => exact ih (sound_addInstr hg i) (hstep g i hg hp)

/-- Whole routines keep a graph closed. -/
theorem closed_addRoutines {g : Interference} (hg : g.Sound) (hclosed : g.Closed)
    (rs : List Routine) : (g.addRoutines rs).Closed :=
  addRoutines_induction (fun _ i hg hp => closed_addInstr hg hp i) hg hclosed rs

/-- In the empty graph nothing has neighbours. -/
theorem neighbors_empty (t : Temp) : empty.neighbors t = ∅ := by
  simp [neighbors, empty]

/-- The empty graph is sound. -/
theorem sound_empty : empty.Sound := by
  refine ⟨?_, ?_, ?_, rfl⟩
  · intro u v
    rw [neighbors_empty]
    simp [interferes, empty]
  · intro u
    simp [neighbors_empty]
  · intro e he
    simp [empty] at he

/-- The empty graph is closed. -/
theorem closed_empty : empty.Closed := by
  refine ⟨?_, ?_⟩
  · intro t x hx
    simp [neighbors_empty] at hx
  · intro index m hm
    simp [empty] at hm

/-- The graph of some routines is sound. -/
theorem sound_ofRoutines (rs : List Routine) : (ofRoutines rs).Sound :=
  sound_addRoutines sound_empty rs

/-- Two temporaries are neighbours exactly if they are different and some
instruction keeps them apart. -/
theorem mem_neighbors_ofRoutines (rs : List Routine) (u v : Temp) :
    v ∈ (ofRoutines rs).neighbors u ↔ u ≠ v ∧ KeptApart rs u v := by
  rw [ofRoutines, addRoutines_eq, mem_neighbors_foldl_addInstr sound_empty, neighbors_empty,
    exists_mem_flatMap_instrs]
  simp [KeptApart]

/-- Two temporaries interfere exactly if they are different and some instruction
keeps them apart. -/
theorem interferes_ofRoutines (rs : List Routine) (u v : Temp) :
    (ofRoutines rs).interferes u v = true ↔ u ≠ v ∧ KeptApart rs u v := by
  rw [(sound_ofRoutines rs).interferes_iff, mem_neighbors_ofRoutines]

/-- The nodes are the temporaries that are mentioned. -/
theorem mem_nodes_ofRoutines (rs : List Routine) (t : Temp) :
    t ∈ (ofRoutines rs).nodes ↔ Mentioned rs t := by
  rw [ofRoutines, addRoutines_eq, mem_nodes_foldl_addInstr sound_empty,
    exists_mem_flatMap_instrs]
  simp [Mentioned, empty]

/-- Degrees count neighbours. -/
theorem degree_ofRoutines (rs : List Routine) (t : Temp) :
    (ofRoutines rs).degree t = ((ofRoutines rs).neighbors t).size := by
  have hempty : empty.Tallied := by
    intro t
    rw [neighbors_empty]
    simp [degree, empty]
  exact addRoutines_induction (fun _ i hg hp => tallied_addInstr hg hp i) sound_empty hempty rs t

/-- Each move is known to its ends, and to nobody else. -/
theorem indexed_ofRoutines (rs : List Routine) : (ofRoutines rs).Indexed := by
  have hempty : empty.Indexed := by
    intro t index
    simp [movesOf, empty]
  exact addRoutines_induction (fun _ i hg hp => indexed_addInstr hg hp i) sound_empty hempty rs

/-- In the graph of some routines, neighbours and the ends of moves are nodes. -/
theorem closed_ofRoutines (rs : List Routine) : (ofRoutines rs).Closed :=
  closed_addRoutines sound_empty closed_empty rs

end Interference

end MmixCodegen
