import MmixCodegen.Flow
import MmixCodegen.Proofs.TempSet
import Mathlib.Algebra.BigOperators.Group.Finset.Basic
import Mathlib.Algebra.Order.BigOperators.Group.Finset

/-!
# `MmixCodegen.Proofs.Flow.Live`: live sets settle

A pass overwrites live sets, and uses those that it has found already. That live
sets grow from pass to pass is not clear from that alone: it needs that they
start low enough. `Rising` says that each live set is within what its own
instruction asks for. Computing one of them anew keeps this and lowers nothing
(`Rising.refresh`), so a pass does too (`Rising.pass`), and empty sets are rising.

The live sets never hold anything but the temporaries of the flow graph, so a
pass that changes something can happen only so many times. `settle_fixed` says
that `FlowGraph.settle` ends where a pass changes nothing, and
`getD_eq_transfer_of_pass` that the live sets then satisfy the equations of all
instructions.
-/

set_option autoImplicit false

namespace MmixCodegen

/-! ### Comparing live sets -/

/-- The number of temporaries that are live before an instruction, and of those
that are live after it. -/
def Live.size (a : Live) : Nat :=
  a.before.size + a.after.size

/-- Everything that is live according to the first is live according to the second. -/
structure Live.Le (a b : Live) : Prop where
  before : ∀ t ∈ a.before, t ∈ b.before
  after : ∀ t ∈ a.after, t ∈ b.after

namespace Live.Le

variable {a b c : Live}

/-- Live sets are within themselves. -/
theorem refl (a : Live) : Live.Le a a :=
  ⟨fun _ => id, fun _ => id⟩

/-- Live sets within others are within what those are within. -/
theorem trans (h : Live.Le a b) (h' : Live.Le b c) : Live.Le a c :=
  ⟨fun t ht => h'.before t (h.before t ht), fun t ht => h'.after t (h.after t ht)⟩

/-- Live sets that are within each other are equal. -/
theorem antisymm (h : Live.Le a b) (h' : Live.Le b a) : a = b :=
  Live.ext (Std.ExtTreeSet.ext_mem fun t => ⟨h.before t, h'.before t⟩)
    (Std.ExtTreeSet.ext_mem fun t => ⟨h.after t, h'.after t⟩)

/-- Smaller live sets have fewer members or as many. -/
theorem size_le (h : Live.Le a b) : a.size ≤ b.size :=
  Nat.add_le_add (TempSet.size_le_of_subset h.before) (TempSet.size_le_of_subset h.after)

/-- Live sets within others that have no more members are equal to them. -/
theorem eq_of_size_le (h : Live.Le a b) (hsize : b.size ≤ a.size) : a = b := by
  have hbefore := TempSet.size_le_of_subset h.before
  have hafter := TempSet.size_le_of_subset h.after
  unfold Live.size at hsize
  exact Live.ext (TempSet.eq_of_subset_of_size_le h.before (by omega))
    (TempSet.eq_of_subset_of_size_le h.after (by omega))

/-- Empty live sets are within any others. -/
theorem none (a : Live) : Live.Le .none a :=
  ⟨fun t ht => by simp [Live.none] at ht, fun t ht => by simp [Live.none] at ht⟩

end Live.Le

namespace Flow

/-! ### One instruction -/

variable {exitLive : Option Temp} {before before' : Nat → TempSet} {n : Node} {t : Temp}

/-- What is live before some successor is all that the union over them adds. -/
theorem mem_foldl_union {succs : List Nat} {live : TempSet} :
    t ∈ succs.foldl (fun live s => live ∪ before s) live ↔
      t ∈ live ∨ ∃ s ∈ succs, t ∈ before s := by
  induction succs generalizing live with
  | nil => simp
  | cons s succs ih =>
      rw [List.foldl_cons, ih, Std.ExtTreeSet.mem_union_iff]
      simp [or_assoc]

/-- What is live after an instruction: what is live before one of those that may
come next, and at the exit what is live there. -/
theorem mem_after_transfer :
    t ∈ (transfer exitLive before n).after ↔
      (n.exits = true ∧ exitLive = some t) ∨ ∃ s ∈ n.succs, t ∈ before s := by
  simp only [transfer]
  rw [mem_foldl_union]
  refine or_congr_left ?_
  split
  · next h => simp [h]
  · next h => simp [h]

/-- What is live before an instruction: what it reads, and what is live after it
without what it writes. -/
theorem mem_before_transfer :
    t ∈ (transfer exitLive before n).before ↔
      t ∈ n.uses ∨ (t ∈ (transfer exitLive before n).after ∧ t ∉ n.defs) := by
  simp only [transfer]
  rw [Std.ExtTreeSet.mem_union_iff, Std.ExtTreeSet.mem_diff_iff]
  simp [or_comm]

/-- More live before the successors means more live around the instruction. -/
theorem transfer_mono (h : ∀ s, ∀ t ∈ before s, t ∈ before' s) :
    Live.Le (transfer exitLive before n) (transfer exitLive before' n) := by
  have hafter : ∀ t ∈ (transfer exitLive before n).after,
      t ∈ (transfer exitLive before' n).after := by
    intro t ht
    rw [mem_after_transfer] at ht ⊢
    rcases ht with hexit | ⟨s, hs, ht⟩
    · exact Or.inl hexit
    · exact Or.inr ⟨s, hs, h s t ht⟩
  refine ⟨fun t ht => ?_, hafter⟩
  rw [mem_before_transfer] at ht ⊢
  rcases ht with huse | ⟨ht, hdef⟩
  · exact Or.inl huse
  · exact Or.inr ⟨hafter t ht, hdef⟩

end Flow

namespace FlowGraph

variable {g : FlowGraph} {lives lives' lives'' : Array Live} {index : Nat} {n : Flow.Node}

/-! ### Arrays of live sets -/

/-- Each live set of the first is within that of the second. -/
structure Within (lives lives' : Array Live) : Prop where
  size_eq : lives'.size = lives.size
  le : ∀ index, Live.Le (lives.getD index .none) (lives'.getD index .none)

namespace Within

/-- Every array of live sets is within itself. -/
theorem refl (lives : Array Live) : Within lives lives :=
  ⟨rfl, fun _ => Live.Le.refl _⟩

/-- The order on arrays of live sets is transitive. -/
theorem trans (h : Within lives lives') (h' : Within lives' lives'') : Within lives lives'' :=
  ⟨h'.size_eq.trans h.size_eq, fun index => (h.le index).trans (h'.le index)⟩

/-- Arrays of live sets that are within each other are equal. -/
theorem antisymm (h : Within lives lives') (h' : Within lives' lives) : lives = lives' := by
  refine Array.ext h'.size_eq fun index hlt hlt' => ?_
  have heq := (h.le index).antisymm (h'.le index)
  simpa [Array.getD_eq_getD_getElem?, hlt, hlt'] using heq

/-- In a larger array, more is live before each instruction. -/
theorem before (h : Within lives lives') (s : Nat) :
    ∀ t ∈ before lives s, t ∈ FlowGraph.before lives' s :=
  (h.le s).before

end Within

/-- Computing a live set anew replaces that one and keeps all others. -/
theorem getD_refresh {e : Option Temp} (hindex : index < lives.size) (other : Nat) :
    (refresh e (n, index) lives).getD other .none =
      if index = other then Flow.transfer e (before lives) n else lives.getD other .none := by
  unfold refresh
  rw [Array.getD_eq_getD_getElem?, Array.getElem?_setIfInBounds, Array.getD_eq_getD_getElem?]
  by_cases heq : index = other
  · rw [if_pos heq, if_pos heq, if_pos hindex]
    rfl
  · rw [if_neg heq, if_neg heq]

/-- In an array of empty live sets all of them are empty, outside of it too. -/
theorem getD_replicate_none (n index : Nat) :
    (Array.replicate n Live.none).getD index .none = .none := by
  rw [Array.getD_eq_getD_getElem?, Array.getElem?_replicate]
  split <;> rfl

/-- Each live set is within what its instruction asks for. -/
structure Rising (g : FlowGraph) (lives : Array Live) : Prop where
  size_eq : lives.size = g.nodes.length
  le : ∀ (index : Nat) (n : Flow.Node), g.nodes[index]? = some n →
    Live.Le (lives.getD index .none) (Flow.transfer g.exitLive (before lives) n)

namespace Rising

/-- Empty live sets are rising. -/
theorem none (g : FlowGraph) : Rising g (Array.replicate g.nodes.length .none) := by
  refine ⟨Array.size_replicate, fun index n _ => ?_⟩
  rw [getD_replicate_none]
  exact Live.Le.none _

/-- Computing live sets anew lowers nothing, and keeps all of them within what
their instructions ask for. -/
theorem refresh (h : Rising g lives) (hn : g.nodes[index]? = some n) :
    Rising g (refresh g.exitLive (n, index) lives) ∧
      Within lives (FlowGraph.refresh g.exitLive (n, index) lives) := by
  have hindex : index < lives.size := by
    rw [h.size_eq]
    exact (List.getElem?_eq_some_iff.mp hn).1
  have hsize : (FlowGraph.refresh g.exitLive (n, index) lives).size = lives.size :=
    Array.size_setIfInBounds
  have hwithin : Within lives (FlowGraph.refresh g.exitLive (n, index) lives) := by
    refine ⟨hsize, fun other => ?_⟩
    rw [getD_refresh hindex]
    split
    · next heq => exact heq ▸ h.le index n hn
    · exact Live.Le.refl _
  refine ⟨⟨hsize.trans h.size_eq, fun other m hm => ?_⟩, hwithin⟩
  -- What an instruction asks for only grows with what is live elsewhere.
  have hmono : ∀ m, Live.Le (Flow.transfer g.exitLive (before lives) m)
      (Flow.transfer g.exitLive (before (FlowGraph.refresh g.exitLive (n, index) lives)) m) :=
    fun m => Flow.transfer_mono hwithin.before
  rw [getD_refresh hindex]
  split
  · next heq =>
    subst heq
    rw [hn, Option.some.injEq] at hm
    exact hm ▸ hmono n
  · exact (h.le other m hm).trans (hmono m)

/-- Computing live sets anew one after the other keeps them rising and lowers none. -/
theorem foldr_refresh (h : Rising g lives) {entries : List (Flow.Node × Nat)}
    (hentries : ∀ e ∈ entries, g.nodes[e.2]? = some e.1) :
    Rising g (entries.foldr (FlowGraph.refresh g.exitLive) lives) ∧
      Within lives (entries.foldr (FlowGraph.refresh g.exitLive) lives) := by
  induction entries with
  | nil => exact ⟨h, Within.refl lives⟩
  | cons e entries ih =>
      obtain ⟨hrest, hwithin⟩ := ih fun e he => hentries e (List.mem_cons_of_mem _ he)
      obtain ⟨hfirst, hstep⟩ := hrest.refresh (hentries e List.mem_cons_self)
      exact ⟨hfirst, hwithin.trans hstep⟩

/-- The entries of a pass are the nodes, each with its own index. -/
theorem zipIdx_entries (g : FlowGraph) : ∀ e ∈ g.nodes.zipIdx, g.nodes[e.2]? = some e.1 :=
  fun _ he => List.mem_zipIdx_iff_getElem?.mp he

/-- A pass lowers nothing. -/
theorem pass (h : Rising g lives) : Rising g (g.pass lives) ∧ Within lives (g.pass lives) :=
  h.foldr_refresh (zipIdx_entries g)

/-- If a run over some instructions changes nothing, then computing the live sets
of any one of them anew changes nothing. -/
theorem refresh_eq_of_foldr_eq (h : Rising g lives) {entries : List (Flow.Node × Nat)}
    (hentries : ∀ e ∈ entries, g.nodes[e.2]? = some e.1)
    (heq : entries.foldr (FlowGraph.refresh g.exitLive) lives = lives) :
    ∀ e ∈ entries, FlowGraph.refresh g.exitLive e lives = lives := by
  induction entries with
  | nil => exact fun e he => absurd he List.not_mem_nil
  | cons first entries ih =>
      have hrest : ∀ e ∈ entries, g.nodes[e.2]? = some e.1 :=
        fun e he => hentries e (List.mem_cons_of_mem _ he)
      obtain ⟨hrising, hwithin⟩ := h.foldr_refresh hrest
      obtain ⟨-, hstep⟩ := hrising.refresh (hentries first List.mem_cons_self)
      -- The run ends where it started and never goes down, so it stays where it is.
      have hsame : entries.foldr (FlowGraph.refresh g.exitLive) lives = lives := by
        refine (hwithin.antisymm ?_).symm
        rw [List.foldr_cons] at heq
        rw [heq] at hstep
        exact hstep
      intro e he
      rcases List.mem_cons.mp he with rfl | he
      · rw [List.foldr_cons, hsame] at heq
        exact heq
      · exact ih hrest hsame e he

end Rising

/-- Where a pass changes nothing, the live sets of each instruction are what it
asks for. -/
theorem getD_eq_transfer_of_pass (h : Rising g lives) (hpass : g.pass lives = lives)
    (hn : g.nodes[index]? = some n) :
    lives.getD index .none = Flow.transfer g.exitLive (before lives) n := by
  have hindex : index < lives.size := by
    rw [h.size_eq]
    exact (List.getElem?_eq_some_iff.mp hn).1
  have hmem : (n, index) ∈ g.nodes.zipIdx := List.mem_zipIdx_iff_getElem?.mpr hn
  have hsame := h.refresh_eq_of_foldr_eq (Rising.zipIdx_entries g) hpass _ hmem
  have hget := getD_refresh (e := g.exitLive) (n := n) hindex index
  rw [hsame, if_pos rfl] at hget
  exact hget

/-! ### Counting -/

/-- The size of all live sets together. -/
def total (lives : Array Live) : Nat :=
  ∑ index ∈ Finset.range lives.size, (lives.getD index .none).size

/-- Live sets that grew are larger. -/
theorem Within.total_lt (h : Within lives lives') (hne : lives ≠ lives') :
    total lives < total lives' := by
  unfold total
  rw [h.size_eq]
  refine Finset.sum_lt_sum (fun index _ => (h.le index).size_le) ?_
  by_contra hall
  push Not at hall
  refine hne (Array.ext h.size_eq.symm fun index hlt hlt' => ?_)
  have heq := (h.le index).eq_of_size_le (hall index (Finset.mem_range.mpr hlt))
  simpa [Array.getD_eq_getD_getElem?, hlt, hlt'] using heq

/-- Only temporaries of the flow graph are live. -/
def Confined (g : FlowGraph) (lives : Array Live) : Prop :=
  ∀ index t, t ∈ (lives.getD index .none).before ∨ t ∈ (lives.getD index .none).after → t ∈ g.temps

namespace Confined

/-- Nothing at all is live at the start. -/
theorem none (g : FlowGraph) : Confined g (Array.replicate g.nodes.length .none) := by
  intro index t ht
  rw [getD_replicate_none] at ht
  simp [Live.none] at ht

/-- What is live at the exit is a temporary of the flow graph. -/
theorem mem_temps_of_exitLive {t : Temp} (h : g.exitLive = some t) : t ∈ g.temps := by
  simp [temps, h]

/-- What a node reads is a temporary of the flow graph. -/
theorem mem_temps_of_uses {t : Temp} (hn : g.nodes[index]? = some n) (ht : t ∈ n.uses) :
    t ∈ g.temps := by
  rw [temps, TempSet.mem_ofList, List.mem_append, List.mem_flatMap]
  exact Or.inl ⟨n, List.mem_of_getElem? hn, ht⟩

/-- The equations of a node bring up no temporary that is not in the flow graph. -/
theorem transfer (h : Confined g lives) (hn : g.nodes[index]? = some n) {t : Temp}
    (ht : t ∈ (Flow.transfer g.exitLive (before lives) n).before ∨
      t ∈ (Flow.transfer g.exitLive (before lives) n).after) : t ∈ g.temps := by
  have hafter : t ∈ (Flow.transfer g.exitLive (before lives) n).after → t ∈ g.temps := by
    intro ht
    rcases Flow.mem_after_transfer.mp ht with ⟨-, hexit⟩ | ⟨s, -, hs⟩
    · exact mem_temps_of_exitLive hexit
    · exact h s t (Or.inl hs)
  rcases ht with ht | ht
  · rcases Flow.mem_before_transfer.mp ht with huse | ⟨ht, -⟩
    · exact mem_temps_of_uses hn huse
    · exact hafter ht
  · exact hafter ht

/-- Computing live sets anew one after the other brings up no other temporary either. -/
theorem foldr_refresh (h : Confined g lives) (hsize : lives.size = g.nodes.length)
    {entries : List (Flow.Node × Nat)} (hentries : ∀ e ∈ entries, g.nodes[e.2]? = some e.1) :
    (entries.foldr (refresh g.exitLive) lives).size = g.nodes.length ∧
      Confined g (entries.foldr (refresh g.exitLive) lives) := by
  induction entries with
  | nil => exact ⟨hsize, h⟩
  | cons e entries ih =>
      obtain ⟨hrest, hconfined⟩ := ih fun e he => hentries e (List.mem_cons_of_mem _ he)
      have hn := hentries e List.mem_cons_self
      have hindex : e.2 < (entries.foldr (refresh g.exitLive) lives).size := by
        rw [hrest]
        exact (List.getElem?_eq_some_iff.mp hn).1
      refine ⟨Array.size_setIfInBounds.trans hrest, fun index t ht => ?_⟩
      rw [List.foldr_cons, getD_refresh hindex] at ht
      split at ht
      · exact hconfined.transfer hn ht
      · exact hconfined index t ht

/-- A pass brings up no temporary that is not in the flow graph. -/
theorem pass (h : Confined g lives) (hsize : lives.size = g.nodes.length) :
    Confined g (g.pass lives) :=
  (h.foldr_refresh hsize (Rising.zipIdx_entries g)).2

/-- Two sets for each instruction, with all temporaries in each of them, bound the total size. -/
theorem total_le (h : Confined g lives) (hsize : lives.size = g.nodes.length) :
    total lives ≤ 2 * g.nodes.length * g.temps.size := by
  have hbound : ∀ index ∈ Finset.range lives.size,
      (lives.getD index .none).size ≤ 2 * g.temps.size := by
    intro index _
    have hbefore := TempSet.size_le_of_subset fun t ht => h index t (Or.inl ht)
    have hafter := TempSet.size_le_of_subset fun t ht => h index t (Or.inr ht)
    unfold Live.size
    omega
  calc total lives ≤ ∑ _index ∈ Finset.range lives.size, 2 * g.temps.size :=
        Finset.sum_le_sum hbound
    _ = 2 * g.nodes.length * g.temps.size := by
        rw [Finset.sum_const_nat fun _ _ => rfl, Finset.card_range, hsize,
          Nat.mul_comm 2 g.nodes.length, Nat.mul_assoc]

end Confined

/-! ### Settling -/

/-- With enough passes, live sets end where a pass changes nothing. -/
theorem settleWithin_fixed {fuel : Nat} (h : Rising g lives) (hconfined : Confined g lives)
    (hfuel : 2 * g.nodes.length * g.temps.size < total lives + fuel) :
    Rising g (g.settleWithin fuel lives).1 ∧
      g.pass (g.settleWithin fuel lives).1 = (g.settleWithin fuel lives).1 := by
  induction fuel generalizing lives with
  | zero =>
      have hle := hconfined.total_le h.size_eq
      omega
  | succ fuel ih =>
      obtain ⟨hrising, hwithin⟩ := h.pass
      unfold settleWithin
      dsimp only
      split
      · next heq => exact ⟨h, heq⟩
      · next hne =>
        -- A pass that changes something leaves less room for others.
        have hlt := hwithin.total_lt (Ne.symm hne)
        exact ih hrising (hconfined.pass h.size_eq) (by omega)

/-- The live sets of a flow graph settle. -/
theorem settle_fixed (g : FlowGraph) :
    Rising g g.settle.1 ∧ g.pass g.settle.1 = g.settle.1 :=
  settleWithin_fixed (Rising.none g) (Confined.none g) (by unfold passBound; omega)

end FlowGraph

end MmixCodegen
