import MmixCodegen.Proofs.Allocator.Assign
import MmixCodegen.Proofs.Allocator.Part

/-!
# `MmixCodegen.Proofs.Allocator.Follow`: an allocation of a region follows that of the whole

If an allocation of everything takes an action within a region, then that is the next
action of an allocation of the region alone: it prefers the same kind of action, and among
several temporaries or moves it prefers the same one (`Part.next?`). So the run of the whole,
with all actions elsewhere left out, is the run of the region (`Part.drain`), and registers are
given out alike (`Part.foldl_assign`).

The choice of a temporary to be spilled needs some care, since it compares all candidates.
`IsHeaviest` says what is chosen from a list, and that it is still chosen when others are left
out (`IsHeaviest.filter`).
-/

set_option autoImplicit false

namespace MmixCodegen

namespace TempSet

/-- A set that has some members of another one lists them in the same order. -/
theorem toList_eq_filter {s s' : TempSet} {p : Temp → Bool}
    (hmem : ∀ t, t ∈ s ↔ t ∈ s' ∧ p t = true) : s.toList = s'.toList.filter p := by
  have hperm : s.toList.Perm (s'.toList.filter p) := by
    rw [List.perm_ext_iff_of_nodup s.nodup_toList (s'.nodup_toList.filter p)]
    intro t
    rw [Std.ExtTreeSet.mem_toList, List.mem_filter, Std.ExtTreeSet.mem_toList, hmem]
  refine hperm.eq_of_pairwise (fun t u _ _ htu hut => ?_) Std.ExtTreeSet.ordered_toList
    (Std.ExtTreeSet.ordered_toList.filter p)
  rw [Std.OrientedCmp.gt_of_lt htu] at hut
  cases hut

end TempSet

/-- The least move is the member that no other one is below. -/
theorem MoveSet.least?_eq_some_iff {s : MoveSet} {i : Nat} :
    s.least? = some i ↔ i ∈ s ∧ ∀ j ∈ s, i ≤ j := by
  have hmem : ∀ j, j ∈ s ↔ j ∈ s.toList := fun j => Std.ExtTreeSet.mem_toList.symm
  have hordered := Allocator.pairwise_toList s
  simp only [least?, hmem]
  generalize s.toList = l at hordered ⊢
  cases l with
  | nil => simp
  | cons first rest =>
      have hfirst := (List.pairwise_cons.mp hordered).1
      simp only [List.head?_cons, Option.some.injEq]
      constructor
      · rintro rfl
        refine ⟨List.mem_cons_self, fun j hj => ?_⟩
        rcases List.mem_cons.mp hj with rfl | hj
        · exact Nat.le_refl _
        · exact Nat.le_of_lt (hfirst j hj)
      · rintro ⟨hi, hle⟩
        rcases List.mem_cons.mp hi with rfl | hi
        · rfl
        · have hlt := hfirst i hi
          have hge := hle first List.mem_cons_self
          omega

namespace Region

variable {g : Region}

/-- What the whole does next is what the region does next, or it is elsewhere. If the whole has
nothing to do, then neither has the region. -/
def Follows (g : Region) (own : Option Action) : Option Action → Prop
  | none => own = none
  | some action => own.map (·.shift g.first) = some action ∨ action.Outside g

/-- With nothing to do anywhere there is nothing to do in the region. -/
theorem follows_none : g.Follows none none :=
  rfl

/-- It is the region's turn if what the action is about, as told by `p`, is in the region. -/
theorem follows_some {own : Option Action} {action : Action} {p : Prop}
    (hin : p → own.map (·.shift g.first) = some action) (hout : ¬p → action.Outside g) :
    g.Follows own (some action) := by
  by_cases hp : p
  · exact .inl (hin hp)
  · exact .inr (hout hp)

end Region

namespace Allocator

variable {g : Region} {a b c d : Allocator} {t u v x : Temp} {i index : Nat} {m : Move}

/-! ### The heaviest temporary of a list -/

/-- `t` is the first of the heaviest members of a list. -/
def IsHeaviest (weight : Temp → Nat) (l : List Temp) (t : Temp) : Prop :=
  ∃ before after, l = before ++ t :: after ∧ (∀ x ∈ before, weight x < weight t) ∧
    ∀ x ∈ after, weight x ≤ weight t

namespace IsHeaviest

variable {weight weight' : Temp → Nat} {l : List Temp}

/-- Nothing in the list is heavier. -/
theorem le (h : IsHeaviest weight l t) (hx : x ∈ l) : weight x ≤ weight t := by
  obtain ⟨before, after, rfl, hbefore, hafter⟩ := h
  rcases List.mem_append.mp hx with hx | hx
  · exact Nat.le_of_lt (hbefore x hx)
  · rcases List.mem_cons.mp hx with rfl | hx
    · exact Nat.le_refl _
    · exact hafter x hx

/-- The heaviest member is a member. -/
theorem mem (h : IsHeaviest weight l t) : t ∈ l := by
  obtain ⟨before, after, rfl, -⟩ := h
  simp

/-- There is only one first among the heaviest. -/
theorem unique (h : IsHeaviest weight l t) (h' : IsHeaviest weight l u) : t = u := by
  have htu := h.le h'.mem
  have hut := h'.le h.mem
  obtain ⟨before, after, rfl, hbefore, -⟩ := h
  obtain ⟨before', after', heq, hbefore', -⟩ := h'
  -- If one of them came earlier, then it would be lighter than the other.
  rcases List.append_eq_append_iff.mp heq with ⟨rest, rfl, hrest⟩ | ⟨rest, rfl, hrest⟩
  · cases rest with
    | nil => exact (List.cons.inj hrest).1
    | cons y rest =>
        obtain ⟨rfl, -⟩ := List.cons.inj hrest
        have hlt := hbefore' t (by simp)
        omega
  · cases rest with
    | nil => exact (List.cons.inj hrest).1.symm
    | cons y rest =>
        obtain ⟨rfl, -⟩ := List.cons.inj hrest
        have hlt := hbefore u (by simp)
        omega

/-- It is still chosen if others are left out. -/
theorem filter (h : IsHeaviest weight l t) {p : Temp → Bool} (ht : p t = true)
    (hweight : ∀ x, p x = true → weight x = weight' x) : IsHeaviest weight' (l.filter p) t := by
  obtain ⟨before, after, rfl, hbefore, hafter⟩ := h
  refine ⟨before.filter p, after.filter p, ?_, fun x hx => ?_, fun x hx => ?_⟩
  · rw [List.filter_append, List.filter_cons_of_pos ht]
  · rw [List.mem_filter] at hx
    rw [← hweight x hx.2, ← hweight t ht]
    exact hbefore x hx.1
  · rw [List.mem_filter] at hx
    rw [← hweight x hx.2, ← hweight t ht]
    exact hafter x hx.1

end IsHeaviest

/-- Comparing one after the other finds the first of the heaviest. -/
theorem isHeaviest_foldl (a : Allocator) (first : Temp) (l : List Temp) :
    IsHeaviest a.graph.weight (first :: l) (l.foldl a.heavier first) := by
  induction l using List.reverseRecOn with
  | nil => exact ⟨[], [], rfl, by simp, by simp⟩
  | append_singleton l x ih =>
      rw [List.foldl_append, List.foldl_cons, List.foldl_nil]
      -- Of equal weights the earlier one is kept.
      unfold heavier
      split
      · next hlt =>
        refine ⟨first :: l, [], rfl, fun y hy => ?_, by simp⟩
        exact Nat.lt_of_le_of_lt (ih.le hy) hlt
      · next hge =>
        obtain ⟨before, after, heq, hbefore, hafter⟩ := ih
        refine ⟨before, after ++ [x], ?_, hbefore, fun y hy => ?_⟩
        · rw [← List.cons_append, heq, List.append_assoc]
          rfl
        · rcases List.mem_append.mp hy with hy | hy
          · exact hafter y hy
          · rw [List.mem_singleton.mp hy]
            exact Nat.le_of_not_lt hge

/-- The temporary that is chosen is the first of the heaviest. -/
theorem heaviest?_eq_some_iff {l : List Temp} :
    a.heaviest? l = some t ↔ IsHeaviest a.graph.weight l t := by
  cases l with
  | nil => simp [heaviest?, IsHeaviest]
  | cons first l =>
      rw [heaviest?, Option.some.injEq]
      constructor
      · rintro rfl
        exact isHeaviest_foldl a first l
      · exact (isHeaviest_foldl a first l).unique

/-! ### Which action is next -/

/-- A temporary that can be simplified goes first. -/
theorem next?_of_simplify (hsimplify : a.sets.simplify.least? = some t) :
    a.next? = some (.simplify t) := by
  simp [next?, hsimplify]

/-- With nothing to simplify, the waiting move with the lowest number goes first. -/
theorem next?_of_waiting (hsimplify : a.sets.simplify.least? = none)
    (hwaiting : a.waiting.least? = some i) (hm : a.graph.moves[i]? = some m) :
    a.next? = some (a.moveAction i m) := by
  simp [next?, hsimplify, hwaiting, hm]

/-- With no move waiting either, a temporary that can be frozen goes first. -/
theorem next?_of_freeze (hsimplify : a.sets.simplify.least? = none)
    (hwaiting : a.waiting.least? = none) (hfreeze : a.sets.freeze.least? = some t) :
    a.next? = some (.freeze t) := by
  simp [next?, hsimplify, hwaiting, hfreeze]

/-- Spilling is the last resort. -/
theorem next?_of_spill (hsimplify : a.sets.simplify.least? = none)
    (hwaiting : a.waiting.least? = none) (hfreeze : a.sets.freeze.least? = none) :
    a.next? = a.spillAction? := by
  simp [next?, hsimplify, hwaiting, hfreeze]

/-- In a tidy state, there is a move behind each number that waits. -/
theorem Tidy.exists_move_of_mem_waiting (h : a.Tidy) (hi : i ∈ a.waiting) :
    ∃ m, a.graph.moves[i]? = some m := by
  rw [h.queued.mem_waiting] at hi
  have hlt := (Array.getElem?_eq_some_iff.mp hi).1
  rw [h.queued.size_eq] at hlt
  exact ⟨_, Array.getElem?_eq_getElem hlt⟩

namespace Part

/-- What the region has of a set of the whole. -/
theorem toList_get (h : Part g a c) {s : NodeStatus} (hinitial : s ≠ .initial)
    (hstack : s ≠ .onStack) :
    (a.sets.get s).toList = (c.sets.get s).toList.filter (· ∈ g.temps) := by
  refine TempSet.toList_eq_filter fun t => ?_
  rw [h.part.sorted.mem_get s t hinitial hstack, h.whole.sorted.mem_get s t hinitial hstack,
    decide_eq_true_eq]
  constructor
  · intro ht
    have hmem : t ∈ g.temps := by
      rw [← h.nodes]
      exact h.part.mem_nodes_of_status ht hinitial
    exact ⟨(h.status t hmem).trans ht, hmem⟩
  · rintro ⟨ht, hmem⟩
    exact (h.status t hmem).symm.trans ht

/-- If the least member of a worklist of the whole is in the region, it is the least one there;
if the worklist is empty, so is that of the region. -/
theorem least?_get (h : Part g a c) {s : NodeStatus} (hinitial : s ≠ .initial)
    (hstack : s ≠ .onStack) :
    ((c.sets.get s).least? = none → (a.sets.get s).least? = none) ∧
      ∀ t ∈ g.temps, (c.sets.get s).least? = some t → (a.sets.get s).least? = some t := by
  have hfilter := h.toList_get hinitial hstack
  unfold TempSet.least?
  rw [hfilter]
  cases (c.sets.get s).toList with
  | nil => simp
  | cons first rest =>
      refine ⟨nofun, fun t ht hfirst => ?_⟩
      rw [List.head?_cons, Option.some.injEq] at hfirst
      rw [hfirst, List.filter_cons_of_pos (by simpa using ht), List.head?_cons]

/-- A move of the region waits in both or in neither. -/
theorem mem_waiting (h : Part g a c) (hi : i < g.count) : g.first + i ∈ c.waiting ↔
    i ∈ a.waiting := by
  rw [h.whole.queued.mem_waiting, h.part.queued.mem_waiting, h.moveStatuses i hi]

/-- The moves that wait in the region's own state are moves of the region. -/
theorem lt_of_mem_waiting (h : Part g a c) (hi : i ∈ a.waiting) : i < g.count :=
  h.lt_of_isPending (isPending_iff.mpr (.inl ((h.part.queued.mem_waiting i).mp hi)))

/-- If the first waiting move of the whole is in the region, it is the first one there; if none
waits, none does there. -/
theorem least?_waiting (h : Part g a c) :
    (c.waiting.least? = none → a.waiting.least? = none) ∧
      ∀ i < g.count, c.waiting.least? = some (g.first + i) → a.waiting.least? = some i := by
  refine ⟨fun hnone => ?_, fun i hi hleast => ?_⟩
  · cases hleast : a.waiting.least? with
    | none => rfl
    | some i =>
        have hmem := (MoveSet.least?_eq_some_iff.mp hleast).1
        have hwaits := (h.mem_waiting (h.lt_of_mem_waiting hmem)).mpr hmem
        rw [MoveSet.least?, List.head?_eq_none_iff] at hnone
        rw [← Std.ExtTreeSet.mem_toList, hnone] at hwaits
        cases hwaits
  · obtain ⟨hmem, hle⟩ := MoveSet.least?_eq_some_iff.mp hleast
    refine MoveSet.least?_eq_some_iff.mpr ⟨(h.mem_waiting hi).mp hmem, fun j hj => ?_⟩
    have hlater := hle _ ((h.mem_waiting (h.lt_of_mem_waiting hj)).mpr hj)
    omega

/-- Whether a merge is safe is the same question in both. -/
theorem canMerge (h : Part g a c) (hu : u ∈ g.temps) (hv : v ∈ g.temps) :
    c.canMerge u v = a.canMerge u v := by
  unfold Allocator.canMerge
  dsimp only
  rw [h.adjacent hu, h.adjacent hv, h.registers]
  congr 3
  refine List.filter_congr fun x hx => h.isSignificant ?_
  rw [Std.ExtTreeSet.mem_toList, TempSet.mem_ofList, List.mem_append] at hx
  rcases hx with hx | hx
  · exact h.mem_of_mem_adjacent hx
  · exact h.mem_of_mem_adjacent hx

/-- About a move of the region the same is decided. -/
theorem moveAction (h : Part g a c) (hm : a.graph.moves[i]? = some m) :
    c.moveAction (g.first + i) m = (a.moveAction i m).shift g.first := by
  obtain ⟨hdst, hsrc⟩ := h.ends_mem hm
  have hu := h.representative_mem hdst
  have hv := h.representative_mem hsrc
  unfold Allocator.moveAction
  dsimp only
  rw [h.representative _ hdst, h.representative _ hsrc, h.interferes hu, h.canMerge hu hv]
  split
  · rfl
  · split
    · rfl
    · split <;> rfl

/-- If the heaviest candidate of the whole is in the region, it is the heaviest one there; if
there is none, there is none there. -/
theorem heaviest? (h : Part g a c) {l l' : List Temp} (hl : l' = l.filter (· ∈ g.temps)) :
    (c.heaviest? l = none → a.heaviest? l' = none) ∧
      ∀ t ∈ g.temps, c.heaviest? l = some t → a.heaviest? l' = some t := by
  subst hl
  refine ⟨fun hnone => ?_, fun t ht hsome => ?_⟩
  · rw [heaviest?_eq_none] at hnone ⊢
    rw [hnone, List.filter_nil]
  · rw [heaviest?_eq_some_iff] at hsome ⊢
    refine hsome.filter (by simpa using ht) fun x hx => h.weight x ?_
    simpa using hx

/-- A temporary to be spilled is chosen from the region as it would be in the region alone. -/
theorem spillAction? (h : Part g a c) : g.Follows a.spillAction? c.spillAction? := by
  have hall : a.sets.spill.toList = c.sets.spill.toList.filter (· ∈ g.temps) :=
    h.toList_get (s := .spill) (by decide) (by decide)
  have hopen : a.sets.spill.toList.filter (fun t => !a.shielded.contains t)
      = (c.sets.spill.toList.filter fun t => !c.shielded.contains t).filter (· ∈ g.temps) := by
    rw [hall, h.shielded, List.filter_filter, List.filter_filter]
    simp only [Bool.and_comm]
  obtain ⟨hnone, hsome⟩ := h.heaviest? hall
  obtain ⟨hnone', hsome'⟩ := h.heaviest? hopen
  unfold Allocator.spillAction?
  dsimp only
  cases hchoice : c.heaviest? (c.sets.spill.toList.filter fun t => !c.shielded.contains t) with
  | some t =>
      exact Region.follows_some (p := t ∈ g.temps)
        (fun ht => by rw [hsome' t ht hchoice]; rfl) id
  | none =>
      -- All candidates of the whole are shielded, and so are those of the region.
      rw [hnone' hchoice]
      dsimp only
      cases hforced : c.heaviest? c.sets.spill.toList with
      | some t =>
          exact Region.follows_some (p := t ∈ g.temps)
            (fun ht => by rw [hsome t ht hforced]; rfl) id
      | none =>
          rw [hnone hforced]
          exact Region.follows_none

/-- What is done about a move elsewhere is done elsewhere. -/
theorem outside_moveAction (c : Allocator) {index : Nat} (h : ¬g.Owns index) (m : Move) :
    (c.moveAction index m).Outside g := by
  unfold Allocator.moveAction
  dsimp only
  split
  · exact h
  · split
    · exact h
    · split <;> exact h

/-- The next action of the whole is one that the region takes next, or it is elsewhere. If
there is none left for the whole, then there is none for the region. -/
theorem next? (h : Part g a c) : g.Follows a.next? c.next? := by
  obtain ⟨hsimplify, hsimplify'⟩ := h.least?_get (s := .simplify) (by decide) (by decide)
  obtain ⟨hfreeze, hfreeze'⟩ := h.least?_get (s := .freeze) (by decide) (by decide)
  obtain ⟨hwaiting, hwaiting'⟩ := h.least?_waiting
  -- The kinds of actions in the order of preference. Where the whole has none of a kind, the
  -- region has none of it either.
  cases hcs : c.sets.simplify.least? with
  | some t =>
      rw [next?_of_simplify hcs]
      refine Region.follows_some (p := t ∈ g.temps) (fun ht => ?_) id
      rw [next?_of_simplify (hsimplify' t ht hcs)]
      rfl
  | none =>
      have has := hsimplify hcs
      cases hcw : c.waiting.least? with
      | some index =>
          obtain ⟨m, hm⟩ := h.whole.exists_move_of_mem_waiting (MoveSet.least?_eq_some_iff.mp hcw).1
          rw [next?_of_waiting hcs hcw hm]
          refine Region.follows_some (p := g.Owns index) ?_
            fun howns => outside_moveAction c howns m
          rintro ⟨i, hi, rfl⟩
          rw [h.moves i hi] at hm
          rw [next?_of_waiting has (hwaiting' i hi hcw) hm, h.moveAction hm]
          rfl
      | none =>
          have haw := hwaiting hcw
          cases hcf : c.sets.freeze.least? with
          | some t =>
              rw [next?_of_freeze hcs hcw hcf]
              refine Region.follows_some (p := t ∈ g.temps) (fun ht => ?_) id
              rw [next?_of_freeze has haw (hfreeze' t ht hcf)]
              rfl
          | none =>
              rw [next?_of_spill hcs hcw hcf, next?_of_spill has haw (hfreeze hcf)]
              exact h.spillAction?

end Part

/-! ### Runs -/

/-- There is one place where a run can end. -/
theorem Runs.unique {actions actions' : List Action} (h : Runs a actions b) (hb : b.next? = none)
    (h' : Runs a actions' d) (hd : d.next? = none) : b = d := by
  induction h generalizing actions' with
  | done =>
      cases h' with
      | done => rfl
      | step hnext _ =>
          rw [hb] at hnext
          cases hnext
  | step hnext _ ih =>
      cases h' with
      | done =>
          rw [hd] at hnext
          cases hnext
      | step hnext' hrest' =>
          rw [hnext] at hnext'
          cases hnext'
          exact ih hb hrest'

namespace Part

/-- A run of the whole to its end is, with the actions elsewhere left out, a run of the region
to its end. -/
theorem runs (h : Part g a c) {actions : List Action} (hrun : Runs c actions d)
    (hd : d.next? = none) : ∃ own b, Runs a own b ∧ b.next? = none ∧ Part g b d := by
  induction hrun generalizing a with
  | done =>
      have hfollows := h.next?
      rw [hd] at hfollows
      exact ⟨[], a, .done, hfollows, h⟩
  | step hnext _ ih =>
      have haction := enabled_of_next? h.whole hnext
      have hfollows := h.next?
      rw [hnext] at hfollows
      -- An action of the region is taken on both sides, any other one by the whole alone.
      rcases hfollows with hshifted | hout
      · obtain ⟨own, hown, rfl⟩ := Option.map_eq_some_iff.mp hshifted
        obtain ⟨rest, b, hrest, hb, hpart⟩ := ih (h.perform (enabled_of_next? h.part hown)) hd
        exact ⟨own :: rest, b, .step hown hrest, hb, hpart⟩
      · exact ih (h.perform_out haction hout) hd

/-- When the whole has nothing left to do, the region is where it ends on its own. -/
theorem drain (h : Part g a c) : Part g a.drain.2 c.drain.2 := by
  obtain ⟨own, b, hrun, hb, hpart⟩ := h.runs (runs_drain c) h.whole.next?_drain
  rw [(runs_drain a).unique h.part.next?_drain hrun hb]
  exact hpart

/-! ### Giving out registers -/

/-- Shortening chains in both states does not show. -/
theorem compressAll (h : Part g a c) (ts : List Temp) :
    Part g (a.compressAll ts) (c.compressAll ts) :=
  h.foldl fun _ _ t _ h' => h'.compress t t

/-- Shortening chains of the whole does not show in the region. -/
theorem compressAll_out (h : Part g a c) (ts : List Temp) : Part g a (c.compressAll ts) :=
  h.foldl_out fun _ t _ h' => h'.compress_out t

/-- Registers that agree on the region keep the two states alike. -/
theorem setColors (h : Part g a c) (own all : TempMap Register)
    (hcolors : ∀ t ∈ g.temps, all[t]? = own[t]?) :
    Part g { a with colors := own } { c with colors := all } := by
  obtain ⟨htidy, hrep⟩ := h.part.setColors own
  obtain ⟨htidy', hrep'⟩ := h.whole.setColors all
  exact { h with
    part := htidy
    whole := htidy'
    representative := fun t ht => by rw [hrep, hrep', h.representative t ht]
    representative_out := fun t ht => by
      rw [hrep']
      exact h.representative_out t ht
    colors := hcolors }

/-- The same register is free for a temporary of the region in both. -/
theorem freeRegister? (h : Part g a c) (ht : t ∈ g.temps) :
    c.freeRegister? t = a.freeRegister? t := by
  have htaken : ∀ x ∈ (a.graph.neighbors t).toList, c.registerTaken? x = a.registerTaken? x := by
    intro x hx
    have hmem := h.mem_of_mem_neighbors (Std.ExtTreeSet.mem_toList.mp hx)
    have hroot := h.representative_mem hmem
    unfold registerTaken?
    dsimp only
    rw [h.representative x hmem, h.status _ hroot, h.colors _ hroot]
  unfold Allocator.freeRegister?
  dsimp only
  rw [h.neighbors t ht, h.registers, List.filterMap_congr htaken]

/-- A temporary of the region gets the same register in both, or is spilled in both. -/
theorem assign (h : Part g a c) (ht : t ∈ g.temps) (hstack : a.status t = .onStack) :
    Part g (a.assign t) (c.assign t) := by
  have hshort := h.compressAll (a.graph.neighbors t).toList
  have hprev : (a.compressAll (a.graph.neighbors t).toList).status t ≠ .coalesced := by
    obtain ⟨aliases, heq⟩ := compressAll_eq a (a.graph.neighbors t).toList
    rw [heq]
    show a.status t ≠ .coalesced
    rw [hstack]
    decide
  unfold Allocator.assign
  dsimp only
  rw [h.neighbors t ht, h.freeRegister? ht]
  split
  · next r _ =>
    refine (hshort.setColors _ _ fun x hx => ?_).place ht .colored hprev (by decide)
    simp only [Std.ExtTreeMap.getElem?_insert, hshort.colors x hx]
  · exact hshort.place ht .spilled hprev (by decide)

/-- Giving out a register elsewhere does not show in the region. -/
theorem assign_out (h : Part g a c) (ht : t ∉ g.temps) (hstack : c.status t = .onStack) :
    Part g a (c.assign t) := by
  have hshort := h.compressAll_out (c.graph.neighbors t).toList
  have hall := h.mem_all_of_status hstack (by decide)
  have hprev : (c.compressAll (c.graph.neighbors t).toList).status t ≠ .coalesced := by
    obtain ⟨aliases, heq⟩ := compressAll_eq c (c.graph.neighbors t).toList
    rw [heq]
    show c.status t ≠ .coalesced
    rw [hstack]
    decide
  unfold Allocator.assign
  dsimp only
  split
  · next r _ =>
    refine (hshort.setColors a.colors _ fun x hx => ?_).place_out ht hall .colored hprev (by decide)
    have hne : t ≠ x := fun heq => ht (heq ▸ hx)
    simp [Std.ExtTreeMap.getElem?_insert, hne, hshort.colors x hx]
  · exact hshort.place_out ht hall .spilled hprev (by decide)

/-- Giving out registers to the whole stack does to the region what its own part
of the stack does. -/
theorem foldl_assign (h : Part g a c) {l : List Temp} (hnodup : l.Nodup)
    (hl : ∀ t ∈ l, c.status t = .onStack) :
    Part g ((l.filter (· ∈ g.temps)).foldl Allocator.assign a) (l.foldl Allocator.assign c) := by
  induction l generalizing a c with
  | nil => exact h
  | cons t l ih =>
      obtain ⟨htl, hnodup⟩ := List.nodup_cons.mp hnodup
      have ht := hl t List.mem_cons_self
      have hrest : ∀ x ∈ l, (c.assign t).status x = .onStack := by
        intro x hx
        have hne : t ≠ x := fun heq => htl (heq ▸ hx)
        rw [(h.whole.assigns ht).status, if_neg hne]
        exact hl x (List.mem_cons_of_mem t hx)
      by_cases hmem : t ∈ g.temps
      · rw [List.filter_cons_of_pos (by simpa using hmem), List.foldl_cons, List.foldl_cons]
        exact ih (h.assign hmem (h.status t hmem ▸ ht)) hnodup hrest
      · rw [List.filter_cons_of_neg (by simpa using hmem), List.foldl_cons]
        exact ih (h.assign_out hmem ht) hnodup hrest

/-- Unwinding the stack gives out registers within the region as in the region alone. -/
theorem unwind (h : Part g a c) :
    Part g (a.stack.foldl Allocator.assign a) (c.stack.foldl Allocator.assign c) := by
  have hunwound :=
    h.foldl_assign h.whole.sorted.nodup fun t ht => (h.whole.sorted.mem_stack t).mp ht
  rwa [h.stack] at hunwound

end Part

end Allocator

end MmixCodegen
