import Mathlib.Logic.Relation
import MmixCodegen.Proofs.Allocator.Termination

/-!
# `MmixCodegen.Proofs.Allocator.Lookup`: representatives can be looked up at any time

A temporary that was merged has an entry that points to another one. Looking up a representative
follows these pointers to their end, and then redirects all of them to that end. Both loops take no
more steps than there are entries. In an `Aliased` state this is enough to come to their ends:

* `Aliased.acyclic`: pointers do not lead back to where they started;
* `Aliased.reaches_iff`: they lead to the representative, and to nothing else that is not merged;
* `Leads.shortens`: redirecting takes no more steps than following;
* `Aliased.pointsTo_compress`: then all temporaries on the way point to the representative.

`Passes` says which states a round goes through. Among them are all those in which something is
looked up, also in the middle of an action and while registers are given out. They are `Aliased`
(`Passes.aliased`), whatever rounds there were before, and hence `lookups_resolve`.
-/

set_option autoImplicit false

namespace MmixCodegen

/-- The temporary whose moves an action gives up. -/
def Action.givesUp? : Action → Option Temp
  | freeze t => some t
  | spill t _ => some t
  | _ => none

namespace Allocator

open Relation (ReflTransGen TransGen)

variable {a b : Allocator} {n : Nat} {t next r root x : Temp}

/-! ### Following pointers -/

/-- `t` was merged, and its entry is `next`. -/
def PointsTo (a : Allocator) (t next : Temp) : Prop :=
  a.status t = .coalesced ∧ a.aliases[t]? = some next

namespace Leads

/-- The pointers of a chain lead to its end. -/
theorem reaches (h : Leads a n t r) : ReflTransGen a.PointsTo t r := by
  induction h with
  | root _ => exact .refl
  | link hmerged hnext _ ih => exact .head ⟨hmerged, hnext⟩ ih

/-- Past its first link a chain is shorter. -/
theorem tail (h : Leads a n t r) (hnext : a.PointsTo t next) : ∃ m < n, Leads a m next r := by
  cases h with
  | root hroot => exact absurd hnext.1 hroot
  | @link m _ other _ _ hother rest =>
      have heq : other = next := Option.some.inj (hother.symm.trans hnext.2)
      exact ⟨m, Nat.lt_succ_self m, heq ▸ rest⟩

/-- The chains of all temporaries on the way have the same end. -/
theorem of_reaches (h : Leads a n t r) (hreach : ReflTransGen a.PointsTo t x) : Leads a n x r := by
  induction hreach with
  | refl => exact h
  | tail _ hnext ih =>
      obtain ⟨m, hm, hrest⟩ := ih.tail hnext
      exact hrest.mono (Nat.le_of_lt hm)

/-- A chain does not come back to where it started, since it would be shorter from there. -/
theorem not_transGen (h : Leads a n t r) : ¬TransGen a.PointsTo t t := by
  intro hcycle
  induction n using Nat.strongRecOn with
  | ind n ih =>
      obtain ⟨next, hnext, hback⟩ := TransGen.head'_iff.mp hcycle
      obtain ⟨m, hm, hrest⟩ := h.tail hnext
      exact ih m hm (hrest.of_reaches hback)

end Leads

namespace Aliased

/-- Pointers never lead back to where they started. -/
theorem acyclic (h : a.Aliased) (t : Temp) : ¬TransGen a.PointsTo t t :=
  (h.leads_representative t).not_transGen

/-- Pointers lead to one temporary that is not merged, the representative. -/
theorem reaches_iff (h : a.Aliased) :
    ReflTransGen a.PointsTo t r ∧ a.status r ≠ .coalesced ↔ r = a.representative t := by
  constructor
  · rintro ⟨hreach, hroot⟩
    have hself : Leads a 0 r r := .root hroot
    exact hself.unique ((h.leads_representative t).of_reaches hreach)
  · rintro rfl
    exact ⟨(h.leads_representative t).reaches, h.status_representative t⟩

end Aliased

/-! ### Redirecting pointers -/

/-- Going from `t` to `root`, at most `n` entries are replaced by `root`, which turns the first
map into the second one. -/
inductive Shortens (root : Temp) : Nat → Temp → TempMap Temp → TempMap Temp → Prop
  | done {n : Nat} {aliases : TempMap Temp} : Shortens root n root aliases aliases
  | link {n : Nat} {t next : Temp} {aliases final : TempMap Temp} (hne : t ≠ root)
      (hnext : aliases[t]? = some next)
      (rest : Shortens root n next (aliases.insert t root) final) :
      Shortens root (n + 1) t aliases final

/-- Redirecting the pointers of a chain ends where the chain does. -/
theorem Leads.shortens (h : Leads a n t root) :
    Shortens root n t a.aliases (compressWithin root n t a.aliases) := by
  induction n generalizing a t with
  | zero =>
      cases h
      exact .done
  | succ n ih =>
      cases h with
      | root _ =>
          rw [compressWithin, if_pos rfl]
          exact .done
      | @link _ _ next _ hmerged hnext rest =>
          have hne : t ≠ root := by
            rintro rfl
            exact rest.not_coalesced hmerged
          -- The rest of the chain is still there after the first entry was replaced.
          have hrest := ih (Aliased.leads_insert (.link hmerged hnext rest) hne rest)
          simp only [compressWithin, if_neg hne, hnext]
          exact .link hne hnext hrest

namespace Shortens

variable {aliases final : TempMap Temp}

/-- What points to the root already is not redirected. -/
theorem getElem?_of_root (h : Shortens root n t aliases final) (hx : aliases[x]? = some root) :
    final[x]? = some root := by
  induction h with
  | done => exact hx
  | @link _ t _ _ _ _ _ _ ih =>
      refine ih ?_
      rw [Std.ExtTreeMap.getElem?_insert]
      split
      · rfl
      · exact hx

/-- All temporaries on the way get the new entry. The entries from `t` on are those of `a` still,
because no temporary is passed twice. -/
theorem getElem?_of_reaches (h : Shortens root n t aliases final) (ha : a.Aliased)
    (hroot : a.status root ≠ .coalesced)
    (hsame : ∀ y, ReflTransGen a.PointsTo t y → aliases[y]? = a.aliases[y]?)
    (hx : ReflTransGen a.PointsTo t x) (hne : x ≠ root) : final[x]? = some root := by
  induction h with
  | done =>
      -- The end of the chain points nowhere.
      rcases ReflTransGen.cases_head hx with heq | ⟨next, hnext, -⟩
      · exact absurd heq.symm hne
      · exact absurd hnext.1 hroot
  | @link n t next aliases final hne' hnext rest ih =>
      rcases ReflTransGen.cases_head hx with rfl | ⟨other, hother, hx⟩
      · refine rest.getElem?_of_root ?_
        simp
      · have heq : other = next := by
          rw [hsame t .refl, hother.2] at hnext
          exact Option.some.inj hnext
        subst heq
        refine ih (fun y hy => ?_) hx
        have hty : t ≠ y := by
          rintro rfl
          exact ha.acyclic t (TransGen.head' hother hy)
        rw [Std.ExtTreeMap.getElem?_insert, if_neg (by simpa using hty)]
        exact hsame y (.head hother hy)

end Shortens

/-- After a look-up all temporaries on the way point to the representative. -/
theorem Aliased.pointsTo_compress (h : a.Aliased) (hx : ReflTransGen a.PointsTo t x)
    (hne : x ≠ a.representative t) : (a.compress t).PointsTo x (a.representative t) := by
  constructor
  · show a.status x = .coalesced
    by_contra hroot
    exact hne (h.reaches_iff.mp ⟨hx, hroot⟩)
  · exact (h.leads_representative t).shortens.getElem?_of_reaches h (h.status_representative t)
      (fun _ _ => rfl) hx hne

/-! ### The states of a round -/

/-- The states that a round over `rs` goes through if it starts in `a`, step by step. Checks are
left out: they change nothing, and one that fails only keeps the round from going further. -/
inductive Passes (a : Allocator) (rs : List Routine) : Allocator → Prop
  | start : Passes a rs a
  | build : Passes a rs (a.build rs)
  /-- Some temporaries have been sorted. -/
  | sort {sorted : List Temp} (hsorted : sorted <+: (a.build rs).graph.nodes.toList) :
      Passes a rs (sorted.foldl sortNode (a.build rs).restart)
  /-- Some actions have been taken. -/
  | act {actions : List Action} {b : Allocator} (hrun : Runs (a.build rs).sort actions b) :
      Passes a rs b
  /-- The moves of `t` are about to be given up. -/
  | giveUp {actions : List Action} {action : Action} {b : Allocator} {t : Temp}
      (hrun : Runs (a.build rs).sort actions b) (hnext : b.next? = some action)
      (ht : action.givesUp? = some t) : Passes a rs (b.place t .simplify)
  /-- Some moves of `t` have been given up. -/
  | freeze {actions : List Action} {action : Action} {b : Allocator} {t : Temp}
      {frozen : List Nat} (hrun : Runs (a.build rs).sort actions b)
      (hnext : b.next? = some action) (ht : action.givesUp? = some t)
      (hfrozen : frozen <+: (b.place t .simplify).pendingMoves t) :
      Passes a rs (frozen.foldl (freezeMove ((b.place t .simplify).representative t))
        ((b.place t .simplify).compress t))
  /-- Some temporaries have been taken off the stack. -/
  | assign {unwound : List Temp} (hunwound : unwound <+: (a.build rs).sort.drain.2.stack) :
      Passes a rs (unwound.foldl assign (a.build rs).sort.drain.2)
  /-- Some merged temporaries have got the registers of their representatives. -/
  | inherit {b : Allocator} {heirs : List Temp}
      (hb : b = (a.build rs).sort.drain.2.stack.foldl assign (a.build rs).sort.drain.2)
      (hheirs : heirs <+: b.sets.coalesced.toList) : Passes a rs (heirs.foldl inherit b)
  /-- A representative has been looked up. -/
  | lookUp {b : Allocator} (h : Passes a rs b) (t : Temp) : Passes a rs (b.compress t)

variable {rs : List Routine} {action : Action} {actions : List Action}

namespace Aliased

/-- A loop keeps chains sound if each of its rounds does. -/
theorem foldl {α : Type} {f : Allocator → α → Allocator}
    (hf : ∀ (a : Allocator) (x : α), a.Aliased → (f a x).Aliased) (h : a.Aliased) (l : List α) :
    (l.foldl f a).Aliased := by
  induction l generalizing a with
  | nil => exact h
  | cons x l ih => exact ih (hf a x h)

/-- Sorting a temporary keeps chains sound. -/
theorem sortNode (h : a.Aliased) (t : Temp) : (a.sortNode t).Aliased := by
  unfold Allocator.sortNode
  split
  · next hinitial => exact h.place (by rw [hinitial]; decide) (grade_ne a t).2.2
  · exact h

/-- A temporary that is not merged can get a register or be spilled, and then the same ones are
merged as before. -/
theorem assign (h : a.Aliased) (ht : a.status t ≠ .coalesced) :
    (a.assign t).Aliased ∧ ∀ x, (a.assign t).status x = .coalesced ↔ a.status x = .coalesced := by
  have hshort : (a.compressAll (a.graph.neighbors t).toList).Aliased :=
    foldl (fun _ x h => h.compress x) h _
  obtain ⟨aliases, heq⟩ := compressAll_eq a (a.graph.neighbors t).toList
  rw [heq] at hshort
  unfold Allocator.assign
  dsimp only
  rw [heq]
  split
  · next r _ =>
      have hcolored : Aliased { a with aliases, colors := a.colors.insert t r } :=
        hshort.congr rfl fun _ => Iff.rfl
      exact ⟨hcolored.place ht (by decide), coalesced_place ht (by decide)⟩
  · exact ⟨hshort.place ht (by decide), coalesced_place ht (by decide)⟩

/-- Giving out registers to temporaries that are not merged keeps chains sound. -/
theorem foldl_assign {l : List Temp} (h : a.Aliased) (hl : ∀ t ∈ l, a.status t ≠ .coalesced) :
    (l.foldl Allocator.assign a).Aliased := by
  induction l generalizing a with
  | nil => exact h
  | cons t l ih =>
      rw [List.forall_mem_cons] at hl
      obtain ⟨hfirst, hsame⟩ := h.assign hl.1
      exact ih hfirst fun x hx hmerged => hl.2 x hx ((hsame x).mp hmerged)

/-- Inheriting a register keeps chains sound. -/
theorem inherit (h : a.Aliased) (t : Temp) : (a.inherit t).Aliased := by
  unfold Allocator.inherit
  dsimp only
  split
  · exact (h.compress t).congr rfl fun _ => Iff.rfl
  · exact h.compress t

end Aliased

/-- Chains do not depend on what is put aside. -/
theorem Alike.aliased (h : Alike a b) (ha : a.Aliased) : b.Aliased := by
  obtain ⟨active, rfl⟩ := h
  exact ha.congr rfl fun _ => Iff.rfl

/-- A temporary whose moves are given up can be simplified. -/
theorem Tidy.place_of_givesUp (h : a.Tidy) (hnext : a.next? = some action)
    (ht : action.givesUp? = some t) : (a.place t .simplify).Tidy := by
  cases enabled_of_next? h hnext with
  | freeze hstatus | spill hstatus _ _ _ =>
      cases ht
      exact h.place (h.mem_nodes_of_status hstatus (by decide))
        (by rw [hstatus]; decide) (by decide)
  | simplify _ | join _ _ _ | constrain _ _ | merge _ _ _ _ _ | postpone _ _ => cases ht

/-- The states between actions are tidy, but for the moves that were put aside before. -/
theorem Carried.alike_runs (h : a.Carried) (hrun : Runs (a.build rs).sort actions b) :
    ∃ c, c.Tidy ∧ Alike c b := by
  obtain ⟨tidied, htidy, halike⟩ := h.alike_sort rs
  obtain ⟨c, hrun', hc⟩ := halike.symm.runs hrun
  exact ⟨c, (htidy.steps_runs hrun').tidy, hc.symm⟩

/-- Chains are sound while the stack is unwound, also after other rounds. -/
theorem Carried.aliased_unwound (h : a.Carried) {unwound : List Temp}
    (hunwound : unwound <+: (a.build rs).sort.drain.2.stack) :
    (unwound.foldl Allocator.assign (a.build rs).sort.drain.2).Aliased := by
  obtain ⟨c, hc, active, heq⟩ := h.alike_runs (runs_drain (a.build rs).sort)
  rw [heq] at hunwound ⊢
  refine Aliased.foldl_assign (hc.aliased.congr rfl fun _ => Iff.rfl) fun t ht => ?_
  have hstatus : c.status t = .onStack := (hc.sorted.mem_stack t).mp (hunwound.subset ht)
  show c.status t ≠ .coalesced
  rw [hstatus]
  decide

/-- Chains are sound in every state that a round goes through. -/
theorem Passes.aliased (h : Passes a rs b) (ha : a.Carried) : b.Aliased := by
  induction h with
  | start => exact ha.aliased
  | build => exact (ha.build rs).aliased
  | sort _ =>
      have hrestart : (a.build rs).restart.Aliased :=
        (ha.build rs).aliased.congr rfl fun _ => Iff.rfl
      exact hrestart.foldl (fun _ t h => h.sortNode t) _
  -- From here on the state is compared with a tidy one, which differs in the moves put
  -- aside before.
  | act hrun =>
      obtain ⟨c, hc, halike⟩ := ha.alike_runs hrun
      exact halike.aliased hc.aliased
  | giveUp hrun hnext ht =>
      obtain ⟨c, hc, halike⟩ := ha.alike_runs hrun
      have hplace := hc.place_of_givesUp (halike.next?_eq.symm.trans hnext) ht
      exact (halike.place _ _).aliased hplace.aliased
  | @freeze actions action b t frozen hrun hnext ht _ =>
      obtain ⟨c, hc, halike⟩ := ha.alike_runs hrun
      have hplace := hc.place_of_givesUp (halike.next?_eq.symm.trans hnext) ht
      have hshort := hplace.eases_compress t
      have hfrozen := Eases.foldl (fun _ index h =>
        h.eases_freezeMove ((b.place t .simplify).representative t) index) hshort.tidy frozen
      have halike' := ((halike.place t .simplify).compress t).foldl
        (fun index h => h.freezeMove ((b.place t .simplify).representative t) index) frozen
      exact halike'.aliased hfrozen.tidy.aliased
  | assign hunwound => exact ha.aliased_unwound hunwound
  | inherit hb _ =>
      subst hb
      exact (ha.aliased_unwound ⟨[], List.append_nil _⟩).foldl (fun _ t h => h.inherit t) _
  | lookUp _ t ih => exact ih.compress t

/-- What is true between rounds is so after any rounds of a new allocator. -/
theorem carried_rounds (registers : Nat) (shielded : TempSet) (calls : List (List Routine)) :
    ((Allocator.new registers shielded).rounds calls).Carried := by
  by_cases hregisters : registers = 0
  · -- Without registers no round gets anywhere.
    have hround : ∀ rs, ((Allocator.new registers shielded).round rs).1 =
        Allocator.new registers shielded := by
      intro rs
      unfold Allocator.round
      rw [if_pos (show (Allocator.new registers shielded).registers = 0 from hregisters)]
    induction calls with
    | nil => exact carried_new registers shielded
    | cons rs calls ih =>
        rw [rounds, List.foldl_cons, hround]
        exact ih
  · exact ((carried_new registers shielded).rounds hregisters calls).1

/-- Whatever rounds there were before, and wherever in a round a representative is looked up: each
merged temporary has an entry, pointers do not go in circles, and they lead from a temporary to its
representative and to nothing else that is not merged. It takes no more steps to get there than
there are entries. As many redirect the pointers on the way, and no temporary gets another
representative by this. -/
theorem lookups_resolve (registers : Nat) (shielded : TempSet) (calls : List (List Routine))
    (rs : List Routine) (h : Passes ((Allocator.new registers shielded).rounds calls) rs b) :
    (∀ t, b.status t = .coalesced → ∃ next, b.aliases[t]? = some next) ∧
      (∀ t, ¬TransGen b.PointsTo t t) ∧
      (∀ t r, ReflTransGen b.PointsTo t r ∧ b.status r ≠ .coalesced ↔ r = b.representative t) ∧
      (∀ t, Leads b b.aliases.size t (b.representative t)) ∧
      (∀ t, Shortens (b.representative t) b.aliases.size t b.aliases (b.compress t).aliases) ∧
      (∀ t x, ReflTransGen b.PointsTo t x → x ≠ b.representative t →
        (b.compress t).PointsTo x (b.representative t)) ∧
      ∀ t x, (b.compress t).representative x = b.representative x := by
  have haliased := h.aliased (carried_rounds registers shielded calls)
  refine ⟨fun t ht => ?_, haliased.acyclic, fun t r => haliased.reaches_iff,
    haliased.leads_representative, fun t => (haliased.leads_representative t).shortens,
    fun t x hx hne => haliased.pointsTo_compress hx hne, haliased.representative_compress⟩
  have hmem := (haliased.mem_iff t).mpr ht
  rwa [Std.ExtTreeMap.mem_iff_isSome_getElem?, Option.isSome_iff_exists] at hmem

/-- A single copy. -/
def copying (dst src : Temp) : Routine :=
  { rivals with instrs := [.copy dst src] }

/-- The first round merges temporary 3 into 2, and the second one merges 2 into 1. After that
temporary 3 stands for 1, and a look-up makes it point there. -/
theorem copies_chain_resolves :
    let first := (Allocator.new 2 ∅).rounds [[copying ⟨2⟩ ⟨3⟩]]
    let b := ((first.build [copying ⟨1⟩ ⟨2⟩]).sort.drainWithin 2).2
    Passes first [copying ⟨1⟩ ⟨2⟩] b ∧ b.PointsTo ⟨3⟩ ⟨2⟩ ∧ b.PointsTo ⟨2⟩ ⟨1⟩ ∧
      b.representative ⟨3⟩ = ⟨1⟩ ∧ (b.compress ⟨3⟩).PointsTo ⟨3⟩ ⟨1⟩ ∧
      ∀ x, (b.compress ⟨3⟩).representative x = b.representative x := by
  intro first b
  have hpasses : Passes first [copying ⟨1⟩ ⟨2⟩] b := .act (runs_drainWithin 2 _)
  obtain ⟨-, -, hends, -, -, hshort, hkept⟩ :=
    lookups_resolve 2 ∅ [[copying ⟨2⟩ ⟨3⟩]] [copying ⟨1⟩ ⟨2⟩] hpasses
  have hthree : b.PointsTo ⟨3⟩ ⟨2⟩ := ⟨by decide +kernel, by decide +kernel⟩
  have htwo : b.PointsTo ⟨2⟩ ⟨1⟩ := ⟨by decide +kernel, by decide +kernel⟩
  have hone : b.status ⟨1⟩ ≠ .coalesced := by decide +kernel
  have hrep := (hends ⟨3⟩ ⟨1⟩).mp ⟨.head hthree (.single htwo), hone⟩
  have hthree' := hshort ⟨3⟩ ⟨3⟩ .refl (hrep ▸ by decide)
  rw [← hrep] at hthree'
  exact ⟨hpasses, hthree, htwo, hrep.symm, hthree', hkept ⟨3⟩⟩

end Allocator

end MmixCodegen
