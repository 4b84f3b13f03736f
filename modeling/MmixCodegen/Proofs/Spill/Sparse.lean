import MmixCodegen.Proofs.Assembly
import MmixCodegen.Proofs.Spill.Live

/-!
# `MmixCodegen.Proofs.Spill.Sparse`: shielded temporaries are never spilled

`Program.Celled` says of a program that its routines consist of cells, and that what was
made by spilling belongs to one cell each. Then any set of shielded temporaries has a
member with no more than one neighbour in it (`Celled.exists_lonely`): an address, or else
another one that spilling made, or else a return value. So no such set is dense for two
registers or more, and a round of colouring does not spill from it
(`Celled.notMem_shielded`).
-/

set_option autoImplicit false

namespace MmixCodegen

namespace Spill

/-- What spilling made for one of the cells does not occur in the other one. -/
def Cell.Apart (base : Nat) (c d : Cell) : Prop :=
  ∀ t, base ≤ t.number → t ∈ c.temps → t ∉ d.temps

instance (base : Nat) : Std.Symm (Cell.Apart base) where
  symm _ _ h t hbase hd hc := h t hbase hc hd

end Spill

namespace Program

open Spill

/-- The routines of a program consist of cells that confine the shielded temporaries. All
temporaries are below the supply, and those from `base` on belong to one cell each. -/
structure Celled (base : Nat) (shielded : TempSet) (p : Program) (css : List (List Cell)) :
    Prop where
  routines : List.Forall₂ (Routine.Celled base shielded) p.routines css
  apart : css.flatten.Pairwise (Cell.Apart base)
  below : ∀ c ∈ css.flatten, ∀ t ∈ c.temps, t.number < p.supply.next
  shielded_below : ∀ t ∈ shielded, t.number < p.supply.next
  base_le : base ≤ p.supply.next

namespace Celled

variable {base : Nat} {shielded : TempSet} {p : Program} {css : List (List Cell)} {c d : Cell}
  {t u v : Temp}

/-- Each cell of a program confines the shielded temporaries. -/
theorem confines (h : p.Celled base shielded css) (hc : c ∈ css.flatten) :
    ∃ exit rv result, rv.number < base ∧ c.Confines base shielded exit rv result := by
  obtain ⟨cs, hcs, hc⟩ := List.mem_flatten.mp hc
  obtain ⟨r, -, hr⟩ := exists_mem_of_forall₂ h.routines.flip hcs
  exact ⟨_, _, _, hr.rv, hr.confines c hc⟩

/-- Shielded temporaries that interfere are joined by a cell. -/
theorem joins_of_mem_nbrs (h : p.Celled base shielded css) (ht : t ∈ shielded) (hu : u ∈ shielded)
    (hmem : u ∈ (Interference.ofRoutines p.analyze.1.routines).nbrs t) :
    t ≠ u ∧ ∃ c ∈ css.flatten, c.Joins t u := by
  rw [Interference.mem_nbrs, Interference.mem_neighbors_ofRoutines] at hmem
  obtain ⟨hne, r', hr', i, hi, hapart⟩ := hmem
  obtain ⟨r, hr, rfl⟩ : ∃ r ∈ p.routines, r.analyze.1 = r' := by
    simpa [analyze] using hr'
  obtain ⟨cs, hcs, hcelled⟩ := exists_mem_of_forall₂ h.routines hr
  obtain ⟨index, hi⟩ := List.getElem?_of_mem hi
  obtain ⟨c, hc, hjoins⟩ := hcelled.joins_of_keepsApart hi hapart ht hu hne
  exact ⟨hne, c, List.mem_flatten.mpr ⟨cs, hcs, hc⟩, hjoins⟩

/-- A temporary from `base` on belongs to one cell. -/
theorem eq_of_mem_temps (h : p.Celled base shielded css) (hc : c ∈ css.flatten)
    (hd : d ∈ css.flatten) (hbase : base ≤ t.number) (htc : t ∈ c.temps) (htd : t ∈ d.temps) :
    c = d := by
  by_contra hne
  exact h.apart.forall hc hd hne t hbase htc htd

/-- An address has one shielded neighbour at most. -/
theorem eq_of_address (h : p.Celled base shielded css) (hc : c ∈ css.flatten)
    (ht : t ∈ c.addresses) (hu : u ∈ shielded) (hv : v ∈ shielded)
    (hmemu : u ∈ (Interference.ofRoutines p.analyze.1.routines).nbrs t)
    (hmemv : v ∈ (Interference.ofRoutines p.analyze.1.routines).nbrs t) : u = v := by
  obtain ⟨exit, rv, result, hrv, hconfines⟩ := h.confines hc
  obtain ⟨hshielded, hbase, -⟩ := hconfines.address t ht
  obtain ⟨-, d, hd, hjoins⟩ := h.joins_of_mem_nbrs hshielded hu hmemu
  obtain ⟨-, e, he, hjoins'⟩ := h.joins_of_mem_nbrs hshielded hv hmemv
  -- The address occurs in no other cell.
  obtain rfl := h.eq_of_mem_temps hd he hbase hjoins.mem_temps hjoins'.mem_temps
  have htemps : t ∈ c.temps := by simp [Cell.temps, Cell.accessed, ht]
  obtain rfl := h.eq_of_mem_temps hc hd hbase htemps hjoins.mem_temps
  exact hconfines.eq_of_joins_address hrv ht hjoins hjoins'

/-- Some member of a set of shielded temporaries has one neighbour in it at most. -/
theorem exists_lonely (h : p.Celled base shielded css) {s : Finset Temp}
    (hs : s ⊆ shielded.toFinset) (hne : s.Nonempty) :
    ∃ t ∈ s, ∀ u ∈ s, ∀ v ∈ s,
      u ∈ (Interference.ofRoutines p.analyze.1.routines).nbrs t →
        v ∈ (Interference.ofRoutines p.analyze.1.routines).nbrs t → u = v := by
  have hshielded : ∀ t ∈ s, t ∈ shielded := fun t ht => TempSet.mem_toFinset.mp (hs ht)
  -- The cases are in the order in which the allocator could take the temporaries out.
  by_cases haddress : ∃ t ∈ s, ∃ c ∈ css.flatten, t ∈ c.addresses
  · obtain ⟨t, ht, c, hc, hmem⟩ := haddress
    exact ⟨t, ht, fun u hu v hv => h.eq_of_address hc hmem (hshielded u hu) (hshielded v hv)⟩
  have hnone : ∀ t ∈ s, ∀ c ∈ css.flatten, t ∉ c.addresses :=
    fun t ht c hc hmem => haddress ⟨t, ht, c, hc, hmem⟩
  by_cases hmade : ∃ t ∈ s, base ≤ t.number
  · obtain ⟨t, ht, hbase⟩ := hmade
    refine ⟨t, ht, fun u hu v hv hmemu hmemv => ?_⟩
    obtain ⟨htu, c, hc, hjoins⟩ := h.joins_of_mem_nbrs (hshielded t ht) (hshielded u hu) hmemu
    obtain ⟨htv, d, hd, hjoins'⟩ := h.joins_of_mem_nbrs (hshielded t ht) (hshielded v hv) hmemv
    obtain rfl := h.eq_of_mem_temps hc hd hbase hjoins.mem_temps hjoins'.mem_temps
    obtain ⟨exit, rv, result, -, hconfines⟩ := h.confines hc
    exact hconfines.eq_of_joins_loaded (hnone t ht c hc) hjoins hjoins' (hnone u hu c hc)
      (hnone v hv c hc) htu htv
  · -- What is left are return values, and a cell loads one of them at most.
    obtain ⟨t, ht⟩ := hne
    refine ⟨t, ht, fun u hu v hv hmem _ => ?_⟩
    obtain ⟨htu, c, hc, hjoins⟩ := h.joins_of_mem_nbrs (hshielded t ht) (hshielded u hu) hmem
    obtain ⟨exit, rv, result, -, hconfines⟩ := h.confines hc
    have hrv : ∀ w ∈ s, w ∈ c.loaded → w = rv := by
      intro w hw hloaded
      rcases (hconfines.loaded w hloaded).2 with ⟨hbase, -⟩ | ⟨heq, -⟩
      · exact absurd ⟨w, hw, hbase⟩ hmade
      · exact heq
    obtain ⟨htl, hul⟩ := hjoins.mem_loaded (hnone t ht c hc) (hnone u hu c hc)
    exact absurd ((hrv t ht htl).trans (hrv u hu hul).symm) htu

/-- A round with two registers or more spills no shielded temporary. -/
theorem notMem_shielded (h : p.Celled base shielded css) {registers : Nat}
    (htwo : 2 ≤ registers) (hle : registers ≤ 256)
    (ht : t ∈ (Allocator.finalColoring registers shielded p.analyze.1.routines).spilled) :
    t ∉ shielded := by
  intro hshielded
  obtain ⟨s, -, hts, hdense, hsub⟩ :=
    Allocator.exists_dense_of_mem_spilled registers shielded p.analyze.1.routines hle ht
  obtain ⟨x, hx, hlonely⟩ := h.exists_lonely (hsub hshielded) ⟨t, hts⟩
  obtain ⟨u, hu, v, hv, hne⟩ := Finset.one_lt_card.mp (Nat.lt_of_lt_of_le htwo (hdense x hx))
  rw [Finset.mem_inter] at hu hv
  exact hne (hlonely u hu.2 v hv.2 hu.1 hv.1)

end Celled

end Program

end MmixCodegen
