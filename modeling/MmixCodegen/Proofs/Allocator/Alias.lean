import MmixCodegen.Allocator.State

/-!
# `MmixCodegen.Proofs.Allocator.Alias`: representatives are well defined

The chain of a temporary follows `aliases` from one coalesced temporary to the
next. `Leads a n t r` says that the chain of `t` ends at `r`, which is not
coalesced, after at most `n` links. In an `Aliased` state each chain ends like
this, with as many links as there are entries at most, which is the fuel that
`representative` has.

* `Aliased.leads_representative`: the representative is the end of the chain.
* `Aliased.compress`, `Aliased.representative_compress`: shortening a chain
  changes no representative.
* `Aliased.join`, `Aliased.representative_join`: merging one end of chains into
  another one changes the representatives of what stood for it.
-/

set_option autoImplicit false

namespace MmixCodegen

namespace Allocator

/-- The chain of `t` ends at `r` after at most `n` links. -/
inductive Leads (a : Allocator) : Nat → Temp → Temp → Prop
  | root {n : Nat} {t : Temp} (hroot : a.status t ≠ .coalesced) : Leads a n t t
  | link {n : Nat} {t next r : Temp} (hmerged : a.status t = .coalesced)
      (hnext : a.aliases[t]? = some next) (rest : Leads a n next r) : Leads a (n + 1) t r

/-- Exactly the coalesced temporaries have an entry, and each chain ends. -/
structure Aliased (a : Allocator) : Prop where
  mem_iff : ∀ t, t ∈ a.aliases ↔ a.status t = .coalesced
  ends : ∀ t, ∃ r, Leads a a.aliases.size t r

namespace Leads

variable {a b : Allocator} {n m : Nat} {t r s : Temp}

/-- A chain that ends within some links ends within more. -/
theorem mono (h : Leads a n t r) (hnm : n ≤ m) : Leads a m t r := by
  induction h generalizing m with
  | root hroot => exact .root hroot
  | link hmerged hnext _ ih =>
      obtain ⟨m, rfl⟩ : ∃ m', m = m' + 1 := ⟨m - 1, by omega⟩
      exact .link hmerged hnext (ih (by omega))

/-- The end of a chain is not merged. -/
theorem not_coalesced (h : Leads a n t r) : a.status r ≠ .coalesced := by
  induction h with
  | root hroot => exact hroot
  | link _ _ _ ih => exact ih

/-- Following a chain with enough fuel finds its end. -/
theorem followWithin_eq (h : Leads a n t r) : a.followWithin n t = r := by
  induction h with
  | @root n t hroot =>
      cases n with
      | zero => rfl
      | succ n => simp [followWithin, hroot]
  | link hmerged hnext _ ih => simp [followWithin, hmerged, hnext, ih]

/-- A chain has one end. -/
theorem unique (h : Leads a n t r) (h' : Leads a m t s) : r = s := by
  have hr := (h.mono (Nat.le_max_left n m)).followWithin_eq
  have hs := (h'.mono (Nat.le_max_right n m)).followWithin_eq
  exact hr.symm.trans hs

end Leads

/-! ### Representatives -/

/-- What is not merged represents itself. -/
theorem representative_of_not_coalesced {a : Allocator} {t : Temp} (h : a.status t ≠ .coalesced) :
    a.representative t = t :=
  Leads.followWithin_eq (.root h)

/-- Representatives depend on the entries and on what is coalesced alone. -/
theorem representative_congr {a b : Allocator} (haliases : b.aliases = a.aliases)
    (hstatus : ∀ t, b.status t = .coalesced ↔ a.status t = .coalesced) (t : Temp) :
    b.representative t = a.representative t := by
  unfold representative
  rw [haliases]
  generalize a.aliases.size = n
  induction n generalizing t with
  | zero => rfl
  | succ n ih =>
      simp only [followWithin, hstatus, haliases]
      split
      · split
        · exact ih _
        · rfl
      · rfl

/-- Chains depend on the aliases and on what is merged only. -/
theorem Leads.congr {a b : Allocator} (haliases : b.aliases = a.aliases)
    (hstatus : ∀ t, b.status t = .coalesced ↔ a.status t = .coalesced) {n : Nat} {t r : Temp}
    (h : Leads a n t r) : Leads b n t r := by
  induction h with
  | root hroot => exact .root fun hcon => hroot ((hstatus _).mp hcon)
  | link hmerged hnext _ ih => exact .link ((hstatus _).mpr hmerged) (haliases ▸ hnext) ih

/-- So does whether they are sound. -/
theorem Aliased.congr {a b : Allocator} (h : a.Aliased) (haliases : b.aliases = a.aliases)
    (hstatus : ∀ t, b.status t = .coalesced ↔ a.status t = .coalesced) : b.Aliased := by
  refine ⟨fun t => by rw [haliases, hstatus]; exact h.mem_iff t, fun t => ?_⟩
  obtain ⟨r, hr⟩ := h.ends t
  exact ⟨r, by rw [haliases]; exact hr.congr haliases hstatus⟩

namespace Aliased

variable {a : Allocator} {t u v : Temp}

/-- The representative is the end of the chain. -/
theorem leads_representative (h : a.Aliased) (t : Temp) :
    Leads a a.aliases.size t (a.representative t) := by
  obtain ⟨r, hr⟩ := h.ends t
  have heq : a.representative t = r := hr.followWithin_eq
  rw [heq]
  exact hr

/-- A representative is not merged. -/
theorem status_representative (h : a.Aliased) (t : Temp) :
    a.status (a.representative t) ≠ .coalesced :=
  (h.leads_representative t).not_coalesced

/-- Just what is not merged represents itself. -/
theorem representative_eq_self_iff (h : a.Aliased) :
    a.representative t = t ↔ a.status t ≠ .coalesced := by
  constructor
  · intro heq
    exact heq ▸ h.status_representative t
  · exact representative_of_not_coalesced

/-! ### Shortening a chain -/

/-- Chains keep their ends when one temporary is made to point to the end of its
own chain. -/
theorem leads_insert {root s : Temp} {m : Nat} (hs : Leads a m s root) (hne : s ≠ root) {n : Nat}
    {t r : Temp} (ht : Leads a n t r) :
    Leads { a with aliases := a.aliases.insert s root } n t r := by
  have hroot := hs.not_coalesced
  induction ht with
  | root hr => exact .root hr
  | @link n t next r hmerged hnext rest ih =>
      by_cases hts : s = t
      · -- The chain of `s` now has a single link.
        subst hts
        have hend : r = root := (Leads.link hmerged hnext rest).unique hs
        subst hend
        have hend : Leads { a with aliases := a.aliases.insert s r } n r r := .root hroot
        exact .link hmerged (by simp) hend
      · refine .link hmerged ?_ ih
        simp [hts, Std.ExtTreeMap.getElem?_insert, hnext]

/-- Shortening a chain step by step keeps the ends of all chains, and adds no entry. -/
theorem leads_compressWithin (root : Temp) (fuel : Nat) :
    ∀ (a : Allocator) (t : Temp) (m : Nat), Leads a m t root →
      let b : Allocator := { a with aliases := compressWithin root fuel t a.aliases }
      (∀ n x r, Leads a n x r → Leads b n x r) ∧ b.aliases.size = a.aliases.size ∧
        ∀ x, x ∈ b.aliases ↔ x ∈ a.aliases := by
  induction fuel with
  | zero =>
      intro a t m _
      exact ⟨fun _ _ _ h => h, rfl, fun _ => Iff.rfl⟩
  | succ fuel ih =>
      intro a t m ht
      by_cases hne : t = root
      · simp only [compressWithin, if_pos hne]
        exact ⟨fun _ _ _ h => h, trivial, fun _ => trivial⟩
      · cases ht with
        | root _ => exact absurd rfl hne
        | @link m _ next _ hmerged hnext rest =>
            have hstep : ∀ n x r, Leads a n x r →
                Leads { a with aliases := a.aliases.insert t root } n x r := fun n x r h =>
              leads_insert (.link hmerged hnext rest) hne h
            have hmem : t ∈ a.aliases := by
              rw [Std.ExtTreeMap.mem_iff_isSome_getElem?, hnext]
              rfl
            -- One link is shortened, the rest of the chain is left to the induction. Its
            -- hypothesis is about all states, since the entries have changed.
            obtain ⟨hleads, hsize, hkeys⟩ := ih _ next m (hstep _ _ _ rest)
            simp only [compressWithin, if_neg hne, hnext]
            refine ⟨fun n x r h => hleads n x r (hstep n x r h), ?_, fun x => ?_⟩
            · rw [hsize]
              show (a.aliases.insert t root).size = a.aliases.size
              rw [Std.ExtTreeMap.size_insert, if_pos (Std.ExtTreeMap.mem_iff_contains.mp hmem)]
            · rw [hkeys]
              show x ∈ a.aliases.insert t root ↔ x ∈ a.aliases
              rw [Std.ExtTreeMap.mem_insert, Std.LawfulEqCmp.compare_eq_iff_eq]
              constructor
              · rintro (rfl | hx)
                · exact hmem
                · exact hx
              · exact Or.inr

/-- Shortening a chain keeps all chains sound. -/
theorem compress (h : a.Aliased) (t : Temp) : (a.compress t).Aliased := by
  obtain ⟨hleads, hsize, hkeys⟩ :=
    leads_compressWithin (a.representative t) a.aliases.size a t _ (h.leads_representative t)
  refine ⟨fun x => (hkeys x).trans (h.mem_iff x), fun x => ?_⟩
  obtain ⟨r, hr⟩ := h.ends x
  refine ⟨r, ?_⟩
  show Leads (a.compress t) (a.compress t).aliases.size x r
  rw [show (a.compress t).aliases.size = a.aliases.size from hsize]
  exact hleads _ _ _ hr

/-- Shortening a chain changes no representative. -/
theorem representative_compress (h : a.Aliased) (t x : Temp) :
    (a.compress t).representative x = a.representative x := by
  obtain ⟨hleads, hsize, -⟩ :=
    leads_compressWithin (a.representative t) a.aliases.size a t _ (h.leads_representative t)
  have hx : Leads (a.compress t) a.aliases.size x (a.representative x) :=
    hleads _ _ _ (h.leads_representative x)
  have hsize' : (a.compress t).aliases.size = a.aliases.size := hsize
  unfold representative at hx ⊢
  rw [hsize']
  exact hx.followWithin_eq

/-! ### Merging the end of a chain into another one -/

variable {b : Allocator}

/-- When `v`, an end of chains, is made to point to `u`, another one, the chains
that ended at `v` get one more link. -/
theorem leads_join (hu : a.status u ≠ .coalesced) (hv : a.status v ≠ .coalesced) (hne : u ≠ v)
    (haliases : b.aliases = a.aliases.insert v u)
    (hstatus : ∀ t, b.status t = .coalesced ↔ t = v ∨ a.status t = .coalesced) {n : Nat}
    {t r : Temp} (ht : Leads a n t r) : Leads b (n + 1) t (if r = v then u else r) := by
  have hroot : b.status u ≠ .coalesced := by
    rw [ne_eq, hstatus]
    rintro (h | h)
    · exact hne h
    · exact hu h
  induction ht with
  | @root n t hr =>
      by_cases htv : t = v
      -- The chain ended at `v`.
      · subst htv
        rw [if_pos rfl]
        refine .link ((hstatus t).mpr (Or.inl rfl)) ?_ (.root hroot)
        simp [haliases]
      · rw [if_neg htv]
        refine .root fun hcon => ?_
        rcases (hstatus t).mp hcon with h | h
        · exact htv h
        · exact hr h
  | @link n t next r hmerged hnext _ ih =>
      -- `v` was an end, so this link is not the new one.
      have htv : v ≠ t := by
        rintro rfl
        exact hv hmerged
      refine .link ((hstatus t).mpr (Or.inr hmerged)) ?_ ih
      rw [haliases, Std.ExtTreeMap.getElem?_insert]
      simp [htv, hnext]

/-- A temporary that is merged for the first time brings one more entry. -/
theorem size_insert_of_not_coalesced (h : a.Aliased) (hv : a.status v ≠ .coalesced) :
    (a.aliases.insert v u).size = a.aliases.size + 1 := by
  have hnot : v ∉ a.aliases := fun hmem => hv ((h.mem_iff v).mp hmem)
  rw [Std.ExtTreeMap.size_insert, if_neg]
  exact fun hcon => hnot (Std.ExtTreeMap.mem_iff_contains.mpr hcon)

/-- Merging one end of chains into another one keeps all chains sound. -/
theorem join (h : a.Aliased) (hu : a.status u ≠ .coalesced) (hv : a.status v ≠ .coalesced)
    (hne : u ≠ v) (haliases : b.aliases = a.aliases.insert v u)
    (hstatus : ∀ t, b.status t = .coalesced ↔ t = v ∨ a.status t = .coalesced) : b.Aliased := by
  refine ⟨fun t => ?_, fun t => ?_⟩
  · rw [haliases, Std.ExtTreeMap.mem_insert, Std.LawfulEqCmp.compare_eq_iff_eq, h.mem_iff, hstatus,
      eq_comm]
  · have hleads := leads_join hu hv hne haliases hstatus (h.leads_representative t)
    rw [haliases, h.size_insert_of_not_coalesced hv]
    exact ⟨_, hleads⟩

/-- What stood for `v` stands for `u` now. -/
theorem representative_join (h : a.Aliased) (hu : a.status u ≠ .coalesced)
    (hv : a.status v ≠ .coalesced) (hne : u ≠ v) (haliases : b.aliases = a.aliases.insert v u)
    (hstatus : ∀ t, b.status t = .coalesced ↔ t = v ∨ a.status t = .coalesced) (t : Temp) :
    b.representative t = if a.representative t = v then u else a.representative t := by
  have hleads := leads_join hu hv hne haliases hstatus (h.leads_representative t)
  rw [representative.eq_def b, haliases, h.size_insert_of_not_coalesced hv]
  exact hleads.followWithin_eq

end Aliased

end Allocator

end MmixCodegen
