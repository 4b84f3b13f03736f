import MmixCodegen.Proofs.Spill.Layer

/-!
# `MmixCodegen.Proofs.Spill.Round`: a round of spilling keeps the cells

`Round` is what a round of spilling does to the routines of a program, one after the
other (`Program.spill_cases`). If the program consists of cells and no shielded temporary
is spilled, then each cell gets another one around its instruction (`Rendered.layers`),
and the program still consists of cells (`Program.Celled.round`).

A spilled temporary is no longer an operand, unless it is a return value that is shielded
from then on, and all new operands are shielded (`Round.operands`).

`Draws` says of any list of things that new temporaries are handed out for one after the other, so
that no two of them get the same (`Draws.pairwise`).
-/

set_option autoImplicit false

namespace MmixCodegen

/-! ### Drawing from a supply -/

/-- Some things are made of others, one after the other, and each of them may get new temporaries
from the supply between `first` and `last`. -/
inductive Draws {α β : Type} (old : α → Temp → Prop) (new : β → Temp → Prop) :
    List α → List β → Nat → Nat → Prop
  | nil {first last : Nat} (le : first ≤ last) : Draws old new [] [] first last
  | cons {a : α} {b : β} {as : List α} {bs : List β} {first mid last : Nat} (le : first ≤ mid)
      (temps : ∀ t, new b t → old a t ∨ (first ≤ t.number ∧ t.number < mid))
      (rest : Draws old new as bs mid last) : Draws old new (a :: as) (b :: bs) first last

namespace Draws

variable {α β : Type} {old : α → Temp → Prop} {new : β → Temp → Prop} {as : List α} {bs : List β}
  {first last : Nat}

/-- The supply does not go down. -/
theorem le (h : Draws old new as bs first last) : first ≤ last := by
  induction h with
  | nil hle => exact hle
  | cons hle _ _ ih => exact Nat.le_trans hle ih

/-- Only some temporaries count. -/
theorem restrict (h : Draws old new as bs first last) (P : Temp → Prop) :
    Draws (fun a t => old a t ∧ P t) (fun b t => new b t ∧ P t) as bs first last := by
  induction h with
  | nil hle => exact .nil hle
  | cons hle htemps _ ih =>
      exact .cons hle (fun t ht => (htemps t ht.1).imp_left fun hold => ⟨hold, ht.2⟩) ih

/-- What each thing mentions was there before, or was drawn from the supply on the way. -/
theorem forall₂ (h : Draws old new as bs first last) :
    List.Forall₂ (fun a b => ∀ t, new b t → old a t ∨ (first ≤ t.number ∧ t.number < last))
      as bs := by
  induction h with
  | nil => exact .nil
  | cons hle htemps hrest ih =>
      have hlast := hrest.le
      refine .cons (fun t ht => ?_) (ih.imp fun a b hab t ht => ?_)
      · exact (htemps t ht).imp_right fun hnew => by omega
      · exact (hab t ht).imp_right fun hnew => by omega

/-- What is new in one of them is not in the others. -/
theorem pairwise (h : Draws old new as bs first last)
    (hold : as.Pairwise fun a a' => ∀ t, old a t → ¬old a' t)
    (hbelow : ∀ a ∈ as, ∀ t, old a t → t.number < first) :
    bs.Pairwise fun b b' => ∀ t, new b t → ¬new b' t := by
  induction h with
  | nil => exact .nil
  | @cons a b as bs first mid last hle htemps hrest ih =>
      rw [List.forall_mem_cons] at hbelow
      rw [List.pairwise_cons] at hold ⊢
      refine ⟨fun b' hb' t ht ht' => ?_, ih hold.2 fun a ha t ht =>
        Nat.lt_of_lt_of_le (hbelow.2 a ha t ht) hle⟩
      obtain ⟨a', ha', hnew'⟩ := exists_mem_of_forall₂ hrest.forall₂.flip hb'
      -- Old temporaries have lower numbers than new ones, and the new ones have different ranges.
      rcases htemps t ht with hin | hin <;> rcases hnew' t ht' with hin' | hin'
      · exact hold.1 a' ha' t hin hin'
      · have hlt := hbelow.1 t hin
        omega
      · have hlt := hbelow.2 a' ha' t hin'
        omega
      · omega

end Draws

namespace Spill

variable {spilled : TempSet} {r : Routine} {is js : List Instr} {cs : List Cell} {st st' : State}

/-! ### Parts of the code -/

/-- The cells of code in two parts are those of one and those of the other. -/
theorem Rendered.append_inv (h : Rendered spilled r (is ++ js) cs st st') :
    ∃ ds es mid, cs = ds ++ es ∧ Rendered spilled r is ds st mid ∧
      Rendered spilled r js es mid st' := by
  induction is generalizing cs st with
  | nil => exact ⟨[], cs, st, rfl, .nil st, h⟩
  | cons i is ih =>
      cases h with
      | cons hrenders hadvances hrest =>
          obtain ⟨ds, es, mid, rfl, hds, hes⟩ := ih hrest
          exact ⟨_ :: ds, es, mid, rfl, .cons hrenders hadvances hds, hes⟩

/-- Instructions over other temporaries stay as they are, if they do not jump. -/
theorem Rendered.flatMap_toList_of_untouched (h : Rendered spilled r is cs st st')
    (huntouched : ∀ i ∈ is, (∀ t ∈ i.operands, t ∉ spilled) ∧ i.jumps = []) :
    cs.flatMap Cell.toList = is := by
  induction h with
  | nil st => rfl
  | @cons i is c cs st mid st' ρ hrenders hadvances hrest ih =>
      rw [List.forall_mem_cons] at huntouched
      obtain ⟨⟨hoperands, hjumps⟩, htail⟩ := huntouched
      -- No operand of `i` is spilled and it does not leave, so the cell is `i` alone.
      have hnone : ∀ ts : List Temp, (∀ t ∈ ts, t ∈ i.operands) → spilledOf spilled ts = [] := by
        intro ts hts
        refine List.eq_nil_iff_forall_not_mem.mpr fun t ht => ?_
        exact hoperands t (hts t (mem_spilledOf.mp ht).1) (mem_spilledOf.mp ht).2
      have hleaves : leaves spilled r i = false := by simp [leaves, hjumps]
      have hloads : c.loads = [] := by
        have hloaded := hrenders.loaded_eq
        rw [hnone i.uses fun t ht => List.mem_append_left _ ht, hleaves] at hloaded
        exact List.map_eq_nil_iff.mp hloaded
      have hstores : c.stores = [] := by
        have hstored := hrenders.stored_eq
        rw [hnone i.defs fun t ht => List.mem_append_right _ ht] at hstored
        exact List.map_eq_nil_iff.mp hstored
      have hbody : c.body = i := by
        rw [hrenders.body]
        exact Instr.rename_eq_self fun t ht => hrenders.rename_eq (hoperands t ht)
      rw [List.flatMap_cons, ih htail, Cell.toList, hloads, hstores, hbody]
      rfl

/-! ### Layers -/

/-- A cell with another one around its instruction, for which the supply went from `lo` to `hi`. -/
inductive Layered (spilled : TempSet) (r : Routine) (lo hi : Nat) (c : Cell) : Cell → Prop
  | intro {d : Cell} {i : Instr} {slots : SlotTable} {ρ : Temp → Temp} (mem : i ∈ r.instrs)
      (kind : i.kind = c.body.kind)
      (renders : d.Renders r.frame spilled (leaves spilled r i) i lo hi slots ρ) :
      Layered spilled r lo hi c (c.layer d)

/-- Each cell gets another one around its instruction, from the supply
between `first` and `last`. -/
inductive Layers (spilled : TempSet) (r : Routine) : List Cell → List Cell → Nat → Nat → Prop
  | nil {first last : Nat} (h : first ≤ last) : Layers spilled r [] [] first last
  | cons {c e : Cell} {cs es : List Cell} {first lo hi last : Nat}
      (layered : Layered spilled r lo hi c e) (lower : first ≤ lo) (upper : lo ≤ hi)
      (rest : Layers spilled r cs es hi last) : Layers spilled r (c :: cs) (e :: es) first last

/-- The supply may have started lower. -/
theorem Layers.mono_left {ds : List Cell} {first first' last : Nat}
    (h : Layers spilled r cs ds first last) (hle : first' ≤ first) :
    Layers spilled r cs ds first' last := by
  cases h with
  | nil hlast => exact .nil (Nat.le_trans hle hlast)
  | cons layered lower upper rest => exact .cons layered (Nat.le_trans hle lower) upper rest

/-- Instructions that do the same as untouched ones are untouched. -/
theorem untouched_of_map_kind {js : List Instr} (hkinds : is.map Instr.kind = js.map Instr.kind)
    (hjs : ∀ j ∈ js, (∀ t ∈ j.operands, t ∉ spilled) ∧ j.jumps = []) :
    ∀ i ∈ is, (∀ t ∈ i.operands, t ∉ spilled) ∧ i.jumps = [] := by
  intro i hi
  have hmem : i.kind ∈ js.map Instr.kind := hkinds ▸ List.mem_map_of_mem hi
  obtain ⟨j, hj, hkind⟩ := List.mem_map.mp hmem
  have hboth := hjs j hj
  rwa [Instr.operands, Instr.uses_congr hkind, Instr.defs_congr hkind,
    Instr.jumps_congr hkind] at hboth

/-- A cell whose accesses are untouched gets another one around its instruction. -/
theorem Rendered.layer {c : Cell} (h : Rendered spilled r is cs st st')
    (hmem : ∀ i ∈ is, i ∈ r.instrs)
    (hkinds : is.map Instr.kind = c.toList.map Instr.kind)
    (hfree : ∀ t ∈ c.accessed, t ∉ spilled) :
    ∃ e lo hi, Layered spilled r lo hi c e ∧ st.supply.next ≤ lo ∧ lo ≤ hi ∧
      hi ≤ st'.supply.next ∧
      (cs.flatMap Cell.toList).map Instr.kind = e.toList.map Instr.kind := by
  rw [Cell.toList, List.map_append, List.map_cons] at hkinds
  obtain ⟨as, tail, rfl, has, htail⟩ := List.map_eq_append_iff.mp hkinds
  obtain ⟨i, bs, rfl, hi, hbs⟩ := List.map_eq_cons_iff.mp htail
  -- The loads and the stores stay as they are.
  have hloads : ∀ j ∈ c.loads.flatMap Access.load,
      (∀ t ∈ j.operands, t ∉ spilled) ∧ j.jumps = [] := by
    intro j hj
    obtain ⟨a, -, hstraight⟩ := List.mem_flatMap.mp hj
    exact ⟨fun t ht => hfree t (Cell.mem_accessed_of_loads hj ht),
      (Access.straight (.inl hstraight)).2.1⟩
  have hstores : ∀ j ∈ c.stores.flatMap Access.store,
      (∀ t ∈ j.operands, t ∉ spilled) ∧ j.jumps = [] := by
    intro j hj
    obtain ⟨a, -, hstraight⟩ := List.mem_flatMap.mp hj
    exact ⟨fun t ht => hfree t (Cell.mem_accessed_of_stores hj ht),
      (Access.straight (.inr hstraight)).2.1⟩
  obtain ⟨ds, es, mid, rfl, hds, hes⟩ := h.append_inv
  cases hes with
  | @cons _ _ d es' _ mid' _ ρ hrenders hadvances hrest =>
      refine ⟨c.layer d, _, _, .intro (hmem i (by simp)) hi hrenders, hds.advances.supply,
        hadvances.supply, hrest.advances.supply, ?_⟩
      rw [List.flatMap_append, List.flatMap_cons,
        hds.flatMap_toList_of_untouched (untouched_of_map_kind has hloads),
        hrest.flatMap_toList_of_untouched (untouched_of_map_kind hbs hstores), Cell.toList_layer]
      simp only [List.map_append, has, hbs, List.append_assoc]

/-- If nothing that is accessed is spilled, a round puts another cell around each instruction of
a cell. -/
theorem Rendered.layers (h : Rendered spilled r is cs st st') {olds : List Cell}
    (hmem : ∀ i ∈ is, i ∈ r.instrs)
    (hkinds : is.map Instr.kind = (olds.flatMap Cell.toList).map Instr.kind)
    (hfree : ∀ c ∈ olds, ∀ t ∈ c.accessed, t ∉ spilled) :
    ∃ ds, Layers spilled r olds ds st.supply.next st'.supply.next ∧
      (cs.flatMap Cell.toList).map Instr.kind = (ds.flatMap Cell.toList).map Instr.kind := by
  induction olds generalizing is cs st with
  | nil =>
      rw [List.flatMap_nil, List.map_nil, List.map_eq_nil_iff] at hkinds
      subst hkinds
      cases h
      exact ⟨[], .nil (Nat.le_refl _), rfl⟩
  | cons c olds ih =>
      rw [List.flatMap_cons, List.map_append] at hkinds
      -- The instructions of the first old cell come first, and the cells that render them
      -- are one layer over it.
      obtain ⟨is, js, rfl, his, hjs⟩ := List.map_eq_append_iff.mp hkinds
      rw [List.forall_mem_cons] at hfree
      rw [List.forall_mem_append] at hmem
      obtain ⟨bs, es, mid, rfl, hbs, hes⟩ := h.append_inv
      obtain ⟨e, lo, hi, hlayered, hlower, hle, hupper, hcell⟩ := hbs.layer hmem.1 his hfree.1
      obtain ⟨ds, hlayers, hrest⟩ := ih hes hmem.2 hjs hfree.2
      refine ⟨e :: ds, .cons hlayered hlower hle (hlayers.mono_left hupper), ?_⟩
      rw [List.flatMap_append, List.map_append, hcell, hrest, List.flatMap_cons, List.map_append]

/-- The supply does not go down. -/
theorem Layers.le {ds : List Cell} {first last : Nat} (h : Layers spilled r cs ds first last) :
    first ≤ last := by
  induction h with
  | nil h => exact h
  | cons _ hlower hupper _ ih => exact Nat.le_trans (Nat.le_trans hlower hupper) ih

/-- Each new cell is an old one with another one around its instruction. -/
theorem Layers.exists_of_mem {ds : List Cell} {first last : Nat}
    (h : Layers spilled r cs ds first last) {e : Cell} (he : e ∈ ds) :
    ∃ c ∈ cs, ∃ lo hi, Layered spilled r lo hi c e ∧ first ≤ lo ∧ hi ≤ last := by
  induction h with
  | nil => cases he
  | @cons c d cs ds first lo hi last hlayered hlower hupper hrest ih =>
      rcases List.mem_cons.mp he with rfl | he
      · exact ⟨c, List.mem_cons_self, lo, hi, hlayered, hlower, hrest.le⟩
      · obtain ⟨c', hc', lo', hi', hlayered', hlower', hupper'⟩ := ih he
        exact ⟨c', List.mem_cons_of_mem _ hc', lo', hi', hlayered', by omega, hupper'⟩

/-! ### New temporaries -/

/-- Each cell may have new temporaries, from the supply between `first` and `last`. -/
inductive Grows (base : Nat) : List Cell → List Cell → Nat → Nat → Prop
  | nil {first last : Nat} (h : first ≤ last) : Grows base [] [] first last
  | cons {c d : Cell} {cs ds : List Cell} {first mid last : Nat} (le : first ≤ mid)
      (temps : ∀ t ∈ d.temps, base ≤ t.number →
        t ∈ c.temps ∨ (first ≤ t.number ∧ t.number < mid))
      (rest : Grows base cs ds mid last) : Grows base (c :: cs) (d :: ds) first last

namespace Grows

variable {base first mid last : Nat} {ds cs' ds' : List Cell}

/-- The supply may have started lower. -/
theorem mono_left (h : Grows base cs ds first last) {first' : Nat} (hle : first' ≤ first) :
    Grows base cs ds first' last := by
  cases h with
  | nil h => exact .nil (Nat.le_trans hle h)
  | cons hmid htemps hrest =>
      refine .cons (Nat.le_trans hle hmid) (fun t ht hbase => ?_) hrest
      exact (htemps t ht hbase).imp_right fun hnew => ⟨Nat.le_trans hle hnew.1, hnew.2⟩

/-- Cells may grow one list after the other. -/
theorem append (h : Grows base cs ds first mid) (h' : Grows base cs' ds' mid last) :
    Grows base (cs ++ cs') (ds ++ ds') first last := by
  induction h with
  | nil hle => exact h'.mono_left hle
  | cons hle htemps _ ih => exact .cons hle htemps (ih h')

/-- Cells that grow draw their new temporaries from the supply. -/
theorem draws (h : Grows base cs ds first last) :
    Draws (fun c t => t ∈ c.temps ∧ base ≤ t.number) (fun d t => t ∈ d.temps ∧ base ≤ t.number)
      cs ds first last := by
  induction h with
  | nil hle => exact .nil hle
  | cons hle htemps _ ih =>
      exact .cons hle (fun t ht => (htemps t ht.1 ht.2).imp_left fun hold => ⟨hold, ht.2⟩) ih

/-- A temporary that is not from the start was in some cell before, or is new. -/
theorem mem_temps (h : Grows base cs ds first last) {d : Cell} (hd : d ∈ ds) {t : Temp}
    (ht : t ∈ d.temps) (hbase : base ≤ t.number) :
    (∃ c ∈ cs, t ∈ c.temps) ∨ (first ≤ t.number ∧ t.number < last) := by
  obtain ⟨c, hc, htemps⟩ := exists_mem_of_forall₂ h.draws.forall₂.flip hd
  exact (htemps t ⟨ht, hbase⟩).imp_left fun hold => ⟨c, hc, hold.1⟩

/-- What is new in a cell is not in the others. -/
theorem pairwise (h : Grows base cs ds first last) (hcs : cs.Pairwise (Cell.Apart base))
    (hbelow : ∀ c ∈ cs, ∀ t ∈ c.temps, t.number < first) : ds.Pairwise (Cell.Apart base) := by
  refine (h.draws.pairwise (hcs.imp ?_) fun c hc t ht => hbelow c hc t ht.1).imp ?_
  · exact fun hapart t ht ht' => hapart t ht.2 ht.1 ht'.1
  · exact fun hapart t hbase ht ht' => hapart t ⟨ht, hbase⟩ ⟨ht', hbase⟩

end Grows

/-- A temporary of a layered cell was there before, or was drawn for the new cell. -/
theorem Layered.mem_temps {base lo hi : Nat} {c e : Cell} (h : Layered spilled r lo hi c e)
    (hrv : r.frame.rv.number < base) {t : Temp} (ht : t ∈ e.temps) (hbase : base ≤ t.number) :
    t ∈ c.temps ∨ (lo ≤ t.number ∧ t.number < hi) := by
  obtain ⟨-, hkind, hrenders⟩ := h
  rcases List.mem_append.mp ht with ht | ht
  · rcases Cell.mem_accessed_layer ht with ht | ht
    · exact .inl (List.mem_append_left _ ht)
    · rcases hrenders.mem_accessed ht with hnew | ⟨-, rfl⟩
      · exact .inr hnew
      · omega
  · rcases hrenders.mem_operands ht with hnew | ⟨ht, -⟩
    · exact .inr ⟨hnew.1, hnew.2.1⟩
    · refine .inl (List.mem_append_right _ ?_)
      rwa [Instr.operands, ← Instr.uses_congr hkind, ← Instr.defs_congr hkind]

/-- Cells that get another one around their instructions grow. -/
theorem Layers.grows {base first last : Nat} {ds : List Cell}
    (h : Layers spilled r cs ds first last) (hrv : r.frame.rv.number < base) :
    Grows base cs ds first last := by
  induction h with
  | nil hle => exact .nil hle
  | cons hlayered hlower hupper _ ih =>
      refine .cons (Nat.le_trans hlower hupper) (fun t ht hbase => ?_) ih
      exact (hlayered.mem_temps hrv ht hbase).imp_right fun hnew =>
        ⟨Nat.le_trans hlower hnew.1, hnew.2⟩

/-! ### Routines -/

/-- A round does not make a routine write its return value. -/
theorem Rendered.definesResult (h : Rendered spilled r is cs st st')
    (hrv : r.frame.rv.number < st.supply.next) {j : Instr} (hj : j ∈ cs.flatMap Cell.toList)
    (hdef : r.frame.rv ∈ j.defs) : r.definesResult = true ∨ ∃ i ∈ is, r.frame.rv ∈ i.defs := by
  induction h with
  | nil => cases hj
  | @cons i is c cs st mid st' ρ hrenders hadvances hrest ih =>
      -- All that an access writes is new, but for the return value loaded at an exit.
      have haccessed : r.frame.rv ∈ c.accessed → r.definesResult = true := by
        intro hmem
        rcases hrenders.mem_accessed hmem with hnew | ⟨hleaves, -⟩
        · omega
        · exact (leaves_eq_true.mp hleaves).1.2
      rw [List.flatMap_cons, List.mem_append, Cell.toList, List.mem_append, List.mem_cons] at hj
      rcases hj with (hj | rfl | hj) | hj
      · exact .inl (haccessed (Cell.mem_accessed_of_loads hj (List.mem_append_right _ hdef)))
      · rcases hrenders.mem_defs hdef with hstored | ⟨hdef, -⟩
        · exact .inl (haccessed (List.mem_append_right _ hstored))
        · exact .inr ⟨i, List.mem_cons_self, hdef⟩
      · exact .inl (haccessed (Cell.mem_accessed_of_stores hj (List.mem_append_right _ hdef)))
      · have hlt := Nat.lt_of_lt_of_le hrv hadvances.supply
        rcases ih hlt hj with hresult | ⟨i', hi', hdef⟩
        · exact .inl hresult
        · exact .inr ⟨i', List.mem_cons_of_mem _ hi', hdef⟩

/-- What was spilled is no operand any more, unless it is shielded now, and neither is
anything else that is not. -/
theorem Rendered.operands (h : Rendered spilled r is cs st st') {j : Instr}
    (hj : j ∈ cs.flatMap Cell.toList) {t : Temp} (ht : t ∈ j.operands) :
    (∃ i ∈ is, t ∈ i.operands ∧ t ∉ spilled) ∨ t ∈ st'.shielded := by
  induction h with
  | nil => cases hj
  | @cons i is c cs st mid st' ρ hrenders hadvances hrest ih =>
      have hkept : t ∈ mid.shielded → t ∈ st'.shielded :=
        fun hmid => (hrest.advances.shielded t).mpr (.inl hmid)
      rw [List.flatMap_cons, List.mem_append] at hj
      rcases hj with hj | hj
      · rcases List.mem_append.mp (Cell.mem_temps_of_mem_operands hj ht) with ht | ht
        · refine .inr (hkept ((hadvances.shielded t).mpr (.inr ?_)))
          rcases hrenders.mem_accessed ht with hnew | ⟨hleaves, rfl⟩
          · exact .inl hnew
          · rw [kept, if_pos hleaves]
            exact .inr (List.mem_singleton_self _)
        · rcases hrenders.mem_operands ht with ⟨hfirst, hlast, -⟩ | hold
          · exact .inr (hkept ((hadvances.shielded t).mpr (.inr (.inl ⟨hfirst, hlast⟩))))
          · exact .inl ⟨i, List.mem_cons_self, hold⟩
      · exact (ih hj).imp_left fun ⟨i', hi', hold⟩ => ⟨i', List.mem_cons_of_mem _ hi', hold⟩

/-- The spilled code writes the return value only if the old code does. -/
theorem Rendered.definesResult_of_flatMap (h : Rendered spilled r r.instrs cs st st')
    (hrv : r.frame.rv.number < st.supply.next) {slots : SlotTable}
    (hdefines : Routine.definesResult { r with instrs := cs.flatMap Cell.toList, slots } = true) :
    r.definesResult = true := by
  obtain ⟨j, hj, hdef⟩ := List.any_eq_true.mp hdefines
  rcases h.definesResult hrv hj (List.contains_iff_mem.mp hdef) with hr | ⟨i, hi, hdef⟩
  · exact hr
  · exact List.any_eq_true.mpr ⟨i, hi, List.contains_iff_mem.mpr hdef⟩

/-- The return value is shielded if it is loaded. -/
theorem Rendered.rv_mem_shielded (h : Rendered spilled r is cs st st') {i : Instr} (hi : i ∈ is)
    (hleaves : leaves spilled r i = true) : r.frame.rv ∈ st'.shielded := by
  refine (h.advances.shielded _).mpr (.inr (.inr (List.mem_flatMap.mpr ⟨i, hi, ?_⟩)))
  rw [kept, if_pos hleaves]
  exact List.mem_singleton_self _

end Spill

namespace Routine

open Spill

variable {base mark : Nat} {spilled shielded shielded' : TempSet} {r : Routine}
  {olds cs : List Cell} {st st' : State}

/-- A routine in cells still consists of cells after a round. -/
theorem Celled.rendered (h : r.Celled base shielded olds)
    (hrendered : Rendered spilled r r.instrs cs st st')
    (hwidens : Widens spilled shielded shielded' mark) (hbase : base ≤ mark)
    (hmark : mark ≤ st.supply.next) (hbelow : ∀ c ∈ olds, ∀ t ∈ c.temps, t.number < mark)
    (hsub : ∀ t ∈ st'.shielded, t ∈ shielded') :
    ∃ ds, Celled base shielded'
        { r with instrs := cs.flatMap Cell.toList, slots := st'.slots } ds ∧
      Grows base olds ds st.supply.next st'.supply.next := by
  -- Loads and stores are over shielded temporaries, which are not spilled.
  have hfree : ∀ c ∈ olds, ∀ t ∈ c.accessed, t ∉ spilled := by
    intro c hc t ht hspilled
    exact hwidens.disjoint t hspilled ((h.confines c hc).mem_shielded ht)
  obtain ⟨ds, hlayers, hkinds⟩ := hrendered.layers (fun _ hi => hi) h.kinds hfree
  refine ⟨ds, ⟨hkinds, h.rv, fun e he => ?_⟩, hlayers.grows h.rv⟩
  obtain ⟨c, hc, lo, hi, hlayered, hlower, hupper⟩ := hlayers.exists_of_mem he
  obtain ⟨hmem, hkind, hrenders⟩ := hlayered
  have hwraps : Cell.Wraps base mark spilled shielded shielded' r.exit r.frame _ _ lo hi _ _ c _ :=
    { hwidens with
      renders := hrenders
      kind := hkind
      mark_le := Nat.le_trans hmark hlower
      base_le := hbase
      rv := h.rv
      below := hbelow c hc
      shields := fun t hlo hhi => hsub t ((hrendered.advances.shielded t).mpr
        (.inr (.inl ⟨Nat.le_trans hlower hlo, Nat.lt_of_lt_of_le hhi hupper⟩)))
      leaves := fun hleaves => ⟨(leaves_eq_true.mp hleaves).1.1,
        hsub _ (hrendered.rv_mem_shielded hmem hleaves), (leaves_eq_true.mp hleaves).2⟩ }
  refine hwraps.confines (h.confines c hc) fun t ht hshielded hexit => ?_
  obtain ⟨hdefines, rfl⟩ := exitLive_eq_some.mp ht
  have hdefines : r.definesResult = true :=
    hrendered.definesResult_of_flatMap (Nat.lt_of_lt_of_le h.rv (Nat.le_trans hbase hmark)) hdefines
  -- The return value was shielded before, or it is spilled now and loaded here.
  rcases hwidens.old _ hshielded (Nat.lt_of_lt_of_le h.rv hbase) with hold | hspilled
  · exact .inl ⟨hold, exitLive_eq_some.mpr ⟨hdefines, rfl⟩⟩
  · exact .inr ⟨leaves_eq_true.mpr ⟨⟨hspilled, hdefines⟩, hexit⟩, rfl⟩

end Routine

/-! ### Programs -/

namespace Spill

/-- A round of spilling over some routines, from a supply and shielded temporaries to others. -/
inductive Round (spilled : TempSet) :
    Supply → TempSet → List Routine → List Routine → Supply → TempSet → Prop
  | nil (supply : Supply) (shielded : TempSet) : Round spilled supply shielded [] [] supply shielded
  | cons {r : Routine} {rs rs' : List Routine} {cs : List Cell} {supply supply' : Supply}
      {shielded shielded' : TempSet} {st : State}
      (rendered : Rendered spilled r r.instrs cs ⟨supply, shielded, r.slots⟩ st)
      (rest : Round spilled st.supply st.shielded rs rs' supply' shielded') :
      Round spilled supply shielded (r :: rs)
        ({ r with instrs := cs.flatMap Cell.toList, slots := st.slots } :: rs') supply' shielded'

namespace Round

variable {spilled shielded shielded' : TempSet} {supply supply' : Supply} {rs rs' : List Routine}
  {t : Temp}

/-- The supply does not go down in a round. -/
theorem supply_le (h : Round spilled supply shielded rs rs' supply' shielded') :
    supply.next ≤ supply'.next := by
  induction h with
  | nil => exact Nat.le_refl _
  | cons hrendered _ ih => exact Nat.le_trans hrendered.advances.supply ih

/-- What is shielded stays so. -/
theorem subset (h : Round spilled supply shielded rs rs' supply' shielded') (ht : t ∈ shielded) :
    t ∈ shielded' := by
  induction h with
  | nil => exact ht
  | cons hrendered _ ih => exact ih ((hrendered.advances.shielded t).mpr (.inl ht))

/-- What a round shields was made in it, or is a return value that it spills. -/
theorem mem_shielded (h : Round spilled supply shielded rs rs' supply' shielded')
    (ht : t ∈ shielded') :
    t ∈ shielded ∨ (supply.next ≤ t.number ∧ t.number < supply'.next) ∨
      (t ∈ spilled ∧ ∃ r ∈ rs, t = r.frame.rv) := by
  induction h with
  | nil => exact .inl ht
  | @cons r rs rs' cs supply supply' shielded shielded' st hrendered hrest ih =>
      have hadvances := hrendered.advances
      have hle : supply.next ≤ st.supply.next := hadvances.supply
      have hle' := hrest.supply_le
      -- The other routines start from the shielded temporaries that the first one leaves.
      rcases ih ht with ht | hnew | ⟨hspilled, r', hr', heq⟩
      · rcases (hadvances.shielded t).mp ht with hold | ⟨hfirst, hlast⟩ | hresult
        · exact .inl hold
        · exact .inr (.inl ⟨hfirst, by omega⟩)
        · obtain ⟨i, -, hi⟩ := List.mem_flatMap.mp hresult
          rw [kept] at hi
          split at hi
          · next hleaves =>
              cases List.mem_singleton.mp hi
              exact .inr (.inr ⟨(leaves_eq_true.mp hleaves).1.1, r, List.mem_cons_self, rfl⟩)
          · cases hi
      · exact .inr (.inl ⟨by omega, hnew.2⟩)
      · exact .inr (.inr ⟨hspilled, r', List.mem_cons_of_mem _ hr', heq⟩)

/-- An operand after a round was one before and is not spilled, or it is shielded. -/
theorem operands (h : Round spilled supply shielded rs rs' supply' shielded') {r' : Routine}
    (hr' : r' ∈ rs') {j : Instr} (hj : j ∈ r'.instrs) (ht : t ∈ j.operands) :
    (∃ r ∈ rs, ∃ i ∈ r.instrs, t ∈ i.operands ∧ t ∉ spilled) ∨ t ∈ shielded' := by
  induction h with
  | nil => cases hr'
  | @cons r rs rs' cs supply supply' shielded shielded' st hrendered hrest ih =>
      rcases List.mem_cons.mp hr' with rfl | hr'
      · rcases hrendered.operands hj ht with ⟨i, hi, hold⟩ | hnew
        · exact .inl ⟨r, List.mem_cons_self, i, hi, hold⟩
        · exact .inr (hrest.subset hnew)
      · exact (ih hr').imp_left fun ⟨r, hr, hold⟩ => ⟨r, List.mem_cons_of_mem _ hr, hold⟩

/-- Routines in cells still consist of cells after a round. -/
theorem celled (h : Round spilled supply shielded rs rs' supply' shielded') {base mark : Nat}
    {before after : TempSet} {css : List (List Cell)}
    (hcelled : List.Forall₂ (Routine.Celled base before) rs css)
    (hwidens : Widens spilled before after mark) (hbase : base ≤ mark)
    (hmark : mark ≤ supply.next) (hbelow : ∀ c ∈ css.flatten, ∀ t ∈ c.temps, t.number < mark)
    (hsub : ∀ t ∈ shielded', t ∈ after) :
    ∃ dss, List.Forall₂ (Routine.Celled base after) rs' dss ∧
      Grows base css.flatten dss.flatten supply.next supply'.next := by
  induction h generalizing css with
  | nil =>
      cases hcelled
      exact ⟨[], .nil, .nil (Nat.le_refl _)⟩
  | @cons r rs rs' cs supply supply' shielded shielded' st hrendered hrest ih =>
      obtain ⟨olds, css, hr, hrs, rfl⟩ := List.forall₂_cons_left_iff.mp hcelled
      rw [List.flatten_cons, List.forall_mem_append] at hbelow
      obtain ⟨ds, hds, hgrows⟩ := hr.rendered hrendered hwidens hbase hmark hbelow.1
        fun t ht => hsub t (hrest.subset ht)
      have hmark' : mark ≤ st.supply.next := Nat.le_trans hmark hrendered.advances.supply
      obtain ⟨dss, hdss, hgrows'⟩ := ih hrs hmark' hbelow.2 hsub
      exact ⟨ds :: dss, .cons hds hdss, hgrows.append hgrows'⟩

end Round

end Spill

namespace Program

open Spill

variable {base : Nat} {spilled shielded : TempSet} {p : Program} {css : List (List Cell)}

/-- Spilling from a program fails for want of room, or it is a round over its routines. -/
theorem spill_cases (spilled shielded : TempSet) (p : Program) :
    (∃ e, (p.spill spilled shielded).outcome = .error e ∧ e.Exhausted) ∨
      ∃ next, (p.spill spilled shielded).outcome = .ok next ∧
        Round spilled p.supply shielded p.routines next.program.routines next.program.supply
          next.shielded := by
  rw [spill]
  generalize p.supply = supply
  induction p.routines generalizing supply shielded with
  | nil => exact .inr ⟨_, rfl, .nil supply shielded⟩
  | cons r rs ih =>
      rw [spillRoutines, Logged.outcome_bind]
      rcases r.spill_cases spilled supply shielded with
        ⟨e, he, hexhausted⟩ | ⟨first, cs, st, hfirst, hrendered, hroutine, hsupply, hshielded⟩
      · rw [he]
        exact .inl ⟨e, rfl, hexhausted⟩
      · rw [hfirst]
        -- The next bind stands under the first one's continuation, where `rw` does not see it.
        show (∃ e, Logged.outcome (_ >>= _) = .error e ∧ _) ∨
          ∃ next, Logged.outcome (_ >>= _) = .ok next ∧ _
        rw [Logged.outcome_bind]
        rcases ih first.shielded first.supply with ⟨e, he, hexhausted⟩ | ⟨rest, hrest, hround⟩
        · rw [he]
          exact .inl ⟨e, rfl, hexhausted⟩
        · rw [hrest]
          refine .inr ⟨_, rfl, ?_⟩
          rw [hsupply, hshielded] at hround
          rw [hroutine]
          exact .cons hrendered hround

/-- A program in cells still consists of cells after a round that spills no shielded temporary. -/
theorem Celled.round (h : p.Celled base shielded css) {rs : List Routine} {supply : Supply}
    {shielded' : TempSet} (hround : Round spilled p.supply shielded p.routines rs supply shielded')
    (hdisjoint : ∀ t ∈ spilled, t ∉ shielded) (hspilled : ∀ t ∈ spilled, t.number < p.supply.next) :
    ∃ dss, Celled base shielded' ⟨rs, supply⟩ dss := by
  have hle := hround.supply_le
  have hbase := h.base_le
  -- Of the temporaries there were before the round, only spilled ones become shielded.
  have hwidens : Widens spilled shielded shielded' p.supply.next := by
    refine ⟨hdisjoint, fun t ht => hround.subset ht, fun t ht hlt => ?_⟩
    rcases hround.mem_shielded ht with hold | hnew | ⟨hmem, -⟩
    · exact .inl hold
    · omega
    · exact .inr hmem
  obtain ⟨dss, hdss, hgrows⟩ :=
    hround.celled h.routines hwidens hbase (Nat.le_refl _) h.below fun _ ht => ht
  refine ⟨dss, hdss, hgrows.pairwise h.apart h.below, fun d hd t ht => ?_, fun t ht => ?_, ?_⟩
  · show t.number < supply.next
    by_cases hmade : base ≤ t.number
    · rcases hgrows.mem_temps hd ht hmade with ⟨c, hc, hold⟩ | hnew
      · exact Nat.lt_of_lt_of_le (h.below c hc t hold) hle
      · exact hnew.2
    · omega
  · show t.number < supply.next
    rcases hround.mem_shielded ht with hold | hnew | ⟨hmem, -⟩
    · exact Nat.lt_of_lt_of_le (h.shielded_below t hold) hle
    · exact hnew.2
    · exact Nat.lt_of_lt_of_le (hspilled t hmem) hle
  · exact Nat.le_trans hbase hle

end Program

end MmixCodegen
