import TypeWeave.Proofs.Failure
import TypeWeave.Proofs.Translation

/-!
# Closures of several seeds

A closure sees what the closures before it have left, and so the visits of several seeds are shared
out differently in every order. What becomes known in the end is the same: it is what fresh paths
from the seeds lead to, seen from the registry that the first closure started from
(`Walk.slot?_eq`). Only the order in which names are finished differs (`perm_of_slot?_eq`), and
there is nothing left to do for a declaration on one of these paths (`extend_of_known`).
-/

namespace TypeWeave

-- ---------------------------------------------------------------------------
-- Models in which every type can be spelled
-- ---------------------------------------------------------------------------

namespace Model

variable {m : Model}

/-- No class has a type to spell that has no expression. -/
def Mappable (m : Model) : Prop := ∀ id, ¬ m.Fails .unmappableType id

theorem mappable_of_types (h : ∀ d ∈ m.decls, ∀ t ∈ d.types, ¬ t.Unmappable) : m.Mappable := by
  rintro id ⟨d, c, hd, hc, hf⟩
  have htypes : ∀ t ∈ c.superclass.toList ++ c.fields.map (·.type), ¬ t.Unmappable := by
    simpa [Declaration.types, hc] using h d (List.mem_of_getElem? hd)
  cases hf with
  | superclass ht _ hu => exact htypes _ (by simp [ht]) hu
  | field hf _ hu => exact htypes _ (List.mem_append_right _ (List.mem_map_of_mem hf)) hu

theorem Canonical.sound (hm : m.Canonical) (h : m.Mappable) : m.Sound := by
  intro d hd step hstep
  obtain ⟨a, ha⟩ := List.mem_iff_getElem?.mp hd
  cases step with
  | reference id =>
    obtain ⟨e, he, -⟩ := isEntry_iff.mp (hm.edge ((edge_iff ha).mpr hstep))
    exact lt_size_of_decl? he
  | express type =>
    refine Option.isSome_iff_ne_none.mpr fun hnone => h a ?_
    exact (fails_iff ha).mpr ⟨_, hstep, .unmappable (TypeRef.target?_eq_none_iff.mp hnone)⟩

end Model

namespace Closure

section
variable {m : Model} {layout : Option Layout} {steps steps' : List Step}
  {r r₁ r₂ : Registry} {seeds seeds' : List Nat} {id : Nat} {name : String}

-- ---------------------------------------------------------------------------
-- Walks that visit the same declarations
-- ---------------------------------------------------------------------------

/-- Whether a name is on a fresh path decides its slot. -/
theorem Walk.slot?_of_unseen (hm : m.Canonical) (h : Walk m layout steps r r₁ none)
    (hs : m.Entries steps) (hn : r.slot? name = none) :
    (∃ id d, m.FreshFrom r steps id ∧ m.decl? id = some d ∧ d.qualified = name ∧
      r₁.slot? name = some (.done (d.target? m layout))) ∨
    (r₁.slot? name = none ∧ ∀ id, m.FreshFrom r steps id → m.name? id ≠ some name) := by
  cases hslot : r₁.slot? name with
  | some slot =>
    obtain ⟨id, d, hd, hq, hf, rfl, -⟩ := h.new_slot_done hn hslot
    exact .inl ⟨id, d, hf, hd, hq, rfl⟩
  | none =>
    refine .inr ⟨rfl, fun id hf hname => ?_⟩
    obtain ⟨-, hk⟩ := (h.newly_known_iff hm hs).mpr ⟨id, hf, hname⟩
    simp [Registry.isKnown, hslot] at hk

theorem freshFrom_congr (hsame : ∀ id, .reference id ∈ steps ↔ .reference id ∈ steps') :
    m.FreshFrom r steps id ↔ m.FreshFrom r steps' id := by
  simp only [Model.FreshFrom, hsame]

theorem Walk.slot?_eq (hm : m.Canonical) (h₁ : Walk m layout steps r r₁ none)
    (h₂ : Walk m layout steps' r r₂ none) (hs : m.Entries steps)
    (hsame : ∀ id, .reference id ∈ steps ↔ .reference id ∈ steps') :
    r₁.slot? name = r₂.slot? name := by
  have hs' : m.Entries steps' := fun id hid => hs id ((hsame id).mpr hid)
  cases hn : r.slot? name with
  | some slot => rw [h₁.extension.slot hn, h₂.extension.slot hn]
  | none =>
    -- Fresh paths start from the same declarations and depend on `r` alone.
    rcases h₁.slot?_of_unseen hm hs hn with ⟨id, d, hf, hd, rfl, hslot⟩ | ⟨hslot, hnot⟩
    · rw [hslot, (h₂.freshFrom_done hm hs' ((freshFrom_congr hsame).mp hf) hd).2]
    · rcases h₂.slot?_of_unseen hm hs' hn with ⟨id, d, hf, hd, rfl, -⟩ | ⟨hslot', -⟩
      · exact absurd (Model.name?_of_decl? hd) (hnot id ((freshFrom_congr hsame).mpr hf))
      · rw [hslot, hslot']

/-- Names finished from the same registry on are the same if the slots are. -/
theorem perm_of_slot?_eq {names names' : List String} (h₁ : r.Finishes r₁ names)
    (h₂ : r.Finishes r₂ names') (hslot : ∀ name, r₁.slot? name = r₂.slot? name) :
    names.Perm names' := by
  rw [List.perm_ext_iff_of_nodup h₁.nodup h₂.nodup]
  intro name
  rw [h₁.mem_iff, h₂.mem_iff, hslot]

-- ---------------------------------------------------------------------------
-- Nothing left to do
-- ---------------------------------------------------------------------------

theorem extend_of_known (h : m.Known r id) : extend m layout id r = { registry := r } := by
  obtain ⟨d, hd, hk⟩ := h
  simp [extend, visit, hd, Registry.begin?, hk]

theorem Walk.known_of_freshFrom (hm : m.Canonical) (h : Walk m layout steps r r₁ none)
    (hs : m.Entries steps) (hf : m.FreshFrom r steps id) : m.Known r₁ id := by
  obtain ⟨start, hstart, hp⟩ := hf
  exact h.freshPath_known hm.coherent hs.inBounds hp (hs start hstart) (h.reference_known hstart)

-- ---------------------------------------------------------------------------
-- Seeds
-- ---------------------------------------------------------------------------

theorem reference_mem_map : Step.reference id ∈ seeds.map .reference ↔ id ∈ seeds := by
  simp

theorem fault_extendAll (hm : m.Sound) (hseeds : ∀ seed ∈ seeds, seed < m.size) :
    (extendAll m layout seeds r).fault = none := by
  refine (extendAll_walk m layout seeds r).fault_eq_none hm fun step hstep => ?_
  obtain ⟨seed, hseed, rfl⟩ := List.mem_map.mp hstep
  exact hseeds seed hseed

/-- Two registries that come from `r` and differ only in the order of what was finished since. -/
structure SameGrowth (r r₁ r₂ : Registry) : Prop where
  slot : ∀ name, r₁.slot? name = r₂.slot? name
  finished : ∃ names names', r₁.finished = r.finished ++ names ∧
    r₂.finished = r.finished ++ names' ∧ names.Perm names'

theorem Walk.sameGrowth (hm : m.Canonical) (h₁ : Walk m layout steps r r₁ none)
    (h₂ : Walk m layout steps' r r₂ none) (hs : m.Entries steps)
    (hsame : ∀ id, .reference id ∈ steps ↔ .reference id ∈ steps') : SameGrowth r r₁ r₂ where
  slot _ := h₁.slot?_eq hm h₂ hs hsame
  finished := by
    obtain ⟨names, hnames⟩ := h₁.finishes
    obtain ⟨names', hnames'⟩ := h₂.finishes
    exact ⟨names, names', hnames.finished, hnames'.finished,
      perm_of_slot?_eq hnames hnames' fun _ => h₁.slot?_eq hm h₂ hs hsame⟩

end

/-- The closures of several seeds come to their end in every order, and the order shows in nothing
but the order of the finished names. Afterwards the closure of a seed, or of what can be reached
from one through declarations that `r` does not know, changes nothing. -/
theorem extendAll_perm {m : Model} (layout : Option Layout) {seeds seeds' : List Nat} (r : Registry)
    (hm : m.Canonical) (hmap : m.Mappable) (hseeds : ∀ seed ∈ seeds, m.IsEntry seed)
    (hperm : seeds.Perm seeds') :
    (extendAll m layout seeds r).fault = none ∧ (extendAll m layout seeds' r).fault = none ∧
    SameGrowth r (extendAll m layout seeds r).registry (extendAll m layout seeds' r).registry ∧
    ∀ seed ∈ seeds, ∀ id, m.FreshPath r seed id →
      extend m layout id (extendAll m layout seeds r).registry =
        { registry := (extendAll m layout seeds r).registry } := by
  have hbounds (seed : Nat) (hseed : seed ∈ seeds) : seed < m.size := by
    obtain ⟨d, hd, -⟩ := Model.isEntry_iff.mp (hseeds seed hseed)
    exact Model.lt_size_of_decl? hd
  have hfault : (extendAll m layout seeds r).fault = none :=
    fault_extendAll (hm.sound hmap) hbounds
  have hfault' : (extendAll m layout seeds' r).fault = none :=
    fault_extendAll (hm.sound hmap) fun seed hseed => hbounds seed (hperm.mem_iff.mpr hseed)
  have hw := extendAll_walk m layout seeds r
  have hw' := extendAll_walk m layout seeds' r
  rw [hfault] at hw
  rw [hfault'] at hw'
  have hs : m.Entries (seeds.map .reference) :=
    fun id hid => hseeds id (reference_mem_map.mp hid)
  refine ⟨hfault, hfault', hw.sameGrowth hm hw' hs fun id => ?_, fun seed hseed id hp => ?_⟩
  · rw [reference_mem_map, reference_mem_map]
    exact hperm.mem_iff
  · exact extend_of_known
      (hw.known_of_freshFrom hm hs ⟨seed, reference_mem_map.mpr hseed, hp⟩)

/-- The class and its superclass are finished in different orders around an enum that is left in
progress. -/
theorem extendAll_perm_sample :
    let r : Registry := ⟨[("tree.Kind", .inProgress)], ["tree.Other"]⟩
    Model.sample.Canonical ∧ Model.sample.Mappable ∧ (∀ seed ∈ [0, 1], Model.sample.IsEntry seed) ∧
    (extendAll Model.sample none [0, 1] r).registry.finished =
      ["tree.Other", "tree.Base", "tree.Node"] ∧
    (extendAll Model.sample none [1, 0] r).registry.finished =
      ["tree.Other", "tree.Node", "tree.Base"] ∧
    SameGrowth r (extendAll Model.sample none [0, 1] r).registry
      (extendAll Model.sample none [1, 0] r).registry ∧
    extend Model.sample none 1 (extendAll Model.sample none [0, 1] r).registry =
      { registry := (extendAll Model.sample none [0, 1] r).registry } := by
  intro r
  have hm : Model.sample.Canonical := by decide
  have hmap : Model.sample.Mappable := by
    refine Model.mappable_of_types fun d hd t ht => ?_
    have hall : ∀ d ∈ Model.sample.decls, ∀ t ∈ d.types, t.target?.isSome := by decide
    rw [← TypeRef.target?_eq_none_iff]
    exact Option.isSome_iff_ne_none.mp (hall d hd t ht)
  have hseeds : ∀ seed ∈ [0, 1], Model.sample.IsEntry seed := by decide
  have hpath : Model.sample.FreshPath r 1 1 := .here ⟨_, rfl, by decide⟩
  obtain ⟨-, -, hgrowth, hdone⟩ := extendAll_perm none r hm hmap hseeds (List.Perm.swap 1 0 [])
  exact ⟨hm, hmap, hseeds, by decide +kernel, by decide +kernel, hgrowth,
    hdone 1 (by simp) 1 hpath⟩

end Closure

end TypeWeave
