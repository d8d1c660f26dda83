import TypeWeave.Proofs.Canonical
import TypeWeave.Proofs.Walk

/-!
# A closure is what can be reached

A closure makes known what fresh paths from its seed lead to, and nothing else (`Walk.exact`). That
nothing else becomes known is `Walk.new_slot`. For the other direction, a declaration begun by the
walk has all its references known in the end (`Walk.edge_known`), so that a fresh path cannot leave
what the walk has made known. This is where a model has to be canonical, or coherent at least: the
declaration that was begun under a name is the one the path goes through (`Walk.entered_entry`).
-/

namespace TypeWeave

-- ---------------------------------------------------------------------------
-- Reachable registries
-- ---------------------------------------------------------------------------

/-- The registries that can come about. A closure counts even if it stops at a fault. -/
inductive Registry.Reachable : Registry → Prop
  | empty : Reachable .empty
  | begin {r r' name} : Reachable r → r.begin? name = some r' → Reachable r'
  | finish {r r' name output} : Reachable r → r.finish? name output = some r' → Reachable r'
  | reset {r} : Reachable r → Reachable r.reset
  | extend {r} (m : Model) (layout : Option Layout) (seed : Nat) : Reachable r →
      Reachable (Closure.extend m layout seed r).registry

theorem Registry.Reachable.wellFormed {r : Registry} (h : r.Reachable) : r.WellFormed := by
  induction h with
  | empty => exact .empty
  | begin _ hb ih => exact ih.begin? hb
  | finish _ hf ih => exact ih.finish? hf
  | reset => exact .empty
  | extend m layout seed _ ih => exact (Closure.extend_walk m layout seed _).wellFormed ih

namespace Closure

section
variable {m : Model} {layout : Option Layout} {steps : List Step} {r r' : Registry}
  {a b : Nat} {d : Declaration} {name : String}

-- ---------------------------------------------------------------------------
-- Fresh paths stay inside
-- ---------------------------------------------------------------------------

/-- In a coherent model the declaration that was entered under a name is the entry of this name. -/
theorem Walk.entered_entry (hm : m.Coherent) (h : Walk m layout steps r r' none)
    (hs : m.EntriesInBounds steps) (ha : m.IsEntry a) (hd : m.decl? a = some d)
    (hn : r.slot? d.qualified = none) (hk : r'.isKnown d.qualified = true) :
    ∃ begun after, Walk m layout d.steps begun after none ∧ ∀ b, m.Known after b → m.Known r' b := by
  obtain ⟨slot, hslot⟩ := Registry.isKnown_iff.mp hk
  obtain ⟨id, e, begun, after, he, hq, ⟨start, hstart, hp⟩, -, hw, hknown⟩ := h.entered hn hslot
  obtain ⟨d₀, hd₀, -⟩ := hp.unseen_first
  have hid := hm.freshPath (hs start hstart (Model.lt_size_of_decl? hd₀)) hp
  obtain rfl : id = a := hid.unique ha he hd hq
  obtain rfl : d = e := Option.some.inj (hd.symm.trans he)
  exact ⟨begun, after, hw, hknown⟩

theorem Walk.edge_known (hm : m.Coherent) (h : Walk m layout steps r r' none)
    (hs : m.EntriesInBounds steps) (ha : m.IsEntry a) (hd : m.decl? a = some d)
    (hn : r.slot? d.qualified = none) (hk : r'.isKnown d.qualified = true) (hab : m.Edge a b) :
    m.Known r' b := by
  obtain ⟨begun, after, hw, hknown⟩ := h.entered_entry hm hs ha hd hn hk
  exact hknown b (hw.reference_known ((Model.edge_iff hd).mp hab))

theorem Walk.freshPath_known (hm : m.Coherent) (h : Walk m layout steps r r' none)
    (hs : m.EntriesInBounds steps) (hp : m.FreshPath r a b)
    (ha : m.IsEntry a) (hk : m.Known r' a) : m.Known r' b := by
  induction hp with
  | here => exact hk
  | step hu hab _ ih =>
    obtain ⟨d, hd, hn⟩ := hu
    obtain ⟨d', hd', hk⟩ := hk
    obtain rfl : d = d' := Option.some.inj (hd.symm.trans hd')
    obtain ⟨e, he, hke⟩ := h.edge_known hm hs ha hd hn hk hab
    exact ih (hm.edge hab (Model.lt_size_of_decl? he)) ⟨e, he, hke⟩

theorem Walk.newly_known_iff (hm : m.Canonical) (h : Walk m layout steps r r' none)
    (hs : m.Entries steps) :
    (r.slot? name = none ∧ r'.isKnown name = true) ↔
      ∃ id, m.FreshFrom r steps id ∧ m.name? id = some name := by
  constructor
  · rintro ⟨hn, hk⟩
    obtain ⟨slot, hslot⟩ := Registry.isKnown_iff.mp hk
    obtain ⟨id, d, hd, hq, hf, -⟩ := h.new_slot_done hn hslot
    exact ⟨id, hf, hq ▸ Model.name?_of_decl? hd⟩
  · rintro ⟨id, ⟨start, hstart, hp⟩, hname⟩
    obtain ⟨d, hd, hn⟩ := hp.unseen_last
    obtain ⟨d', hd', hk⟩ :=
      h.freshPath_known hm.coherent hs.inBounds hp (hs start hstart) (h.reference_known hstart)
    obtain rfl : d = d' := Option.some.inj (hd.symm.trans hd')
    obtain rfl : d.qualified = name :=
      Option.some.inj ((Model.name?_of_decl? hd).symm.trans hname)
    exact ⟨hn, hk⟩

theorem Walk.freshFrom_done (hm : m.Canonical) (h : Walk m layout steps r r' none)
    (hs : m.Entries steps) (hf : m.FreshFrom r steps a) (hd : m.decl? a = some d) :
    r.slot? d.qualified = none ∧ r'.slot? d.qualified = some (.done (d.target? m layout)) := by
  obtain ⟨hn, hk⟩ := (h.newly_known_iff hm hs).mpr ⟨a, hf, Model.name?_of_decl? hd⟩
  obtain ⟨slot, hslot⟩ := Registry.isKnown_iff.mp hk
  obtain ⟨x, e, he, hq, ⟨start', hstart', hx⟩, rfl, -⟩ := h.new_slot_done hn hslot
  obtain ⟨start, hstart, ha⟩ := hf
  obtain rfl : x = a := (hm.freshPath (hs _ hstart') hx).unique
    (hm.freshPath (hs _ hstart) ha) he hd hq
  obtain rfl : d = e := Option.some.inj (hd.symm.trans he)
  exact ⟨hn, hslot⟩

-- ---------------------------------------------------------------------------
-- New outputs
-- ---------------------------------------------------------------------------

theorem Walk.mem_added_iff (hm : m.Canonical) (h : Walk m layout steps r r' none)
    (hs : m.Entries steps) (hw : r.WellFormed) {added : List String}
    (hadded : r'.finished = r.finished ++ added) :
    name ∈ added ↔ ∃ id d, m.FreshFrom r steps id ∧ m.decl? id = some d ∧
      d.kind.hasShape = true ∧ d.qualified = name := by
  have hw' := h.wellFormed hw
  have hdisjoint : r.finished.Disjoint added := (List.nodup_append'.mp (hadded ▸ hw'.nodup)).2.2
  constructor
  · intro hmem
    obtain ⟨t, ht⟩ := (hw'.mem_finished name).mp (hadded ▸ List.mem_append_right _ hmem)
    have hn : r.slot? name = none := by
      cases hslot : r.slot? name with
      | none => rfl
      | some slot =>
        obtain rfl : slot = .done (some t) :=
          Option.some.inj ((h.extension.slot hslot).symm.trans ht)
        exact absurd hmem (hdisjoint ((hw.mem_finished name).mpr ⟨t, hslot⟩))
    obtain ⟨id, d, hd, hq, hf, hslot, -⟩ := h.new_slot_done hn ht
    refine ⟨id, d, hf, hd, ?_, hq⟩
    rw [← Declaration.isSome_target?, ← Slot.done.inj hslot]
    rfl
  · rintro ⟨id, d, hf, hd, hshape, rfl⟩
    obtain ⟨hn, hdone⟩ := h.freshFrom_done hm hs hf hd
    obtain ⟨t, ht⟩ : ∃ t, d.target? m layout = some t :=
      Option.isSome_iff_exists.mp (Declaration.isSome_target?.trans hshape)
    have hmem := (hw'.mem_finished d.qualified).mpr ⟨t, ht ▸ hdone⟩
    rw [hadded] at hmem
    rcases List.mem_append.mp hmem with hold | hnew
    · obtain ⟨t', ht'⟩ := (hw.mem_finished d.qualified).mp hold
      simp [hn] at ht'
    · exact hnew

/-- The closure of `seed` made `r'` out of `r`, and no more and no less than that. -/
structure Exact (m : Model) (seed : Nat) (r r' : Registry) : Prop where
  known : ∀ name, (r.slot? name = none ∧ r'.isKnown name = true) ↔
    ∃ id, m.FreshPath r seed id ∧ m.name? id = some name
  done : ∀ id d, m.FreshPath r seed id → m.decl? id = some d →
    ∃ output, r'.slot? d.qualified = some (.done output) ∧ output.isSome = d.kind.hasShape
  outputs : ∃ added, r'.outputs = r.outputs ++ added ∧ (added.map (·.qualified)).Nodup ∧
    ∀ name, name ∈ added.map (·.qualified) ↔ ∃ id d, m.FreshPath r seed id ∧
      m.decl? id = some d ∧ d.kind.hasShape = true ∧ d.qualified = name

theorem freshFrom_singleton {seed : Nat} :
    m.FreshFrom r [.reference seed] a ↔ m.FreshPath r seed a := by
  simp [Model.FreshFrom]

theorem Walk.exact {seed : Nat} (hm : m.Canonical) (hw : r.WellFormed) (hseed : m.IsEntry seed)
    (h : Walk m layout [.reference seed] r r' none) : Exact m seed r r' := by
  have hs := Model.Entries.singleton hseed
  constructor
  · intro name
    rw [h.newly_known_iff hm hs]
    simp only [freshFrom_singleton]
  · intro id d hp hd
    have hdone := (h.freshFrom_done hm hs (freshFrom_singleton.mpr hp) hd).2
    exact ⟨d.target? m layout, hdone, Declaration.isSome_target?⟩
  · obtain ⟨names, hnames, added, hadded, hmap⟩ := h.framed.outputs hw
    refine ⟨added, hadded, ?_, fun name => ?_⟩
    · rw [hmap]
      exact (List.nodup_append'.mp (hnames ▸ (h.wellFormed hw).nodup)).2.1
    · rw [hmap, h.mem_added_iff hm hs hw hnames]
      simp only [freshFrom_singleton]

end

/-- Source files give canonical models, and so do distinct names. In a canonical model the closure
of an entry is exactly what fresh paths lead to, whatever the registry knew before. -/
theorem extend_exact :
    (∀ files, (Java.buildModel files).Canonical) ∧
    (∀ m : Model, m.InBounds → (m.decls.map (·.qualified)).Nodup → m.Canonical) ∧
    ∀ (m : Model) (layout : Option Layout) (seed : Nat) (r : Registry),
      m.Canonical → r.Reachable → m.IsEntry seed → (extend m layout seed r).fault = none →
      Exact m seed r (extend m layout seed r).registry := by
  refine ⟨Java.buildModel_canonical, fun _ => Model.canonical_of_nodup, ?_⟩
  intro m layout seed r hm hr hseed hfault
  have hw := extend_walk m layout seed r
  rw [hfault] at hw
  exact hw.exact hm hr.wellFormed hseed

/-- With the superclass begun by hand, the closure of the class goes around it. -/
theorem extend_exact_sample :
    Model.sample.Canonical ∧
    (⟨[("tree.Base", .inProgress)], []⟩ : Registry).Reachable ∧ Model.sample.IsEntry 0 ∧
    (extend Model.sample none 0 ⟨[("tree.Base", .inProgress)], []⟩).fault = none ∧
    Exact Model.sample 0 ⟨[("tree.Base", .inProgress)], []⟩
      (extend Model.sample none 0 ⟨[("tree.Base", .inProgress)], []⟩).registry := by
  have hm : Model.sample.Canonical := by decide
  have hr : (⟨[("tree.Base", .inProgress)], []⟩ : Registry).Reachable := .begin .empty rfl
  have hseed : Model.sample.IsEntry 0 := by decide
  have hfault : (extend Model.sample none 0 ⟨[("tree.Base", .inProgress)], []⟩).fault = none := by
    decide
  exact ⟨hm, hr, hseed, hfault, extend_exact.2.2 _ _ _ _ hm hr hseed hfault⟩

end Closure

end TypeWeave
