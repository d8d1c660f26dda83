import TypeWeave.Proofs.Groups
import TypeWeave.Proofs.Translation

/-!
# Imports between output files

The names an interface refers to are written down while what they name may still be in progress, and
they are looked up when the run is over. By then all of them are known (`Walk.import_known`),
whatever cycles the run went through, and those that have a shape have an output in some file
(`Walk.get?_of_lookup`). So the import lines of a group are neither more nor less than what its
interfaces need from other groups (`Imported`, `Linking`).
-/

namespace TypeWeave

theorem mem_distinct [BEq α] [LawfulBEq α] {as : List α} {a : α} : a ∈ distinct as ↔ a ∈ as := by
  rw [distinct_eq_eraseDups, List.mem_eraseDups]

theorem Registry.WellFormed.mem_outputs {r : Registry} {name : String} {t : TargetDecl}
    (h : r.WellFormed) (ht : r.get? name = some t) : t ∈ r.outputs := by
  have hfinished := (h.mem_finished name).mpr ⟨t, get?_eq_some_iff.mp ht⟩
  exact List.mem_filterMap.mpr ⟨name, hfinished, ht⟩

namespace Declaration

variable {d : Declaration} {m : Model} {layout : Option Layout} {t : TargetDecl}

theorem output_of_target? (h : d.target? m layout = some t) :
    t.output = layout.map (·.outputPath d.location) := by
  unfold target? at h
  split at h <;> cases h <;> rfl

/-- The names an output refers to are those of the declarations the class refers to. -/
theorem mem_imports_of_target? {name : String} (h : d.target? m layout = some t)
    (hname : name ∈ t.imports) :
    ∃ c id, d.kind = .classType c ∧ c.RefersTo id ∧ m.name? id = some name := by
  unfold target? at h
  split at h <;> cases h
  · next c hc =>
    obtain ⟨id, hid, hname⟩ := List.mem_filterMap.mp (mem_distinct.mp hname)
    exact ⟨c, id, hc, ClassShape.mem_references.mp hid, hname⟩
  · cases hname

theorem steps_eq_nil (h : d.kind.hasShape = false) : d.steps = [] := by
  unfold steps
  split
  · next c hc => simp [hc, DeclKind.hasShape] at h
  · rfl

end Declaration

-- ---------------------------------------------------------------------------
-- What is imported
-- ---------------------------------------------------------------------------

namespace Bundle

variable {b : Bundle} {group : FileGroup} {root : Path} {path : Option Path}
  {qualified line : String}

theorem importLine?_eq_some_iff :
    b.importLine? root path qualified = some line ↔
      ∃ t file, b.registry.get? qualified = some t ∧ t.output = some file ∧
        sameFile path (some file) = false ∧
        line = renderImport t.name (b.style.importPrefix ++ file.modulePath root) := by
  unfold importLine?
  constructor
  · intro h
    split at h
    · cases h
    · next t ht =>
      split at h
      · cases h
      · next file hfile =>
        split at h
        · cases h
        · next hother =>
          exact ⟨t, file, ht, hfile, by simpa using hother, (Option.some.inj h).symm⟩
  · rintro ⟨t, file, ht, hfile, hother, rfl⟩
    simp [ht, hfile, hother]

theorem mem_importLines_iff (hroot : b.importRoot = some root) :
    line ∈ b.importLines group ↔
      ∃ t ∈ group.members, ∃ qualified ∈ t.imports,
        b.importLine? root group.path qualified = some line := by
  simp [importLines, hroot, mem_distinct, List.mem_flatMap, List.mem_filterMap]

theorem nodup_importLines : (b.importLines group).Nodup := by
  unfold importLines
  split
  · exact List.nodup_nil
  · exact nodup_distinct _

theorem importLines_eq_nil (h : b.importRoot = none) : b.importLines group = [] := by
  simp [importLines, h]

theorem renderGroup_eq : b.renderGroup group =
    (if b.importLines group = [] then "" else Text.join "\n" (b.importLines group) ++ "\n\n") ++
      TargetDecl.renderAll b.style group.members := by
  unfold renderGroup
  cases b.importLines group <;> simp

end Bundle

/-- The line imports `t` into the group, which has an interface that refers to `t`. Its members are
all of one file, and `t` goes to another one. -/
structure Imported (b : Bundle) (root : Path) (group : FileGroup) (t : TargetDecl) (line : String) :
    Prop where
  mem_outputs : t ∈ b.registry.outputs
  candidate : ∃ i, .ofInterface i ∈ group.members ∧ t.qualified ∈ i.imports
  line : ∃ file, t.output = some file ∧
    line = renderImport t.name (b.style.importPrefix ++ file.modulePath root)
  group : ∃ other ∈ b.groups, other ≠ group ∧ t ∈ other.members ∧
    ∀ g ∈ b.groups, t ∈ g.members → g = other

/-- The import lines of a group are those it needs. -/
structure Linking (m : Model) (b : Bundle) (root : Path) (group : FileGroup) : Prop where
  nodup : (b.importLines group).Nodup
  sound : ∀ line ∈ b.importLines group, ∃ t, Imported b root group t line
  complete : ∀ i, .ofInterface i ∈ group.members → ∀ name ∈ i.imports,
    ∃ id d, m.lookup name = some id ∧ m.decl? id = some d ∧
      (d.kind.hasShape = true → ∃ t ∈ b.registry.outputs, t.qualified = name ∧
        (sameFile group.path t.output = true ∨
          ∃ line ∈ b.importLines group, Imported b root group t line))

namespace Closure

section
variable {m : Model} {layout : Option Layout} {steps : List Step} {r r' : Registry} {seed : Nat}
  {name : String}

-- ---------------------------------------------------------------------------
-- Candidates after a run
-- ---------------------------------------------------------------------------

/-- A declaration whose name became known has all its references known in the end. -/
theorem Walk.references_known {slot : Slot} (h : Walk m layout steps r r' none)
    (hn : r.slot? name = none) (hs : r'.slot? name = some slot) :
    ∃ id d, m.decl? id = some d ∧ slot = .done (d.target? m layout) ∧
      ∀ b, m.Edge id b → m.Known r' b := by
  obtain ⟨id, d, _, _, hd, -, -, hslot, hw, hknown⟩ := h.entered hn hs
  exact ⟨id, d, hd, hslot, fun b hab => hknown b (hw.reference_known ((Model.edge_iff hd).mp hab))⟩

/-- Nothing is finished in the closure of a declaration that has no output. -/
theorem Walk.hasShape_of_mem_finished {d : Declaration}
    (h : Walk m layout [.reference seed] .empty r' none) (hd : m.decl? seed = some d)
    (hmem : name ∈ r'.finished) : d.kind.hasShape = true := by
  obtain ⟨begun, after, hb, ha, hfinished⟩ := h.finished_of_unseen hd (Registry.slot?_empty _)
  cases hshape : d.kind.hasShape with
  | true => rfl
  | false =>
    rw [Declaration.steps_eq_nil hshape] at ha
    cases ha
    rw [hfinished, hshape, Registry.finished_of_begin? hb] at hmem
    cases hmem

theorem Walk.import_known (hm : m.Canonical) (h : Walk m layout steps .empty r' none)
    {t : TargetDecl} {other : String} (ht : r'.get? other = some t) (hname : name ∈ t.imports) :
    ∃ id d, m.lookup name = some id ∧ m.decl? id = some d ∧ r'.isKnown name = true := by
  obtain ⟨a, d, hd, hslot, hknown⟩ :=
    h.references_known (Registry.slot?_empty other) (Registry.get?_eq_some_iff.mp ht)
  obtain ⟨c, id, hc, hr, hid⟩ := Declaration.mem_imports_of_target? (Slot.done.inj hslot).symm hname
  have hedge : m.Edge a id := ⟨d, c, hd, hc, hr⟩
  obtain ⟨e, he, hke⟩ := hknown id hedge
  obtain rfl : e.qualified = name := Option.some.inj ((Model.name?_of_decl? he).symm.trans hid)
  exact ⟨id, e, (hm.edge hedge).lookup he, he, hke⟩

/-- The seed need not be an entry: its name is then done without another declaration of this name
being visited. -/
theorem Walk.get?_of_lookup (hm : m.Canonical)
    (h : Walk m layout [.reference seed] .empty r' none) {other : String}
    (hfinished : other ∈ r'.finished) {id : Nat} {d : Declaration} (hl : m.lookup name = some id)
    (hd : m.decl? id = some d) (hshape : d.kind.hasShape = true) (hk : r'.isKnown name = true) :
    ∃ (t : TargetDecl) (e : Declaration), r'.get? name = some t ∧ t.qualified = name ∧
      t.output = layout.map (·.outputPath e.location) := by
  obtain ⟨slot, hslot⟩ := Registry.isKnown_iff.mp hk
  obtain ⟨x, e, he, hq, hf, rfl, -⟩ := h.new_slot_done (Registry.slot?_empty name) hslot
  have heshape : e.kind.hasShape = true := by
    cases freshFrom_singleton.mp hf with
    -- The name is that of the seed, which has an output because something has been finished.
    | here => exact h.hasShape_of_mem_finished he hfinished
    | step _ hedge hp =>
      have hx := (hm.freshPath (hm.edge hedge) hp).lookup he
      rw [hq, hl] at hx
      obtain rfl : id = x := Option.some.inj hx
      obtain rfl : d = e := Option.some.inj (hd.symm.trans he)
      exact hshape
  obtain ⟨t, ht⟩ : ∃ t, e.target? m layout = some t :=
    Option.isSome_iff_exists.mp (Declaration.isSome_target?.trans heshape)
  exact ⟨t, e, Registry.get?_eq_some_iff.mpr (ht ▸ hslot),
    (e.qualified_of_target? ht).trans hq, e.output_of_target? ht⟩

-- ---------------------------------------------------------------------------
-- Soundness and completeness
-- ---------------------------------------------------------------------------

variable {b : Bundle} {root : Path} {group : FileGroup} {i : TargetInterface}

theorem Walk.imported (h : Walk m layout steps .empty b.registry none) (hg : group ∈ b.groups)
    (hi : .ofInterface i ∈ group.members) (hname : name ∈ i.imports) {t : TargetDecl} {file : Path}
    (ht : b.registry.get? name = some t) (hfile : t.output = some file)
    (hother : sameFile group.path (some file) = false) :
    Imported b root group t
      (renderImport t.name (b.style.importPrefix ++ file.modulePath root)) where
  mem_outputs := (h.wellFormed .empty).mem_outputs ht
  candidate := by
    have hq := h.output_qualified (Registry.slot?_empty name) (Registry.get?_eq_some_iff.mp ht)
    exact ⟨i, hi, hq ▸ hname⟩
  line := ⟨file, hfile, rfl⟩
  group := by
    obtain ⟨other, ho, hmem⟩ := Bundle.exists_mem_groups ((h.wellFormed .empty).mem_outputs ht)
    refine ⟨other, ho, ?_, hmem, fun g hg' hmem' => Bundle.eq_of_mem_members hg' ho hmem' hmem⟩
    rintro rfl
    have hsame := ((Bundle.mem_members_iff hg).mp hmem).2
    simp [hfile, hother] at hsame

theorem Walk.imported_of_mem_importLines {line : String}
    (h : Walk m layout steps .empty b.registry none) (hroot : b.importRoot = some root)
    (hg : group ∈ b.groups) (hline : line ∈ b.importLines group) :
    ∃ t, Imported b root group t line := by
  obtain ⟨member, hmember, name, hname, hline⟩ := (Bundle.mem_importLines_iff hroot).mp hline
  obtain ⟨t, file, ht, hfile, hother, rfl⟩ := Bundle.importLine?_eq_some_iff.mp hline
  cases member with
  | ofInterface i => exact ⟨t, h.imported hg hmember hname ht hfile hother⟩
  | ofEnum e => cases hname

theorem Walk.linking {layout : Layout} (hm : m.Canonical)
    (h : Walk m (some layout) [.reference seed] .empty b.registry none)
    (hroot : b.importRoot = some root) (hg : group ∈ b.groups) : Linking m b root group where
  nodup := Bundle.nodup_importLines
  sound _ hline := h.imported_of_mem_importLines hroot hg hline
  complete := by
    intro i hi name hname
    have hout := ((Bundle.mem_members_iff hg).mp hi).1
    obtain ⟨other, hother, hget⟩ := List.mem_filterMap.mp hout
    obtain ⟨id, d, hl, hd, hk⟩ := h.import_known hm hget hname
    refine ⟨id, d, hl, hd, fun hshape => ?_⟩
    obtain ⟨t, e, ht, hq, hfile⟩ := h.get?_of_lookup hm hother hl hd hshape hk
    refine ⟨t, (h.wellFormed .empty).mem_outputs ht, hq, ?_⟩
    cases hsame : sameFile group.path t.output with
    | true => exact .inl rfl
    | false =>
      rw [hfile] at hsame
      refine .inr ⟨_, (Bundle.mem_importLines_iff hroot).mpr ⟨_, hi, name, hname, ?_⟩,
        h.imported hg hi hname ht hfile hsame⟩
      exact Bundle.importLine?_eq_some_iff.mpr ⟨t, _, ht, hfile, hsame, rfl⟩

end

/-- The text of a group starts with its import lines. With an import root these are exactly the
imports that the interfaces of the group need, whatever seed the run started from; without one there
are none. -/
theorem run_linking {m : Model} {layout : Layout} {seed : Nat} (hm : m.Canonical)
    (hfault : (run m (some layout) seed).fault = none) (b : Bundle)
    (hb : b.registry = (run m (some layout) seed).registry) (group : FileGroup)
    (hg : group ∈ b.groups) :
    (b.renderGroup group =
      (if b.importLines group = [] then "" else Text.join "\n" (b.importLines group) ++ "\n\n") ++
        TargetDecl.renderAll b.style group.members) ∧
    (b.importRoot = none → b.importLines group = []) ∧
    ∀ root, b.importRoot = some root → Linking m b root group := by
  have hw : Walk m (some layout) [.reference seed] .empty b.registry none :=
    hb ▸ hfault ▸ extend_walk m (some layout) seed .empty
  exact ⟨Bundle.renderGroup_eq, Bundle.importLines_eq_nil, fun root hroot => hw.linking hm hroot hg⟩

def sampleBundle : Bundle where
  registry := (run Model.sample (some ⟨⟨"out"⟩, none⟩) 0).registry
  importRoot := some ⟨"out"⟩

/-- The class and its superclass import each other. -/
theorem run_linking_sample :
    Model.sample.Canonical ∧ (run Model.sample (some ⟨⟨"out"⟩, none⟩) 0).fault = none ∧
    sampleBundle.groups.map sampleBundle.importLines = [
      ["import \x7bNode\x7d from '@tree/node';"],
      [],
      ["import \x7bBase\x7d from '@tree/base';", "import \x7bKind\x7d from '@tree/kind';"]] ∧
    ∀ group ∈ sampleBundle.groups, Linking Model.sample sampleBundle ⟨"out"⟩ group := by
  have hm : Model.sample.Canonical := by decide
  have hfault : (run Model.sample (some ⟨⟨"out"⟩, none⟩) 0).fault = none := by decide
  refine ⟨hm, hfault, by decide +kernel, fun group hg => ?_⟩
  exact (run_linking hm hfault sampleBundle rfl group hg).2.2 _ rfl

end Closure

end TypeWeave
