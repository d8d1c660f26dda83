import TypeWeave.Proofs.Walk
import TypeWeave.Proofs.Wildcards

/-!
# Closures that come to their end

A step is sound if the declaration it visits exists, or the type it spells has an expression. If all
steps of all declarations are sound, a walk has nothing to stop at (`Walk.fault_eq_none`). Models of
source files are sound: their indices are those of declarations, and wildcards stand where they are
allowed to.
-/

namespace TypeWeave

def Step.Sound (m : Model) : Step → Prop
  | .reference id => id < m.size
  | .express type => type.target?.isSome

def Model.Sound (m : Model) : Prop := ∀ d ∈ m.decls, ∀ step ∈ d.steps, step.Sound m

theorem Closure.Walk.fault_eq_none {m : Model} {layout : Option Layout} {steps : List Step}
    {r r' : Registry} {fault : Option Fault} (h : Walk m layout steps r r' fault) (hm : m.Sound)
    (hs : ∀ step ∈ steps, step.Sound m) : fault = none := by
  induction h with
  | done => rfl
  | express _ _ ih => exact ih (List.forall_mem_cons.mp hs).2
  | unmappable ht =>
    have hsome : Option.isSome _ = true := hs _ List.mem_cons_self
    simp [ht] at hsome
  | missing hd =>
    have hlt : _ < m.size := hs _ List.mem_cons_self
    exact absurd hlt (Nat.not_lt.mpr (List.getElem?_eq_none_iff.mp hd))
  | known _ _ _ ih => exact ih (List.forall_mem_cons.mp hs).2
  | enter _ _ _ _ _ _ ih => exact ih (List.forall_mem_cons.mp hs).2
  | stuck hd _ _ ih => exact ih (hm _ (List.mem_of_getElem? hd))

theorem TypeRef.eq_of_express_mem_superclassSteps {t type : TypeRef}
    (h : Step.express type ∈ t.superclassSteps) : type = t := by
  cases t with
  | named => simp [superclassSteps] at h
  | _ => simpa [superclassSteps, declaration] using h

theorem Declaration.mem_types_of_express {d : Declaration} {type : TypeRef}
    (h : Step.express type ∈ d.steps) : type ∈ d.types := by
  unfold Declaration.steps at h
  split at h
  · next c hc =>
    simp only [Declaration.types, hc, List.mem_append, Option.mem_toList, List.mem_map]
    rcases List.mem_append.mp h with h | h
    · split at h
      · next t ht => exact .inl (TypeRef.eq_of_express_mem_superclassSteps h ▸ ht)
      · cases h
    · obtain ⟨f, hf, h⟩ := List.mem_flatMap.mp h
      obtain rfl : type = f.type := by simpa [FieldDecl.steps] using h
      exact .inr ⟨f, (ClassShape.mem_visibleFields.mp hf).1, rfl⟩
  · cases h

namespace Java

theorem buildModel_sound {files : List SourceFile} (h : WildcardsPlaced files) :
    (buildModel files).Sound := by
  intro d hd step hstep
  cases step with
  | reference id =>
    obtain ⟨t, ht, hid⟩ := Declaration.mem_types_of_reference hstep
    obtain ⟨e, he, -⟩ := Model.isEntry_iff.mp (buildModel_canonical files d hd t ht id hid)
    exact Model.lt_size_of_decl? he
  | express t =>
    obtain ⟨u, hu, rfl⟩ := List.mem_map.mp hd
    obtain ⟨p, hp, hc⟩ := exists_left_of_forall₂ (flatMap_unresolved_collected files) hu
    obtain ⟨e, he, rfl⟩ := Unresolved.types_resolved (Declaration.mem_types_of_express hstep)
    rw [hc.type] at he
    exact isSome_targetAt_resolveType e .outer (List.all_eq_true.mp (h p hp) e he)

end Java

namespace Closure

/-- Wildcards stand in their places in whatever is read from source texts. With wildcards in their
places, the closure of a declaration of source files comes to its end without a fault, with any
layout and from any registry. -/
theorem fault_extend_buildModel :
    (∀ sources : List (SourceLocation × String), Java.WildcardsPlaced
      (sources.map fun source => ⟨source.1, Java.readUnit source.2⟩)) ∧
    ∀ (files : List Java.SourceFile) (layout : Option Layout) (seed : Nat) (r : Registry),
      Java.WildcardsPlaced files → seed < (Java.buildModel files).size →
      (extend (Java.buildModel files) layout seed r).fault = none := by
  constructor
  · intro sources p hp
    obtain ⟨file, hfile, hp⟩ := List.mem_flatMap.mp hp
    obtain ⟨source, -, rfl⟩ := List.mem_map.mp hfile
    exact Java.readUnit_wellPlaced _ _ p hp
  · intro files layout seed r h hseed
    have hw := extend_walk (Java.buildModel files) layout seed r
    refine hw.fault_eq_none (Java.buildModel_sound h) fun step hstep => ?_
    obtain rfl := List.mem_singleton.mp hstep
    exact hseed

/-- A map with a bounded wildcard, from a registry in which the nested enum was left in progress. -/
theorem fault_extend_buildModel_sample :
    Java.WildcardsPlaced Java.sampleFiles ∧ 2 < (Java.buildModel Java.sampleFiles).size ∧
    (extend (Java.buildModel Java.sampleFiles) (some ⟨⟨"out"⟩, none⟩) 2
      ⟨[("shop.Item.Kind", .inProgress)], []⟩).fault = none := by
  have hplaced : Java.WildcardsPlaced Java.sampleFiles := by decide
  have hseed : 2 < (Java.buildModel Java.sampleFiles).size := by decide
  exact ⟨hplaced, hseed, fault_extend_buildModel.2 _ _ _ _ hplaced hseed⟩

end Closure

end TypeWeave
