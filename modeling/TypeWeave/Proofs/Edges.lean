import Mathlib.Logic.Relation
import TypeWeave.Closure
import TypeWeave.Proofs.RegistryLaws

/-!
# References between declarations

`Model.Edge`: a class refers to the declarations of its superclass and, for each field that is not
private, of the type, of what the type arguments stand for, and of the elements of an array. No
other declaration refers to anything. These are the declarations the steps of a walk lead to
(`Model.edge_iff`).

`Model.FreshPath r`: a path of edges through declarations that the registry `r` does not know.
-/

namespace TypeWeave

-- ---------------------------------------------------------------------------
-- What a class refers to
-- ---------------------------------------------------------------------------

inductive ClassShape.RefersTo (c : ClassShape) : Nat → Prop
  | superclass {t id} : c.superclass = some t → t.declaration = some id → RefersTo c id
  | fieldType {f id} : f ∈ c.fields → f.visibility ≠ .privateAccess →
      f.type.declaration = some id → RefersTo c id
  | typeArgument {f arg bound id} : f ∈ c.fields → f.visibility ≠ .privateAccess →
      arg ∈ f.type.args → arg.bound? = some bound → bound.declaration = some id → RefersTo c id
  | element {f id} : f ∈ c.fields → f.visibility ≠ .privateAccess → f.type.isArray = true →
      f.type.innermost.declaration = some id → RefersTo c id

theorem TypeRef.mem_references_iff {t : TypeRef} {id : Nat} :
    id ∈ t.references ↔ t.declaration = some id ∨
      (∃ arg ∈ t.args, ∃ bound, arg.bound? = some bound ∧ bound.declaration = some id) ∨
      (t.isArray = true ∧ t.innermost.declaration = some id) := by
  cases ha : t.isArray <;> simp [TypeRef.references, ha, Option.bind_eq_some_iff]

theorem TypeRef.reference_mem_superclassSteps {t : TypeRef} {id : Nat} :
    Step.reference id ∈ t.superclassSteps ↔ t.declaration = some id := by
  cases t <;> simp [TypeRef.superclassSteps, TypeRef.declaration]

theorem FieldDecl.reference_mem_steps {f : FieldDecl} {id : Nat} :
    Step.reference id ∈ f.steps ↔ id ∈ f.type.references := by
  simp [FieldDecl.steps]

namespace ClassShape

variable {c : ClassShape} {f : FieldDecl} {id : Nat}

theorem mem_visibleFields : f ∈ c.visibleFields ↔ f ∈ c.fields ∧ f.visibility ≠ .privateAccess := by
  simp [visibleFields, FieldDecl.isPrivate]

theorem RefersTo.of_field (hf : f ∈ c.visibleFields) (h : id ∈ f.type.references) :
    c.RefersTo id := by
  obtain ⟨hm, hv⟩ := mem_visibleFields.mp hf
  rcases TypeRef.mem_references_iff.mp h with h | ⟨arg, ha, bound, hb, h⟩ | ⟨ha, h⟩
  · exact .fieldType hm hv h
  · exact .typeArgument hm hv ha hb h
  · exact .element hm hv ha h

theorem RefersTo.cases_field (h : c.RefersTo id) :
    (∃ t, c.superclass = some t ∧ t.declaration = some id) ∨
      ∃ f ∈ c.visibleFields, id ∈ f.type.references := by
  cases h with
  | superclass ht h => exact .inl ⟨_, ht, h⟩
  | fieldType hm hv h =>
    exact .inr ⟨_, mem_visibleFields.mpr ⟨hm, hv⟩, TypeRef.mem_references_iff.mpr (.inl h)⟩
  | typeArgument hm hv ha hb h =>
    exact .inr ⟨_, mem_visibleFields.mpr ⟨hm, hv⟩,
      TypeRef.mem_references_iff.mpr (.inr (.inl ⟨_, ha, _, hb, h⟩))⟩
  | element hm hv ha h =>
    exact .inr ⟨_, mem_visibleFields.mpr ⟨hm, hv⟩,
      TypeRef.mem_references_iff.mpr (.inr (.inr ⟨ha, h⟩))⟩

theorem reference_mem_steps : Step.reference id ∈ c.steps ↔ c.RefersTo id := by
  unfold steps
  rw [List.mem_append, List.mem_flatMap]
  constructor
  · rintro (h | ⟨f, hf, h⟩)
    · split at h
      · next t ht => exact .superclass ht (TypeRef.reference_mem_superclassSteps.mp h)
      · cases h
    · exact .of_field hf (FieldDecl.reference_mem_steps.mp h)
  · intro h
    rcases h.cases_field with ⟨t, ht, h⟩ | ⟨f, hf, h⟩
    · left
      rw [ht]
      exact TypeRef.reference_mem_superclassSteps.mpr h
    · exact .inr ⟨f, hf, FieldDecl.reference_mem_steps.mpr h⟩

theorem mem_references : id ∈ c.references ↔ c.RefersTo id := by
  unfold references
  rw [List.mem_append, List.mem_flatMap]
  constructor
  · rintro (h | ⟨f, hf, h⟩)
    · split at h
      · next t ht => exact .superclass ht (Option.mem_toList.mp h)
      · cases h
    · exact .of_field hf h
  · intro h
    rcases h.cases_field with ⟨t, ht, h⟩ | ⟨f, hf, h⟩
    · left
      rw [ht]
      exact Option.mem_toList.mpr h
    · exact .inr ⟨f, hf, h⟩

/-- The superclass is visited before everything else. -/
theorem head?_steps_of_superclass {t : TypeRef} (ht : c.superclass = some t)
    (h : t.declaration = some id) : c.steps.head? = some (.reference id) := by
  simp [steps, ht, TypeRef.superclassSteps, h]

end ClassShape

theorem Declaration.reference_mem_steps {d : Declaration} {id : Nat} :
    Step.reference id ∈ d.steps ↔ ∃ c, d.kind = .classType c ∧ c.RefersTo id := by
  unfold Declaration.steps
  split
  · next c hc => simp [hc, ClassShape.reference_mem_steps]
  · next h =>
    refine ⟨fun hm => (nomatch hm), ?_⟩
    rintro ⟨c, hc, -⟩
    exact absurd hc (h c)

-- ---------------------------------------------------------------------------
-- Edges and paths
-- ---------------------------------------------------------------------------

namespace Model

variable {m : Model} {r r' : Registry} {a b : Nat} {d : Declaration}

theorem name?_of_decl? (hd : m.decl? a = some d) : m.name? a = some d.qualified := by
  simp [name?, hd]

theorem lt_size_of_decl? (hd : m.decl? a = some d) : a < m.size :=
  (List.getElem?_eq_some_iff.mp hd).1

def Edge (m : Model) (a b : Nat) : Prop :=
  ∃ d c, m.decl? a = some d ∧ d.kind = .classType c ∧ c.RefersTo b

def Reaches (m : Model) : Nat → Nat → Prop := Relation.ReflTransGen m.Edge

theorem edge_iff (hd : m.decl? a = some d) : m.Edge a b ↔ Step.reference b ∈ d.steps := by
  rw [Declaration.reference_mem_steps]
  constructor
  · rintro ⟨d', c, hd', hc⟩
    obtain rfl : d = d' := Option.some.inj (hd.symm.trans hd')
    exact ⟨c, hc⟩
  · rintro ⟨c, hc⟩
    exact ⟨d, c, hd, hc⟩

def Known (m : Model) (r : Registry) (id : Nat) : Prop :=
  ∃ d, m.decl? id = some d ∧ r.isKnown d.qualified = true

/-- There is a declaration at `id`, and its name is unseen. -/
def Unseen (m : Model) (r : Registry) (id : Nat) : Prop :=
  ∃ d, m.decl? id = some d ∧ r.slot? d.qualified = none

theorem Known.mono (h : m.Known r a) (he : r.Extends r') : m.Known r' a := by
  obtain ⟨d, hd, hk⟩ := h
  exact ⟨d, hd, he.isKnown hk⟩

theorem Known.finish? {name : String} {output : Option TargetDecl} (h : m.Known r a)
    (hf : r.finish? name output = some r') : m.Known r' a := by
  obtain ⟨d, hd, hk⟩ := h
  exact ⟨d, hd, by rwa [Registry.isKnown_of_finish? hf]⟩

theorem Unseen.anti (h : m.Unseen r' a) (he : r.Extends r') : m.Unseen r a := by
  obtain ⟨d, hd, hn⟩ := h
  exact ⟨d, hd, he.slot?_eq_none hn⟩

theorem Unseen.of_begin? {begun : Registry} (hd : m.decl? a = some d)
    (hb : r.begin? d.qualified = some begun) : m.Unseen r a :=
  ⟨d, hd, Registry.slot?_eq_none_of_begin? hb⟩

/-- A path of edges from one declaration to another, with no name on it seen, the ends included. -/
inductive FreshPath (m : Model) (r : Registry) : Nat → Nat → Prop
  | here {a : Nat} : m.Unseen r a → FreshPath m r a a
  | step {a b c : Nat} : m.Unseen r a → m.Edge a b → FreshPath m r b c → FreshPath m r a c

theorem FreshPath.anti (h : m.FreshPath r' a b) (he : r.Extends r') : m.FreshPath r a b := by
  induction h with
  | here hu => exact .here (hu.anti he)
  | step hu hab _ ih => exact .step (hu.anti he) hab ih

theorem FreshPath.unseen_first (h : m.FreshPath r a b) : m.Unseen r a := by
  cases h with
  | here hu => exact hu
  | step hu => exact hu

theorem FreshPath.unseen_last (h : m.FreshPath r a b) : m.Unseen r b := by
  induction h with
  | here hu => exact hu
  | step _ _ _ ih => exact ih

-- ---------------------------------------------------------------------------
-- A small model
-- ---------------------------------------------------------------------------

def sample : Model where
  decls := [
    { qualified := "tree.Node", simple := "Node"
      location := ⟨⟨"src"⟩, ⟨"src/tree/Node.java"⟩⟩
      kind := .classType {
        superclass := some (.declared "tree.Base" 1)
        fields := [
          ⟨"children", .array (.declared "tree.Node" 0), .publicAccess⟩,
          ⟨"size", .builtin "int", .privateAccess⟩,
          ⟨"kind", .declared "tree.Kind" 2, .packageAccess⟩] } },
    { qualified := "tree.Base", simple := "Base"
      location := ⟨⟨"src"⟩, ⟨"src/tree/Base.java"⟩⟩
      kind := .classType { fields := [⟨"owner", .declared "tree.Node" 0, .protectedAccess⟩] } },
    { qualified := "tree.Kind", simple := "Kind"
      location := ⟨⟨"src"⟩, ⟨"src/tree/Kind.java"⟩⟩
      kind := .enumType [⟨"LEAF", some [.literal .integer "1"]⟩, ⟨"INNER", none⟩] }]

end Model

end TypeWeave
