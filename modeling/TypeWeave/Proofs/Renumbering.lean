import TypeWeave.Proofs.Noninterference

/-!
# Renumbered models

The same declarations can stand in another order, with every index in their types renumbered to
match. Renumbering changes neither what a type is written as nor the steps of a walk, indices
aside, so that a walk through one model can be followed in the other (`Renumbering.run`).
-/

namespace TypeWeave

-- ---------------------------------------------------------------------------
-- Type references
-- ---------------------------------------------------------------------------

namespace TypeRef

mutual
def renumber (ρ : Nat → Nat) : TypeRef → TypeRef
  | named qualified simple args decl => named qualified simple (renumberAll ρ args) (decl.map ρ)
  | array element => array (element.renumber ρ)
  | wildcard => wildcard
  | bounded bound => bounded (bound.renumber ρ)
def renumberAll (ρ : Nat → Nat) : List TypeRef → List TypeRef
  | [] => []
  | t :: ts => t.renumber ρ :: renumberAll ρ ts
end

variable (ρ : Nat → Nat)

theorem renumberAll_eq_map (ts : List TypeRef) : renumberAll ρ ts = ts.map (renumber ρ) := by
  induction ts with
  | nil => rfl
  | cons t ts ih => simp [renumberAll, ih]

mutual
theorem targetAt_renumber : (position : Position) → (t : TypeRef) →
    (t.renumber ρ).targetAt position = t.targetAt position
  | _, named qualified simple args decl => by
    simp only [renumber, targetAt, argTargets_renumber args]
  | _, array element => by
    simp only [renumber, targetAt, targetAt_renumber .outer element]
  | .argument, wildcard => rfl
  | .argument, bounded bound => by
    simp only [renumber, targetAt, targetAt_renumber .outer bound]
  | .outer, wildcard => rfl
  | .outer, bounded bound => by simp only [renumber, targetAt]
theorem argTargets_renumber : (ts : List TypeRef) → argTargets (renumberAll ρ ts) = argTargets ts
  | [] => rfl
  | t :: ts => by
    simp only [renumberAll, argTargets, targetAt_renumber .argument t, argTargets_renumber ts]
end

@[simp] theorem target?_renumber (t : TypeRef) : (t.renumber ρ).target? = t.target? :=
  targetAt_renumber ρ .outer t

@[simp] theorem expression?_renumber (t : TypeRef) :
    (t.renumber ρ).expression? = t.expression? := by
  simp [expression?]

@[simp] theorem declaration_renumber (t : TypeRef) :
    (t.renumber ρ).declaration = t.declaration.map ρ := by
  cases t <;> simp [renumber, declaration]

@[simp] theorem args_renumber (t : TypeRef) : (t.renumber ρ).args = t.args.map (renumber ρ) := by
  cases t <;> simp [renumber, args, renumberAll_eq_map]

@[simp] theorem bound?_renumber (t : TypeRef) :
    (t.renumber ρ).bound? = t.bound?.map (renumber ρ) := by
  cases t <;> simp [renumber, bound?]

@[simp] theorem isArray_renumber (t : TypeRef) : (t.renumber ρ).isArray = t.isArray := by
  cases t <;> simp [renumber, isArray]

@[simp] theorem innermost_renumber (t : TypeRef) :
    (t.renumber ρ).innermost = t.innermost.renumber ρ := by
  fun_induction innermost t with
  | case1 element ih => simpa only [renumber, innermost] using ih
  | case2 t h => cases t <;> simp_all [renumber, innermost]

theorem references_renumber (t : TypeRef) : (t.renumber ρ).references = t.references.map ρ := by
  have hargs (ts : List TypeRef) :
      (ts.map (renumber ρ)).filterMap (fun arg => arg.bound?.bind declaration) =
        (ts.filterMap fun arg => arg.bound?.bind declaration).map ρ := by
    rw [List.filterMap_map, List.map_filterMap]
    refine List.filterMap_congr fun arg _ => ?_
    cases hb : arg.bound? <;> simp [hb]
  cases ha : t.isArray <;> simp [references, ha, hargs, Option.toList_map]

@[simp] theorem supertypeName?_renumber (t : TypeRef) :
    (t.renumber ρ).supertypeName? = t.supertypeName? := by
  cases t with
  | named qualified simple args decl => simp [renumber, supertypeName?]
  | array element => exact expression?_renumber ρ (.array element)
  | wildcard => rfl
  | bounded bound => exact expression?_renumber ρ (.bounded bound)

end TypeRef

-- ---------------------------------------------------------------------------
-- Steps and declarations
-- ---------------------------------------------------------------------------

def Step.renumber (ρ : Nat → Nat) : Step → Step
  | .reference id => .reference (ρ id)
  | .express type => .express (type.renumber ρ)

def FieldDecl.renumber (ρ : Nat → Nat) (f : FieldDecl) : FieldDecl :=
  { f with type := f.type.renumber ρ }

def ClassShape.renumber (ρ : Nat → Nat) (c : ClassShape) : ClassShape where
  superclass := c.superclass.map (·.renumber ρ)
  fields := c.fields.map (·.renumber ρ)

def DeclKind.renumber (ρ : Nat → Nat) : DeclKind → DeclKind
  | .classType c => .classType (c.renumber ρ)
  | other => other

def Declaration.renumber (ρ : Nat → Nat) (d : Declaration) : Declaration :=
  { d with kind := d.kind.renumber ρ }

section
variable (ρ : Nat → Nat)

theorem TypeRef.superclassSteps_renumber (t : TypeRef) :
    (t.renumber ρ).superclassSteps = t.superclassSteps.map (Step.renumber ρ) := by
  cases t with
  | named qualified simple args decl =>
    cases decl <;> simp [superclassSteps, renumber, declaration, Step.renumber]
  | _ => simp [superclassSteps, renumber, declaration, Step.renumber]

theorem FieldDecl.steps_renumber (f : FieldDecl) :
    (f.renumber ρ).steps = f.steps.map (Step.renumber ρ) := by
  simp [steps, renumber, TypeRef.references_renumber, Step.renumber, Function.comp_def]

theorem FieldDecl.target?_renumber (f : FieldDecl) : (f.renumber ρ).target? = f.target? := by
  simp [target?, renumber]

theorem ClassShape.visibleFields_renumber (c : ClassShape) :
    (c.renumber ρ).visibleFields = c.visibleFields.map (·.renumber ρ) := by
  simp only [visibleFields, renumber, List.filter_map]
  rfl

theorem ClassShape.steps_renumber (c : ClassShape) :
    (c.renumber ρ).steps = c.steps.map (Step.renumber ρ) := by
  simp only [steps, visibleFields_renumber, List.map_append, List.map_flatMap, List.flatMap_map,
    FieldDecl.steps_renumber]
  cases hs : c.superclass <;> simp [renumber, hs, TypeRef.superclassSteps_renumber]

theorem ClassShape.references_renumber (c : ClassShape) :
    (c.renumber ρ).references = c.references.map ρ := by
  simp only [references, visibleFields_renumber, List.map_append, List.map_flatMap,
    List.flatMap_map, FieldDecl.renumber, TypeRef.references_renumber]
  cases hs : c.superclass <;> simp [renumber, hs, Option.toList_map]

theorem Declaration.steps_renumber (d : Declaration) :
    (d.renumber ρ).steps = d.steps.map (Step.renumber ρ) := by
  simp only [steps, renumber]
  cases d.kind <;> simp [DeclKind.renumber, ClassShape.steps_renumber]

/-- The output keeps the names behind the indices. -/
theorem Declaration.target?_renumber {m m' : Model} {d : Declaration}
    (h : ∀ id, Step.reference id ∈ d.steps → m'.name? (ρ id) = m.name? id)
    (layout : Option Layout) : (d.renumber ρ).target? m' layout = d.target? m layout := by
  unfold target?
  cases hc : d.kind with
  | classType c =>
    have hnames : (c.references.map ρ).filterMap m'.name? = c.references.filterMap m.name? := by
      rw [List.filterMap_map]
      refine List.filterMap_congr fun id hid => h id ?_
      exact reference_mem_steps.mpr ⟨c, hc, ClassShape.mem_references.mp hid⟩
    have hsuper : (c.superclass.map (·.renumber ρ)).bind TypeRef.supertypeName? =
        c.superclass.bind TypeRef.supertypeName? := by
      cases c.superclass <;> simp
    have hfields : (c.visibleFields.map (·.renumber ρ)).filterMap FieldDecl.target? =
        c.visibleFields.filterMap FieldDecl.target? := by
      rw [List.filterMap_map]
      exact List.filterMap_congr fun f _ => f.target?_renumber ρ
    simp only [renumber, hc, DeclKind.renumber, ClassShape.references_renumber,
      ClassShape.visibleFields_renumber, hnames, hfields]
    simp only [ClassShape.renumber, hsuper]
  | _ => simp only [renumber, hc, DeclKind.renumber]

end

-- ---------------------------------------------------------------------------
-- Models
-- ---------------------------------------------------------------------------

/-- Every declaration of `m` is in `m'`, at its new index and with its own indices renumbered. -/
def Renumbering (m m' : Model) (ρ : Nat → Nat) : Prop :=
  ∀ id d, m.decl? id = some d → m'.decl? (ρ id) = some (d.renumber ρ)

namespace Renumbering

variable {m m' : Model} {ρ : Nat → Nat} {id : Nat} {d : Declaration}

theorem name? (h : Renumbering m m' ρ) (hd : m.decl? id = some d) :
    m'.name? (ρ id) = m.name? id := by
  rw [Model.name?_of_decl? hd, Model.name?_of_decl? (h id d hd)]
  rfl

theorem simulation (h : Renumbering m m' ρ) (hm : m.Canonical) (layout : Option Layout) :
    Closure.Simulation m m' layout fun a b => m.IsEntry a ∧ b = ρ a := by
  rintro a _ ⟨ha, rfl⟩
  obtain ⟨d, hd, -⟩ := Model.isEntry_iff.mp ha
  refine ⟨d, d.renumber ρ, hd, h a d hd, rfl, ?_, ?_⟩
  · refine (Declaration.target?_renumber ρ (fun id hid => ?_) layout).symm
    obtain ⟨e, he, -⟩ := Model.isEntry_iff.mp (hm.entries hd id hid)
    exact h.name? he
  · rw [Declaration.steps_renumber, List.forall₂_map_right_iff]
    refine List.forall₂_same.mpr fun step hstep => ?_
    cases step with
    | reference id => exact .reference ⟨hm.entries hd id hstep, rfl⟩
    | express type => exact .express (by rw [TypeRef.target?_renumber])

theorem run (h : Renumbering m m' ρ) (hm : m.Canonical) (hid : m.IsEntry id)
    (layout : Option Layout) : Closure.run m layout id = Closure.run m' layout (ρ id) :=
  Closure.run_eq_of_simulation (h.simulation hm layout) ⟨hid, rfl⟩

end Renumbering

end TypeWeave
