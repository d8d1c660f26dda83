import TypeWeave.Bundle
import TypeWeave.Proofs.Canonical
import TypeWeave.Proofs.Walk

/-!
# What a run does not depend on

A run looks at the declarations it can reach, and at these without their private fields. Two models
that agree on that much give the same run: the walk through one of them can be followed in the other
(`Walk.simulate`), and a walk has only one outcome (`Walk.deterministic`). The bound on the depth,
which differs with the sizes of the models, drops out on the way (`run_eq_of_simulation`).
-/

namespace TypeWeave

-- ---------------------------------------------------------------------------
-- Private fields
-- ---------------------------------------------------------------------------

namespace ClassShape

def withoutPrivate (c : ClassShape) : ClassShape :=
  { c with fields := c.fields.filter (·.visibility ≠ .privateAccess) }

theorem visibleFields_withoutPrivate (c : ClassShape) :
    c.withoutPrivate.visibleFields = c.visibleFields := by
  simp [withoutPrivate, visibleFields, FieldDecl.isPrivate]

theorem steps_withoutPrivate (c : ClassShape) : c.withoutPrivate.steps = c.steps := by
  unfold steps
  rw [visibleFields_withoutPrivate]
  rfl

theorem references_withoutPrivate (c : ClassShape) :
    c.withoutPrivate.references = c.references := by
  unfold references
  rw [visibleFields_withoutPrivate]
  rfl

end ClassShape

namespace Declaration

def withoutPrivate (d : Declaration) : Declaration :=
  match d.kind with
  | .classType c => { d with kind := .classType c.withoutPrivate }
  | _ => d

theorem qualified_withoutPrivate (d : Declaration) : d.withoutPrivate.qualified = d.qualified := by
  unfold withoutPrivate
  split <;> rfl

theorem qualified_eq_of_withoutPrivate_eq {d e : Declaration}
    (h : d.withoutPrivate = e.withoutPrivate) : d.qualified = e.qualified := by
  rw [← d.qualified_withoutPrivate, h, e.qualified_withoutPrivate]

theorem steps_withoutPrivate (d : Declaration) : d.withoutPrivate.steps = d.steps := by
  unfold withoutPrivate
  split
  · next c hc => simp only [steps, hc, ClassShape.steps_withoutPrivate]
  · rfl

theorem target?_withoutPrivate (d : Declaration) (m : Model) (layout : Option Layout) :
    d.withoutPrivate.target? m layout = d.target? m layout := by
  unfold withoutPrivate
  split
  · next c hc =>
    simp only [target?, hc, ClassShape.references_withoutPrivate,
      ClassShape.visibleFields_withoutPrivate]
    rfl
  · rfl

theorem target?_congr {d : Declaration} {m m' : Model}
    (h : ∀ id, Step.reference id ∈ d.steps → m.name? id = m'.name? id) (layout : Option Layout) :
    d.target? m layout = d.target? m' layout := by
  unfold target?
  cases hc : d.kind with
  | classType c =>
    have hnames : c.references.filterMap m.name? = c.references.filterMap m'.name? := by
      refine List.filterMap_congr fun id hid => h id ?_
      exact reference_mem_steps.mpr ⟨c, hc, ClassShape.mem_references.mp hid⟩
    simp only [hnames]
  | _ => rfl

end Declaration

namespace Closure

-- ---------------------------------------------------------------------------
-- One outcome
-- ---------------------------------------------------------------------------

theorem Walk.deterministic {m : Model} {layout : Option Layout} {steps : List Step}
    {r r₁ r₂ : Registry} {fault₁ fault₂ : Option Fault} (h₁ : Walk m layout steps r r₁ fault₁)
    (h₂ : Walk m layout steps r r₂ fault₂) : r₁ = r₂ ∧ fault₁ = fault₂ := by
  -- The declaration at an index and the slot of its name leave one rule for each step.
  induction h₁ generalizing r₂ fault₂ with
  | done => cases h₂; exact ⟨rfl, rfl⟩
  | express ht _ ih =>
    cases h₂ with
    | express _ h => exact ih h
    | unmappable ht' => simp [ht] at ht'
  | unmappable ht =>
    cases h₂ with
    | express ht' _ => simp [ht] at ht'
    | unmappable => exact ⟨rfl, rfl⟩
  | missing hd =>
    cases h₂ with
    | missing => exact ⟨rfl, rfl⟩
    | known hd' | enter hd' | stuck hd' => simp [hd] at hd'
  | known hd hk _ ih => exact ih (h₂.rest_of_known hd hk)
  | enter hd hb _ hf _ iha ihr =>
    rcases h₂.cases_unseen hd hb with ⟨after, finished, ha, hf', hr⟩ | ⟨f, -, hstuck⟩
    · obtain ⟨rfl, -⟩ := iha ha
      obtain rfl := Option.some.inj (hf.symm.trans hf')
      exact ihr hr
    · cases (iha hstuck).2
  | stuck hd hb _ ih =>
    rcases h₂.cases_unseen hd hb with ⟨after, finished, ha, -⟩ | ⟨f, rfl, hstuck⟩
    · cases (ih ha).2
    · exact ih hstuck

-- ---------------------------------------------------------------------------
-- Following a walk in another model
-- ---------------------------------------------------------------------------

section
variable {m m' : Model} {layout : Option Layout} {R : Nat → Nat → Prop} {steps steps' : List Step}
  {r r' : Registry} {fault : Option Fault}

inductive Alike (R : Nat → Nat → Prop) : Step → Step → Prop
  | reference {a b} : R a b → Alike R (.reference a) (.reference b)
  | express {t t' : TypeRef} : t.target?.isSome = t'.target?.isSome →
      Alike R (.express t) (.express t')

/-- Related indices have declarations of the same name and output, and lead to related ones. -/
def Simulation (m m' : Model) (layout : Option Layout) (R : Nat → Nat → Prop) : Prop :=
  ∀ a b, R a b → ∃ d e, m.decl? a = some d ∧ m'.decl? b = some e ∧ d.qualified = e.qualified ∧
    d.target? m layout = e.target? m' layout ∧ List.Forall₂ (Alike R) d.steps e.steps

theorem Walk.simulate (hR : Simulation m m' layout R) (h : Walk m layout steps r r' fault)
    (hs : List.Forall₂ (Alike R) steps steps') : Walk m' layout steps' r r' fault := by
  induction h generalizing steps' with
  | done => cases hs; exact .done
  | express ht _ ih =>
    obtain - | ⟨⟨-⟩ | ⟨he⟩, hrest⟩ := hs
    exact .express (he ▸ ht) (ih hrest)
  | unmappable ht =>
    obtain - | ⟨⟨-⟩ | ⟨he⟩, -⟩ := hs
    exact .unmappable (he ▸ ht)
  | missing hd =>
    obtain - | ⟨⟨hab⟩ | -, -⟩ := hs
    obtain ⟨d, e, hd', -⟩ := hR _ _ hab
    simp [hd] at hd'
  | known hd hk _ ih =>
    obtain - | ⟨⟨hab⟩ | -, hrest⟩ := hs
    obtain ⟨d, e, hd', he, hq, -⟩ := hR _ _ hab
    obtain rfl := Option.some.inj (hd.symm.trans hd')
    exact .known he (hq ▸ hk) (ih hrest)
  | enter hd hb _ hf _ iha ihr =>
    obtain - | ⟨⟨hab⟩ | -, hrest⟩ := hs
    obtain ⟨d, e, hd', he, hq, ht, hsteps⟩ := hR _ _ hab
    obtain rfl := Option.some.inj (hd.symm.trans hd')
    rw [hq] at hb hf
    rw [ht] at hf
    exact .enter he hb (iha hsteps) hf (ihr hrest)
  | stuck hd hb _ ih =>
    obtain - | ⟨⟨hab⟩ | -, -⟩ := hs
    obtain ⟨d, e, hd', he, hq, -, hsteps⟩ := hR _ _ hab
    obtain rfl := Option.some.inj (hd.symm.trans hd')
    rw [hq] at hb
    exact .stuck he hb (ih hsteps)

/-- Related seeds have the same run. -/
theorem run_eq_of_simulation (hR : Simulation m m' layout R) {a b : Nat} (hab : R a b) :
    run m layout a = run m' layout b := by
  have hw := (extend_walk m layout a .empty).simulate hR (.cons (.reference hab) .nil)
  have hw' := extend_walk m' layout b .empty
  obtain ⟨hregistry, hfault⟩ := hw.deterministic hw'
  exact congrArg₂ Outcome.mk hregistry hfault

-- ---------------------------------------------------------------------------
-- Agreement on what can be reached
-- ---------------------------------------------------------------------------

/-- What can be reached from `seed` in `m` is also in `m'`, private fields aside. -/
def Agree (m m' : Model) (seed : Nat) : Prop :=
  ∀ id, m.Reaches seed id → ∃ d d', m.decl? id = some d ∧ m'.decl? id = some d' ∧
    d.withoutPrivate = d'.withoutPrivate

theorem Agree.name? {seed id : Nat} (h : Agree m m' seed) (hid : m.Reaches seed id) :
    m.name? id = m'.name? id := by
  obtain ⟨d, d', hd, hd', heq⟩ := h id hid
  rw [Model.name?_of_decl? hd, Model.name?_of_decl? hd',
    Declaration.qualified_eq_of_withoutPrivate_eq heq]

theorem Agree.simulation {seed : Nat} (h : Agree m m' seed) (layout : Option Layout) :
    Simulation m m' layout fun a b => a = b ∧ m.Reaches seed a := by
  rintro a _ ⟨rfl, ha⟩
  obtain ⟨d, d', hd, hd', heq⟩ := h a ha
  have hsteps : d.steps = d'.steps := by
    rw [← d.steps_withoutPrivate, heq, d'.steps_withoutPrivate]
  -- A step leads to another declaration on which the models agree.
  have hreach {id : Nat} (hid : Step.reference id ∈ d.steps) : m.Reaches seed id :=
    ha.tail ((Model.edge_iff hd).mpr hid)
  refine ⟨d, d', hd, hd', Declaration.qualified_eq_of_withoutPrivate_eq heq, ?_, ?_⟩
  · rw [Declaration.target?_congr fun id hid => h.name? (hreach hid), ← d.target?_withoutPrivate,
      heq, d'.target?_withoutPrivate]
  · rw [← hsteps]
    refine List.forall₂_same.mpr fun step hstep => ?_
    cases step with
    | reference id => exact .reference ⟨rfl, hreach hstep⟩
    | express type => exact .express rfl

end

/-- A run depends neither on private fields nor on declarations that the seed does not lead to. It
comes to the same registry, with the same fault if there is one, and to the same texts. -/
theorem run_noninterference {m m' : Model} {seed : Nat} (h : Agree m m' seed)
    (layout : Option Layout) :
    run m layout seed = run m' layout seed ∧
    ∀ (style : Style) (importRoot : Option Path),
      let b : Bundle := ⟨(run m layout seed).registry, style, importRoot⟩
      let b' : Bundle := ⟨(run m' layout seed).registry, style, importRoot⟩
      b.groups = b'.groups ∧ b.groups.map b.renderGroup = b'.groups.map b'.renderGroup ∧
        b.renderAll = b'.renderAll := by
  have hrun : run m layout seed = run m' layout seed :=
    run_eq_of_simulation (h.simulation layout) ⟨rfl, .refl⟩
  refine ⟨hrun, fun style importRoot => ?_⟩
  rw [hrun]
  exact ⟨rfl, rfl, rfl⟩

/-- The sample with one more private field in its classes, a wildcard out of place that refers to
one more declaration, under a name that the sample has already. -/
def sampleVariant : Model where
  decls :=
    (Model.sample.decls.map fun d =>
      match d.kind with
      | .classType c =>
        { d with kind := .classType { c with
            fields := ⟨"secret", .bounded (.declared "tree.Kind" 3), .privateAccess⟩ :: c.fields } }
      | _ => d) ++
    [{ qualified := "tree.Kind", simple := "Kind", location := ⟨⟨""⟩, ⟨""⟩⟩, kind := .recordType }]

/-- The models have different sizes, and the last name is looked up differently. -/
theorem run_noninterference_sample :
    Agree Model.sample sampleVariant 0 ∧
    run Model.sample none 0 = run sampleVariant none 0 := by
  have hm : Model.sample.Canonical := by decide
  have hagree : Agree Model.sample sampleVariant 0 := by
    intro id hid
    have hlt : id < 3 := by
      rcases Relation.ReflTransGen.cases_tail hid with rfl | ⟨a, -, hedge⟩
      · decide
      · obtain ⟨d, hd, -⟩ := Model.isEntry_iff.mp (hm.edge hedge)
        exact Model.lt_size_of_decl? hd
    obtain rfl | rfl | rfl : id = 0 ∨ id = 1 ∨ id = 2 := by omega
    all_goals exact ⟨_, _, rfl, rfl, rfl⟩
  exact ⟨hagree, (run_noninterference hagree none).1⟩

end Closure

end TypeWeave
