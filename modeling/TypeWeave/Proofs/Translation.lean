import Mathlib.Data.List.Forall2
import TypeWeave.Proofs.ClosureExact

/-!
# What a declaration becomes

`Declaration.DescribedBy` says what the output of a declaration has to be, from the declaration and
the names its references lead to. Whatever closures are taken from an empty registry, and in
whatever order, every name that is done has the output that its declaration asks for
(`Walk.faithful`, `Declaration.describedBy_target?`). Nothing in an output depends on where a cycle
was entered or on what was done before.
-/

namespace TypeWeave

-- ---------------------------------------------------------------------------
-- First occurrences
-- ---------------------------------------------------------------------------

theorem distinct_filter [BEq α] [LawfulBEq α] (p : α → Bool) (as : List α) :
    distinct (as.filter p) = (distinct as).filter p := by
  induction as with
  | nil => rfl
  | cons a as ih =>
    simp only [distinct, distinctBy] at ih ⊢
    cases hp : p a with
    | true => simp [distinctBy, hp, ih, List.filter_filter, Bool.and_comm]
    | false =>
      simp only [List.filter_cons, hp, Bool.false_eq_true, if_false, ih, List.filter_filter]
      refine List.filter_congr fun b _ => ?_
      -- An entry that passes `p` is not `a`.
      cases hb : p b with
      | true =>
        have hne : a ≠ b := by
          rintro rfl
          simp [hp] at hb
        simp [hne]
      | false => simp

theorem distinct_eq_eraseDups [BEq α] [LawfulBEq α] (as : List α) : distinct as = as.eraseDups := by
  induction hn : as.length using Nat.strongRecOn generalizing as with
  | ind n ih =>
    cases as with
    | nil => simp [distinct, distinctBy]
    | cons a as =>
      have hlt : (as.filter fun b => !b == a).length < n := by
        subst hn
        exact Nat.lt_succ_of_le (List.length_filter_le _ _)
      rw [List.eraseDups_cons, ← ih _ hlt _ rfl, distinct_filter]
      simp only [distinct, distinctBy]
      congr 2
      funext b
      simp [Bool.beq_comm]

theorem nodup_distinct [BEq α] [LawfulBEq α] (as : List α) : (distinct as).Nodup := by
  induction as with
  | nil => simp [distinct, distinctBy]
  | cons a as ih =>
    simp only [distinct, distinctBy] at ih ⊢
    refine List.nodup_cons.mpr ⟨?_, ih.filter _⟩
    simp

-- ---------------------------------------------------------------------------
-- What an output has to be
-- ---------------------------------------------------------------------------

/-- A type of a field, what its arguments stand for, and the innermost element of an array. -/
def TypeRef.occurrences (t : TypeRef) : List TypeRef :=
  t :: t.args.filterMap bound? ++ if t.isArray then [t.innermost] else []

def ClassShape.occurrences (c : ClassShape) : List TypeRef :=
  c.superclass.toList ++
    (c.fields.filter (·.visibility ≠ .privateAccess)).flatMap (·.type.occurrences)

structure InterfaceOf (m : Model) (layout : Option Layout) (d : Declaration) (c : ClassShape)
    (i : TargetInterface) : Prop where
  name : i.name = d.simple
  qualified : i.qualified = d.qualified
  output : i.output = layout.map (·.outputPath d.location)
  supertype_isSome : i.supertype.isSome = c.superclass.isSome
  supertype_named : ∀ qualified simple args decl,
    c.superclass = some (.named qualified simple args decl) → i.supertype = some simple
  supertype_other : ∀ t, c.superclass = some t →
    (∀ qualified simple args decl, t ≠ .named qualified simple args decl) →
    i.supertype = t.expression?
  fields : List.Forall₂ (fun f g => g.name = f.name ∧ f.type.expression? = some g.type)
    (c.fields.filter (·.visibility ≠ .privateAccess)) i.fields
  imports_nodup : i.imports.Nodup
  imports : ∃ names, List.Forall₂ (fun id name => m.name? id = some name)
    (c.occurrences.filterMap TypeRef.declaration) names ∧ i.imports = names.eraseDups

/-- The member for an enum constant: its value is the text of the first argument, provided that this
is a literal and no boolean. -/
structure MemberOf (c : EnumConstant) (v : TargetMember) : Prop where
  name : v.name = c.name
  value : ∀ text, v.value = some text ↔
    ∃ kind rest, c.arguments = some (.literal kind text :: rest) ∧ kind ≠ .boolean

structure EnumOf (layout : Option Layout) (d : Declaration) (constants : List EnumConstant)
    (e : TargetEnum) : Prop where
  name : e.name = d.simple
  qualified : e.qualified = d.qualified
  output : e.output = layout.map (·.outputPath d.location)
  values : List.Forall₂ MemberOf constants e.values

def Declaration.DescribedBy (m : Model) (layout : Option Layout) (d : Declaration)
    (output : Option TargetDecl) : Prop :=
  match d.kind with
  | .classType c => ∃ i, output = some (.ofInterface i) ∧ InterfaceOf m layout d c i
  | .enumType constants => ∃ e, output = some (.ofEnum e) ∧ EnumOf layout d constants e
  | .interfaceType | .annotationType | .recordType => output = none

-- ---------------------------------------------------------------------------
-- Outputs are as they have to be
-- ---------------------------------------------------------------------------

theorem TypeRef.references_eq (t : TypeRef) :
    t.references = t.occurrences.filterMap declaration := by
  have hargs : (t.args.filterMap bound?).filterMap declaration =
      t.args.filterMap fun arg => arg.bound?.bind declaration := List.filterMap_filterMap
  cases hd : t.declaration <;> cases ha : t.isArray <;>
    simp [references, occurrences, hd, ha, hargs, List.filterMap_cons]
  all_goals cases t.innermost.declaration <;> rfl

theorem ClassShape.visibleFields_eq (c : ClassShape) :
    c.visibleFields = c.fields.filter (·.visibility ≠ .privateAccess) := by
  simp [visibleFields, FieldDecl.isPrivate]

theorem ClassShape.references_eq (c : ClassShape) :
    c.references = c.occurrences.filterMap TypeRef.declaration := by
  simp only [references, occurrences, List.filterMap_append, List.filterMap_flatMap,
    TypeRef.references_eq, visibleFields_eq]
  congr 1
  cases c.superclass with
  | none => rfl
  | some t => cases hd : t.declaration <;> simp [hd]

theorem forall₂_filterMap {f : α → Option β} {as : List α} (h : ∀ a ∈ as, (f a).isSome) :
    List.Forall₂ (fun a b => f a = some b) as (as.filterMap f) := by
  induction as with
  | nil => exact .nil
  | cons a as ih =>
    obtain ⟨b, hb⟩ := Option.isSome_iff_exists.mp (h a (by simp))
    rw [List.filterMap_cons_some hb]
    exact .cons hb (ih fun x hx => h x (List.mem_cons_of_mem _ hx))

theorem EnumConstant.memberOf (c : EnumConstant) : MemberOf c ⟨c.name, c.value?⟩ := by
  refine ⟨rfl, fun text => ?_⟩
  simp only [EnumConstant.value?]
  split
  · next kind t rest hargs =>
    simp only [hargs, Option.some.injEq, List.cons.injEq, Argument.literal.injEq]
    by_cases hk : kind = .boolean
    · simp [hk]
    · simp [hk, eq_comm]
  · next h =>
    refine ⟨fun hn => (nomatch hn), ?_⟩
    rintro ⟨kind, rest, hargs, -⟩
    exact absurd hargs (h kind text rest)

section
variable {m : Model} {layout : Option Layout} {id : Nat} {d : Declaration} {c : ClassShape}

theorem Declaration.Expressible.field {f : FieldDecl} (h : d.Expressible)
    (hc : d.kind = .classType c) (hf : f ∈ c.visibleFields) : f.type.target?.isSome := by
  refine h f.type ?_
  simp only [Declaration.steps, hc, ClassShape.steps, List.mem_append, List.mem_flatMap]
  exact .inr ⟨f, hf, by simp [FieldDecl.steps]⟩

theorem Declaration.Expressible.supertypeName? {t : TypeRef} (h : d.Expressible)
    (hc : d.kind = .classType c) (ht : c.superclass = some t) : t.supertypeName?.isSome := by
  have hother (hs : Step.express t ∈ t.superclassSteps) : t.expression?.isSome := by
    have hm : Step.express t ∈ d.steps := by
      simp only [Declaration.steps, hc, ClassShape.steps, ht]
      exact List.mem_append_left _ hs
    simpa [TypeRef.expression?] using h t hm
  cases t with
  | named qualified simple args decl => rfl
  | array element => exact hother (by simp [TypeRef.superclassSteps])
  | wildcard => exact hother (by simp [TypeRef.superclassSteps])
  | bounded bound => exact hother (by simp [TypeRef.superclassSteps])

/-- No field and no reference of an expressible class is lost on the way to its interface. -/
theorem interfaceOf (hm : m.Canonical) (hd : m.decl? id = some d) (he : d.Expressible)
    (hc : d.kind = .classType c) :
    InterfaceOf m layout d c {
      name := d.simple
      qualified := d.qualified
      output := layout.map (·.outputPath d.location)
      supertype := c.superclass.bind TypeRef.supertypeName?
      fields := c.visibleFields.filterMap FieldDecl.target?
      imports := distinct (c.references.filterMap m.name?) } where
  name := rfl
  qualified := rfl
  output := rfl
  supertype_isSome := by
    cases ht : c.superclass with
    | none => rfl
    | some t => simpa using he.supertypeName? hc ht
  supertype_named := by
    intro qualified simple args decl ht
    simp [ht, TypeRef.supertypeName?]
  supertype_other := by
    intro t ht hother
    cases t with
    | named qualified simple args decl => exact absurd rfl (hother qualified simple args decl)
    | _ => simp [ht, TypeRef.supertypeName?]
  fields := by
    rw [← ClassShape.visibleFields_eq]
    refine (forall₂_filterMap fun f hf => ?_).imp fun f g hg => ?_
    · simpa [FieldDecl.target?, TypeRef.expression?] using he.field hc hf
    · obtain ⟨ty, hty, rfl⟩ := Option.map_eq_some_iff.mp hg
      exact ⟨rfl, hty⟩
  imports_nodup := nodup_distinct _
  imports := by
    rw [← ClassShape.references_eq]
    refine ⟨_, forall₂_filterMap fun b hb => ?_, distinct_eq_eraseDups _⟩
    have hedge : m.Edge id b := ⟨d, c, hd, hc, ClassShape.mem_references.mp hb⟩
    exact (hm.edge hedge).name?_isSome

theorem Declaration.describedBy_target? (hm : m.Canonical) (hd : m.decl? id = some d)
    (he : d.Expressible) : d.DescribedBy m layout (d.target? m layout) := by
  cases hc : d.kind with
  | classType c =>
    simp only [Declaration.DescribedBy, Declaration.target?, hc]
    exact ⟨_, rfl, interfaceOf hm hd he hc⟩
  | enumType constants =>
    simp only [Declaration.DescribedBy, Declaration.target?, hc]
    refine ⟨_, rfl, rfl, rfl, rfl, ?_⟩
    rw [List.forall₂_map_right_iff]
    exact List.forall₂_same.mpr fun c _ => c.memberOf
  | _ => simp only [Declaration.DescribedBy, Declaration.target?, hc]

end

namespace Closure

section
variable {m : Model} {layout : Option Layout} {steps : List Step} {r r' : Registry}

-- ---------------------------------------------------------------------------
-- Closures one after another
-- ---------------------------------------------------------------------------

def extendAll (m : Model) (layout : Option Layout) (seeds : List Nat) (r : Registry) : Outcome :=
  runSteps (extend m layout) (seeds.map .reference) r

theorem extendAll_walk (m : Model) (layout : Option Layout) (seeds : List Nat) (r : Registry) :
    Walk m layout (seeds.map .reference) r (extendAll m layout seeds r).registry
      (extendAll m layout seeds r).fault :=
  runSteps_walk (fun id r _ => extend_walk m layout id r) _ (Nat.lt_succ_self _)

/-- Every name that is done has the output of the declaration that its name leads to. -/
def Faithful (m : Model) (layout : Option Layout) (r : Registry) : Prop :=
  ∀ name output, r.slot? name = some (.done output) → ∃ id d, m.lookup name = some id ∧
    m.decl? id = some d ∧ d.Expressible ∧ output = d.target? m layout

theorem Faithful.empty : Faithful m layout .empty := by
  intro name output h
  simp at h

theorem Walk.faithful (hm : m.Canonical) (h : Walk m layout steps r r' none)
    (hs : m.Entries steps) (hr : Faithful m layout r) : Faithful m layout r' := by
  intro name output hslot
  cases hold : r.slot? name with
  | some slot =>
    obtain rfl : slot = .done output := Option.some.inj ((h.extension.slot hold).symm.trans hslot)
    exact hr name output hold
  | none =>
    obtain ⟨id, d, hd, rfl, ⟨start, hstart, hp⟩, hdone, he⟩ := h.new_slot_done hold hslot
    have hid := hm.freshPath (hs start hstart) hp
    exact ⟨id, d, hid.lookup hd, hd, he, Slot.done.inj hdone⟩

/-- The output of a name does not depend on the seeds, on their order, or on the cycle in which the
name was met. -/
theorem extendAll_described {seeds : List Nat} {name : String} {output : Option TargetDecl}
    (hm : m.Canonical) (hseeds : ∀ seed ∈ seeds, m.IsEntry seed)
    (hfault : (extendAll m layout seeds .empty).fault = none)
    (hslot : (extendAll m layout seeds .empty).registry.slot? name = some (.done output)) :
    ∃ id d, m.lookup name = some id ∧ m.decl? id = some d ∧ output = d.target? m layout ∧
      d.DescribedBy m layout output := by
  have hw := extendAll_walk m layout seeds .empty
  rw [hfault] at hw
  have hs : m.Entries (seeds.map .reference) := by
    intro id hid
    obtain ⟨seed, hseed, heq⟩ := List.mem_map.mp hid
    exact Step.reference.inj heq ▸ hseeds seed hseed
  obtain ⟨id, d, hl, hd, he, rfl⟩ := hw.faithful hm hs .empty name output hslot
  exact ⟨id, d, hl, hd, rfl, Declaration.describedBy_target? hm hd he⟩

end

def sampleInterface : TargetInterface where
  name := "Node"
  qualified := "tree.Node"
  supertype := some "Base"
  fields := [⟨"children", "Node[]"⟩, ⟨"kind", "Kind"⟩]
  imports := ["tree.Base", "tree.Node", "tree.Kind"]

/-- The class is met inside the closure of its superclass, and its own closure adds nothing. -/
theorem extendAll_described_sample :
    Model.sample.Canonical ∧ (∀ seed ∈ [1, 0], Model.sample.IsEntry seed) ∧
    (extendAll Model.sample none [1, 0] .empty).fault = none ∧
    (extendAll Model.sample none [1, 0] .empty).registry.slot? "tree.Node" =
      some (.done (some (.ofInterface sampleInterface))) ∧
    ∃ id d, Model.sample.lookup "tree.Node" = some id ∧ Model.sample.decl? id = some d ∧
      some (.ofInterface sampleInterface) = d.target? Model.sample none ∧
      d.DescribedBy Model.sample none (some (.ofInterface sampleInterface)) := by
  have hm : Model.sample.Canonical := by decide
  have hseeds : ∀ seed ∈ [1, 0], Model.sample.IsEntry seed := by decide
  have hfault : (extendAll Model.sample none [1, 0] .empty).fault = none := by decide
  have hslot : (extendAll Model.sample none [1, 0] .empty).registry.slot? "tree.Node" =
      some (.done (some (.ofInterface sampleInterface))) := by decide +kernel
  exact ⟨hm, hseeds, hfault, hslot, extendAll_described hm hseeds hfault hslot⟩

end Closure

end TypeWeave
