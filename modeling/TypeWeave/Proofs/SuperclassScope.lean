import Mathlib.Data.List.Infix
import TypeWeave.Proofs.SourceOrder
import TypeWeave.Proofs.Wildcards

/-!
# Where a superclass is looked up

The meanings a simple name can have are tried in a fixed order (`resolveSimple?_eq_head?`). The name
of a superclass is looked up where the names in the body of the class are, and not around the class:
a class that declares a member type of that name, or has the name itself, captures it
(`superclass_meaning`, `sampleOrder_extends_own_member`).
-/

namespace TypeWeave.Java

-- ---------------------------------------------------------------------------
-- The order of meanings
-- ---------------------------------------------------------------------------

def ownMeanings (names : Names) (enclosing name : String) : List String :=
  [enclosing].filter (simpleName · = name) ++ [enclosing ++ "." ++ name].filter (· ∈ names)

/-- What a simple name can mean, first choice first: the types it stands in and their members, then
single imports, the package, imports of whole packages and `java.lang`. -/
def meanings (names : Names) (unit : SourceUnit) (scope : List String) (name : String) :
    List String :=
  scope.flatMap (ownMeanings names · name) ++
  (unit.imports.filterMap (Import.single? name) ++
  ([qualify unit.package name].filter (· ∈ names) ++
  (unit.imports.filterMap (Import.member? names name) ++
  ([name].filter (· ∈ languageNames)).map ("java.lang." ++ ·))))

section
variable (names : Names) (unit : SourceUnit) (scope : List String) (name : String)

theorem head?_filter_singleton (p : α → Bool) (a : α) :
    ([a].filter p).head? = if p a then some a else none := by
  cases h : p a <;> simp [h]

theorem head?_ownMeanings (enclosing : String) : (ownMeanings names enclosing name).head? =
    if simpleName enclosing = name then some enclosing
    else if enclosing ++ "." ++ name ∈ names then some (enclosing ++ "." ++ name)
    else none := by
  rw [ownMeanings, List.head?_append, head?_filter_singleton, head?_filter_singleton]
  by_cases hself : simpleName enclosing = name
  · simp [hself]
  · by_cases hmember : enclosing ++ "." ++ name ∈ names <;> simp [hself, hmember]

theorem inScope?_eq_head? :
    inScope? names name scope = (scope.flatMap (ownMeanings names · name)).head? := by
  induction scope with
  | nil => rfl
  | cons enclosing outer ih =>
    rw [List.flatMap_cons, List.head?_append, ← ih, head?_ownMeanings, inScope?, Names.declares]
    by_cases hself : simpleName enclosing = name
    · simp [hself]
    · by_cases hmember : enclosing ++ "." ++ name ∈ names <;> simp [hself, hmember]

/-- A simple name has the first of its meanings. -/
theorem resolveSimple?_eq_head? :
    resolveSimple? names unit scope name = (meanings names unit scope name).head? := by
  have hpackage : inPackage? names unit.package name =
      ([qualify unit.package name].filter (· ∈ names)).head? := by
    rw [head?_filter_singleton]
    simp [inPackage?, Names.declares]
  have hlanguage : inLanguage? name =
      (([name].filter (· ∈ languageNames)).map ("java.lang." ++ ·)).head? := by
    rw [List.head?_map, head?_filter_singleton]
    by_cases h : name ∈ languageNames <;> simp [inLanguage?, h]
  simp only [resolveSimple?, meanings, List.head?_append, List.head?_filterMap,
    inScope?_eq_head?, hpackage, hlanguage, Option.orElse_eq_orElse, Option.orElse_eq_or]

/-- The names in the body of a type mean first what the type gives them. -/
theorem meanings_cons (enclosing : String) : meanings names unit (enclosing :: scope) name =
    ownMeanings names enclosing name ++ meanings names unit scope name := by
  simp only [meanings, List.flatMap_cons, List.append_assoc]

end

-- ---------------------------------------------------------------------------
-- The types around a type
-- ---------------------------------------------------------------------------

/-- The qualified names of the types with these names, outermost first, each in the one before;
innermost first. -/
def SourceFile.enclosing (file : SourceFile) (outer : List String) : List String :=
  (outer.inits.tail.map fun names => Text.join "." (file.package ++ names)).reverse

def Placement.qualified (p : Placement) : String := Text.join "." p.segments

def Placement.around (p : Placement) : List String := p.file.enclosing p.outer

theorem SourceFile.enclosing_concat (file : SourceFile) (outer : List String) (name : String) :
    file.enclosing (outer ++ [name]) =
      Text.join "." (file.package ++ (outer ++ [name])) :: file.enclosing outer := by
  have hinits : (outer ++ [name]).inits.tail = outer.inits.tail ++ [outer ++ [name]] := by
    rw [List.inits_append]
    cases outer <;> simp
  simp only [enclosing, hinits, List.map_append, List.reverse_append]
  rfl

mutual
/-- A type is resolved in its own scope, and that in the scope around it. -/
theorem collect_scope (file : SourceFile) (outer : List String) (qualified : String) :
    (type : WrittenType) → qualified = Placement.qualified ⟨file, outer, type⟩ →
      List.Forall₂ (fun p u => u.scope = p.qualified :: p.around)
        (type.placements file outer) (collect file (file.enclosing outer) qualified type)
  | .mk name kind nested, h => by
    have henclosing : qualified :: file.enclosing outer = file.enclosing (outer ++ [name]) := by
      rw [SourceFile.enclosing_concat, h, Placement.qualified, Placement.segments,
        List.append_assoc]
      rfl
    simp only [WrittenType.placements, collect]
    refine .cons ?_ ?_
    · rw [← h]
      rfl
    · rw [henclosing]
      apply collectNested_scope file (outer ++ [name]) qualified (by simp)
      rw [h, Placement.qualified, Placement.segments, List.append_assoc]
      rfl
theorem collectNested_scope (file : SourceFile) (outer : List String) (qualified : String)
    (hne : outer ≠ []) (h : qualified = Text.join "." (file.package ++ outer)) :
    (nested : List WrittenType) →
      List.Forall₂ (fun p u => u.scope = p.qualified :: p.around)
        (WrittenType.nestedPlacements file outer nested)
        (collectNested file (file.enclosing outer) qualified nested)
  | [] => .nil
  | type :: rest => by
    simp only [WrittenType.nestedPlacements, collectNested]
    refine List.rel_append ?_ (collectNested_scope file outer qualified hne h rest)
    apply collect_scope file outer _ type
    rw [h]
    exact (Text.join_concat "." (by simp [hne]) type.name).symm
end

theorem flatMap_unresolved_scope (files : List SourceFile) :
    List.Forall₂ (fun p u => u.scope = p.qualified :: p.around)
      (files.flatMap SourceFile.placements) (files.flatMap SourceFile.unresolved) := by
  apply forall₂_flatMap
  intro file _
  apply forall₂_flatMap
  intro type _
  exact collect_scope file [] _ type (qualify_eq_join file type)

theorem getElem?_of_forall₂ {R : α → β → Prop} {as : List α} {bs : List β} {i : Nat} {a : α}
    (h : List.Forall₂ R as bs) (ha : as[i]? = some a) : ∃ b, bs[i]? = some b ∧ R a b := by
  induction h generalizing i with
  | nil => simp at ha
  | cons hr _ ih =>
    cases i with
    | zero =>
      obtain rfl := Option.some.inj ha
      exact ⟨_, rfl, hr⟩
    | succ i => exact ih (by simpa using ha)

mutual
theorem exists_member_placement {file : SourceFile} {outer : List String} {p : Placement}
    {inner : WrittenType} (hinner : inner ∈ p.type.nested) :
    (type : WrittenType) → p ∈ type.placements file outer →
      ∃ q ∈ type.placements file outer, q.segments = p.segments ++ [inner.name]
  | .mk name kind nested, h => by
    simp only [WrittenType.placements, List.mem_cons, exists_eq_or_imp] at h ⊢
    rcases h with rfl | h
    · right
      refine ⟨⟨file, outer ++ [name], inner⟩, ?_, ?_⟩
      · apply WrittenType.mem_nestedPlacements.mpr
        refine ⟨inner, hinner, ?_⟩
        cases inner
        simp [WrittenType.placements]
      · simp [Placement.segments, WrittenType.name]
    · exact .inr (exists_member_nestedPlacement hinner nested h)
theorem exists_member_nestedPlacement {file : SourceFile} {outer : List String} {p : Placement}
    {inner : WrittenType} (hinner : inner ∈ p.type.nested) :
    (types : List WrittenType) → p ∈ WrittenType.nestedPlacements file outer types →
      ∃ q ∈ WrittenType.nestedPlacements file outer types, q.segments = p.segments ++ [inner.name]
  | [], h => by simp [WrittenType.nestedPlacements] at h
  | type :: rest, h => by
    simp only [WrittenType.nestedPlacements, List.mem_append, or_and_right, exists_or] at h ⊢
    rcases h with h | h
    · exact .inl (exists_member_placement hinner type h)
    · exact .inr (exists_member_nestedPlacement hinner rest h)
end

section
variable {files : List SourceFile} {p : Placement}

/-- A member type is declared under the name of its type. -/
theorem member_mem_declaredNames (hp : p ∈ files.flatMap SourceFile.placements)
    {inner : WrittenType} (hinner : inner ∈ p.type.nested) :
    p.qualified ++ "." ++ inner.name ∈ declaredNames files := by
  obtain ⟨file, hfile, hp⟩ := List.mem_flatMap.mp hp
  obtain ⟨type, htype, hp⟩ := List.mem_flatMap.mp hp
  obtain ⟨q, hq, hsegments⟩ := exists_member_placement hinner type hp
  have hq : q ∈ files.flatMap SourceFile.placements :=
    List.mem_flatMap.mpr ⟨file, hfile, List.mem_flatMap.mpr ⟨type, htype, hq⟩⟩
  obtain ⟨u, hu, hcollected⟩ :=
    exists_left_of_forall₂ (flatMap_unresolved_collected files).flip hq
  have hname : u.qualified = p.qualified ++ "." ++ inner.name := by
    rw [hcollected.qualified, hsegments, Placement.qualified,
      Text.join_concat "." (by simp [Placement.segments])]
  rw [← hname]
  exact List.mem_map_of_mem hu

/-- What a simple name means around a type; itself if it means nothing there. -/
def Placement.meaningAround (p : Placement) (names : Names) (name : String) : String :=
  (meanings names p.file.unit p.around name).head?.getD name

section
variable {i : Nat} {name : String} {args : List TypeExpr} {fields : List WrittenField}

/-- The superclass has the first meaning of its name in the body of the class. -/
theorem decl?_of_extends (hp : (files.flatMap SourceFile.placements)[i]? = some p)
    (hkind : p.type.kind = .classType (some (.named [name] args)) fields) :
    ∃ d qualified ts fields', (buildModel files).decl? i = some d ∧
      d.qualified = p.qualified ∧
      d.kind = .classType ⟨some (.named qualified (simpleName qualified) ts
        ((buildModel files).lookup qualified)), fields'⟩ ∧
      qualified = (ownMeanings (declaredNames files) d.qualified name).head?.getD
        (p.meaningAround (declaredNames files) name) := by
  obtain ⟨u, hu, hcollected⟩ := getElem?_of_forall₂ (flatMap_unresolved_collected files) hp
  obtain ⟨v, hv, hscope⟩ := getElem?_of_forall₂ (flatMap_unresolved_scope files) hp
  obtain rfl : u = v := Option.some.inj (hu.symm.trans hv)
  refine ⟨u.declaration (declaredNames files),
    resolveSegments (declaredNames files) u.file.unit u.scope [name],
    resolveTypes (declaredNames files) u.file.unit u.scope args,
    fields.map fun f => ⟨f.name, u.resolve (declaredNames files) f.type, f.visibility⟩,
    decl?_buildModel.mpr ⟨u, hu, rfl⟩, hcollected.qualified, ?_, ?_⟩
  · simp only [Unresolved.declaration, Unresolved.kind, hcollected.type, hkind, Option.map_some,
      Unresolved.resolve, resolveType, lookup_eq_index?]
  · have hown : (u.declaration (declaredNames files)).qualified = p.qualified :=
      hcollected.qualified
    rw [hown, resolveSegments, resolveSimple?_eq_head?, hscope, meanings_cons, List.head?_append,
      Placement.meaningAround, ← hcollected.file]
    cases (ownMeanings (declaredNames files) p.qualified name).head? <;> rfl

/-- The superclass of a class is what its name means around the class, unless the class has the name
itself or has a member type of that name. The class, or else its member, then takes the place of
what the name means around it. -/
theorem superclass_meaning (hp : (files.flatMap SourceFile.placements)[i]? = some p)
    (hkind : p.type.kind = .classType (some (.named [name] args)) fields) :
    ∃ d qualified ts fields', (buildModel files).decl? i = some d ∧ d.qualified = p.qualified ∧
      d.kind = .classType ⟨some (.named qualified (simpleName qualified) ts
        ((buildModel files).lookup qualified)), fields'⟩ ∧
      (simpleName p.qualified ≠ name → p.qualified ++ "." ++ name ∉ declaredNames files →
        qualified = p.meaningAround (declaredNames files) name) ∧
      (simpleName p.qualified ≠ name → p.qualified ++ "." ++ name ∈ declaredNames files →
        qualified = p.qualified ++ "." ++ name) ∧
      (simpleName p.qualified = name → qualified = p.qualified) ∧
      (∀ inner ∈ p.type.nested, inner.name = name →
        p.qualified ++ "." ++ name ∈ declaredNames files) ∧
      (qualified = p.meaningAround (declaredNames files) name ↔
        ∀ q ∈ (ownMeanings (declaredNames files) p.qualified name).head?,
          q = p.meaningAround (declaredNames files) name) := by
  obtain ⟨d, qualified, ts, fields', hd, hown, hclass, hqualified⟩ := decl?_of_extends hp hkind
  rw [hown] at hqualified
  refine ⟨d, qualified, ts, fields', hd, hown, hclass, ?_, ?_, ?_, ?_, ?_⟩
  · intro hself hmember
    rw [hqualified, head?_ownMeanings, if_neg hself, if_neg hmember]
    rfl
  · intro hself hmember
    rw [hqualified, head?_ownMeanings, if_neg hself, if_pos hmember]
    rfl
  · intro hself
    rw [hqualified, head?_ownMeanings, if_pos hself]
    rfl
  · rintro inner hinner rfl
    exact member_mem_declaredNames (List.mem_of_getElem? hp) hinner
  · rw [hqualified]
    cases (ownMeanings (declaredNames files) p.qualified name).head? with
    | none => simp
    | some q => simp

end

end

/-- `Order` imports the type it extends, and has a member of the same name. Its other member extends
that one. -/
def sampleOrder : List SourceFile := [
  { location := ⟨⟨"src"⟩, ⟨"src/shop/Order.java"⟩⟩
    unit := {
      package := some "shop"
      imports := [.single "base.Entity"]
      types := [
        .mk "Order" (.classType (some (.named ["Entity"] [])) []) [
          .mk "Entity" (.classType none []) [],
          .mk "Line" (.classType (some (.named ["Entity"] [])) []) []]] } },
  { location := ⟨⟨"src"⟩, ⟨"src/base/Entity.java"⟩⟩
    unit := {
      package := some "base"
      types := [.mk "Entity" (.classType none [⟨"id", .primitive "long", .publicAccess⟩]) []] } }]

theorem superclass_meaning_sample :
    (sampleOrder.flatMap SourceFile.placements)[2]? = some ⟨sampleOrder[0], ["Order"],
      .mk "Line" (.classType (some (.named ["Entity"] [])) []) []⟩ ∧
    ∃ d ts fields', (buildModel sampleOrder).decl? 2 = some d ∧
      d.qualified = "shop.Order.Line" ∧
      d.kind = .classType ⟨some (.named "shop.Order.Entity" "Entity" ts (some 1)), fields'⟩ := by
  have hline : (sampleOrder.flatMap SourceFile.placements)[2]? = some ⟨sampleOrder[0], ["Order"],
      .mk "Line" (.classType (some (.named ["Entity"] [])) []) []⟩ := rfl
  obtain ⟨d, qualified, ts, fields', hd, hown, hclass, hmeaning, -⟩ := superclass_meaning hline rfl
  obtain rfl : qualified = "shop.Order.Entity" :=
    (hmeaning (by decide +kernel) (by decide +kernel)).trans (by decide +kernel)
  have hlookup : (buildModel sampleOrder).lookup "shop.Order.Entity" = some 1 := by decide +kernel
  rw [hlookup] at hclass
  exact ⟨hline, d, ts, fields', hd, hown, hclass⟩

/-- Around the class its superclass is the imported type, and it extends its own member. -/
theorem sampleOrder_extends_own_member :
    ∃ p, (sampleOrder.flatMap SourceFile.placements)[0]? = some p ∧
      p.type.kind = .classType (some (.named ["Entity"] [])) [] ∧
      p.meaningAround (declaredNames sampleOrder) "Entity" = "base.Entity" ∧
      ∃ d ts fields', (buildModel sampleOrder).decl? 0 = some d ∧ d.qualified = "shop.Order" ∧
        d.kind = .classType ⟨some (.named "shop.Order.Entity" "Entity" ts (some 1)), fields'⟩ := by
  have horder : (sampleOrder.flatMap SourceFile.placements)[0]? =
      some ⟨sampleOrder[0], [], sampleOrder[0].unit.types[0]⟩ := rfl
  obtain ⟨d, qualified, ts, fields', hd, hown, hclass, hqualified⟩ :=
    @decl?_of_extends sampleOrder _ 0 "Entity" [] [] horder rfl
  rw [hown] at hqualified
  obtain rfl : qualified = "shop.Order.Entity" := hqualified.trans (by decide +kernel)
  have hlookup : (buildModel sampleOrder).lookup "shop.Order.Entity" = some 1 := by decide +kernel
  rw [hlookup] at hclass
  exact ⟨_, horder, rfl, by decide +kernel, d, ts, fields', hd, hown, hclass⟩

end TypeWeave.Java
