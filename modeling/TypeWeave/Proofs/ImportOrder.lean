import TypeWeave.Proofs.AddedSources

/-!
# The order of imports

A simple name is looked up twice among the imports of its file, first among those of single types
and later among those of whole packages, and both times the first import that has the name wins. If
the imports that have it agree, any of them may come first (`resolveSimple?_perm`). So the imports of
a file can be permuted without changing the model, wherever a name stands in a type and however
deeply the type is nested (`buildModel_perm_imports`).
-/

namespace TypeWeave.Java

-- ---------------------------------------------------------------------------
-- Imports that agree
-- ---------------------------------------------------------------------------

theorem findSome?_perm {f : α → Option β} {as bs : List α} (h : as.Perm bs)
    (hagree : ∀ a ∈ as, ∀ b ∈ as, ∀ x y, f a = some x → f b = some y → x = y) :
    as.findSome? f = bs.findSome? f := by
  cases has : as.findSome? f with
  | none =>
    rw [List.findSome?_eq_none_iff] at has
    symm
    rw [List.findSome?_eq_none_iff]
    intro b hb
    exact has b (h.mem_iff.mpr hb)
  | some x =>
    obtain ⟨a, ha, hx⟩ := List.exists_of_findSome?_eq_some has
    cases hbs : bs.findSome? f with
    | none =>
      have hnone := List.findSome?_eq_none_iff.mp hbs a (h.mem_iff.mp ha)
      rw [hx] at hnone
      cases hnone
    | some y =>
      obtain ⟨b, hb, hy⟩ := List.exists_of_findSome?_eq_some hbs
      rw [hagree a ha b (h.mem_iff.mpr hb) x y hx hy]

/-- What an import of the whole package has: what the source tree declares in it, and for
`java.util` the listed names. -/
def Supplies (names : Names) (package name : String) : Prop :=
  qualify (some package) name ∈ names ∨ package = "java.util" ∧ name ∈ utilityNames

instance (names : Names) (package name : String) : Decidable (Supplies names package name) :=
  inferInstanceAs (Decidable (_ ∨ _))

/-- No two of the imports differ in what they have for a simple name. Of the imports of whole
packages only the given names are asked for. -/
structure Unambiguous (names : Names) (imports : List Import) (simple : List String) : Prop where
  single : ∀ path path', .single path ∈ imports → .single path' ∈ imports →
    simpleName path = simpleName path' → path = path'
  onDemand : ∀ name ∈ simple, ∀ package package', .onDemand package ∈ imports →
    .onDemand package' ∈ imports → Supplies names package name → Supplies names package' name →
    package = package'

section
variable {names : Names} {name : String} {imports : List Import} {simple : List String}

theorem Import.single?_eq_some {i : Import} {path : String} (h : i.single? name = some path) :
    i = .single path ∧ simpleName path = name := by
  cases i with
  | single other =>
    simp only [single?, Option.ite_none_right_eq_some, Option.some.injEq] at h
    obtain ⟨hname, rfl⟩ := h
    exact ⟨rfl, hname⟩
  | onDemand package => cases h

theorem Import.member?_eq_some {i : Import} {candidate : String}
    (h : i.member? names name = some candidate) : ∃ package, i = .onDemand package ∧
      Supplies names package name ∧ candidate = qualify (some package) name := by
  cases i with
  | single path => cases h
  | onDemand package =>
    simp only [member?, Names.declares, Option.ite_none_right_eq_some, Option.some.injEq,
      Bool.or_eq_true, Bool.and_eq_true, decide_eq_true_eq, List.contains_iff_mem] at h
    exact ⟨package, rfl, h.1, h.2.symm⟩

/-- The order of the imports does not matter for a simple name. -/
theorem resolveSimple?_perm {unit : SourceUnit} (scope : List String)
    (hperm : unit.imports.Perm imports) (h : Unambiguous names unit.imports simple)
    (hname : name ∈ simple) :
    resolveSimple? names { unit with imports } scope name =
      resolveSimple? names unit scope name := by
  have hsingle : unit.imports.findSome? (Import.single? name) =
      imports.findSome? (Import.single? name) := by
    apply findSome?_perm hperm
    intro i hi j hj path path' hpath hpath'
    obtain ⟨rfl, hsimple⟩ := Import.single?_eq_some hpath
    obtain ⟨rfl, hsimple'⟩ := Import.single?_eq_some hpath'
    exact h.single path path' hi hj (hsimple.trans hsimple'.symm)
  have hmember : unit.imports.findSome? (Import.member? names name) =
      imports.findSome? (Import.member? names name) := by
    apply findSome?_perm hperm
    intro i hi j hj candidate candidate' hcandidate hcandidate'
    obtain ⟨package, rfl, hsupplies, rfl⟩ := Import.member?_eq_some hcandidate
    obtain ⟨package', rfl, hsupplies', rfl⟩ := Import.member?_eq_some hcandidate'
    rw [h.onDemand name hname package package' hi hj hsupplies hsupplies']
  simp only [resolveSimple?, hsingle, hmember]

theorem resolveSegments_perm {unit : SourceUnit} (scope : List String)
    (hperm : unit.imports.Perm imports) (h : Unambiguous names unit.imports simple)
    {segments : List String} (hhead : ∀ name ∈ segments.head?, name ∈ simple) :
    resolveSegments names { unit with imports } scope segments =
      resolveSegments names unit scope segments := by
  match segments with
  | [] => rfl
  | [name] => simp only [resolveSegments, resolveSimple?_perm scope hperm h (hhead name rfl)]
  | first :: second :: rest =>
    simp only [resolveSegments, resolveSimple?_perm scope hperm h (hhead first rfl)]

end

-- ---------------------------------------------------------------------------
-- Names in types
-- ---------------------------------------------------------------------------

mutual
/-- The simple names that are looked up for a type: every written name is resolved through its first
segment. -/
def TypeExpr.heads : TypeExpr → List String
  | .primitive _ | .wildcard => []
  | .array element => element.heads
  | .bounded bound => bound.heads
  | .named segments args => segments.head?.toList ++ headsOf args
def TypeExpr.headsOf : List TypeExpr → List String
  | [] => []
  | type :: types => type.heads ++ headsOf types
end

section
variable {names : Names} {unit : SourceUnit} {imports : List Import} {simple : List String}
  (scope : List String)

mutual
theorem resolveType_perm (hperm : unit.imports.Perm imports)
    (h : Unambiguous names unit.imports simple) :
    (e : TypeExpr) → (∀ name ∈ e.heads, name ∈ simple) →
      resolveType names { unit with imports } scope e = resolveType names unit scope e
  | .primitive keyword, _ => rfl
  | .array element, he => by
    simp only [TypeExpr.heads] at he
    simp only [resolveType, resolveType_perm hperm h element he]
  | .wildcard, _ => rfl
  | .bounded bound, he => by
    simp only [TypeExpr.heads] at he
    simp only [resolveType, resolveType_perm hperm h bound he]
  | .named segments args, he => by
    simp only [TypeExpr.heads, List.mem_append, Option.mem_toList, or_imp, forall_and] at he
    simp only [resolveType, resolveSegments_perm scope hperm h he.1,
      resolveTypes_perm hperm h args he.2]
theorem resolveTypes_perm (hperm : unit.imports.Perm imports)
    (h : Unambiguous names unit.imports simple) :
    (es : List TypeExpr) → (∀ name ∈ TypeExpr.headsOf es, name ∈ simple) →
      resolveTypes names { unit with imports } scope es = resolveTypes names unit scope es
  | [], _ => rfl
  | e :: es, he => by
    simp only [TypeExpr.headsOf, List.mem_append, or_imp, forall_and] at he
    simp only [resolveTypes, resolveType_perm hperm h e he.1,
      resolveTypes_perm hperm h es he.2]
end

end

-- ---------------------------------------------------------------------------
-- The file with other imports
-- ---------------------------------------------------------------------------

def SourceFile.withImports (file : SourceFile) (imports : List Import) : SourceFile :=
  { file with unit := { file.unit with imports } }

def SourceFile.lookedUp (file : SourceFile) : List String :=
  file.unresolved.flatMap fun u => u.type.kind.types.flatMap TypeExpr.heads

section
variable {file : SourceFile} {imports : List Import} {names : Names}

mutual
theorem collect_withImports {outer : List String} {qualified : String} : (type : WrittenType) →
    collect (file.withImports imports) outer qualified type =
      (collect file outer qualified type).map ({ · with file := file.withImports imports })
  | .mk name kind nested => by
    simp only [collect, List.map_cons, collectNested_withImports nested]
theorem collectNested_withImports {outer : List String} {qualified : String} :
    (types : List WrittenType) →
      collectNested (file.withImports imports) outer qualified types =
        (collectNested file outer qualified types).map
          ({ · with file := file.withImports imports })
  | [] => rfl
  | type :: rest => by
    simp only [collectNested, List.map_append, collect_withImports type,
      collectNested_withImports rest]
end

theorem unresolved_withImports : (file.withImports imports).unresolved =
    file.unresolved.map ({ · with file := file.withImports imports }) := by
  simp only [SourceFile.unresolved, List.map_flatMap]
  exact List.flatMap_congr fun type _ => collect_withImports type

/-- Resolving a type of the file with other imports gives the same declaration. -/
theorem declaration_withImports (hperm : file.unit.imports.Perm imports)
    (h : Unambiguous names file.unit.imports file.lookedUp) {u : Unresolved}
    (hu : u ∈ file.unresolved) :
    ({ u with file := file.withImports imports } : Unresolved).declaration names =
      u.declaration names := by
  obtain ⟨hfile, -⟩ := mem_unresolved hu
  have hresolve (e : TypeExpr) (he : e ∈ u.type.kind.types) :
      ({ u with file := file.withImports imports } : Unresolved).resolve names e =
        u.resolve names e := by
    unfold Unresolved.resolve
    rw [hfile]
    apply resolveType_perm u.scope hperm h
    intro name hname
    exact List.mem_flatMap.mpr ⟨u, hu, List.mem_flatMap.mpr ⟨e, he, hname⟩⟩
  have hkind : ({ u with file := file.withImports imports } : Unresolved).kind names =
      u.kind names := by
    unfold Unresolved.kind
    cases htype : u.type.kind with
    | classType superclass fields =>
      simp only [htype, WrittenKind.types, List.mem_append, Option.mem_toList, List.mem_map]
        at hresolve
      have hsuperclass : superclass.map
          (({ u with file := file.withImports imports } : Unresolved).resolve names) =
            superclass.map (u.resolve names) :=
        Option.map_congr fun e he => hresolve e (.inl he)
      have hfields : ∀ f ∈ fields,
          ({ u with file := file.withImports imports } : Unresolved).resolve names f.type =
            u.resolve names f.type :=
        fun f hf => hresolve f.type (.inr ⟨f, hf, rfl⟩)
      simp only [hsuperclass, DeclKind.classType.injEq, ClassShape.mk.injEq, true_and]
      apply List.map_congr_left
      intro f hf
      rw [hfields f hf]
    | _ => rfl
  have hlocation : (file.withImports imports).location = u.file.location := by
    rw [hfile]
    rfl
  simp only [Unresolved.declaration, hkind, hlocation]

end

/-- If no two imports of a file have a name that is looked up for it and mean different types, its
imports can be put into any order: the model of the source files stays the same. -/
theorem buildModel_perm_imports {before after : List SourceFile} {file : SourceFile}
    {imports : List Import} (hperm : file.unit.imports.Perm imports)
    (h : Unambiguous (declaredNames (before ++ file :: after)) file.unit.imports file.lookedUp) :
    buildModel (before ++ file.withImports imports :: after) =
      buildModel (before ++ file :: after) := by
  have hnames : declaredNames (before ++ file.withImports imports :: after) =
      declaredNames (before ++ file :: after) := by
    simp [declaredNames, unresolved_withImports, Function.comp_def]
  have hfile : (file.withImports imports).unresolved.map
      (·.declaration (declaredNames (before ++ file :: after))) =
        file.unresolved.map (·.declaration (declaredNames (before ++ file :: after))) := by
    rw [unresolved_withImports, List.map_map]
    apply List.map_congr_left
    intro u hu
    exact declaration_withImports hperm h hu
  have hdecls (files : List SourceFile) : buildModel files =
      ⟨files.flatMap fun f => f.unresolved.map (·.declaration (declaredNames files))⟩ := by
    simp [buildModel, declaredNames, List.map_flatMap]
  rw [hdecls, hdecls, hnames]
  simp only [List.flatMap_append, List.flatMap_cons, hfile]

def orderFile : SourceFile where
  location := ⟨⟨"src"⟩, ⟨"src/shop/Order.java"⟩⟩
  unit := {
    package := some "shop"
    imports := [.single "base.Item", .onDemand "java.util", .single "java.time.Instant",
      .onDemand "base", .single "base.Item"]
    types := [
      .mk "Order" (.classType (some (.named ["Item"] [])) [
          ⟨"lines", .named ["Map"] [.named ["Item", "Kind"] [],
            .bounded (.array (.named ["List"] [.named ["Money"] []]))], .publicAccess⟩])
        [.mk "Entry" (.classType none [⟨"at", .array (.named ["Instant"] []), .publicAccess⟩]) []]] }

def baseFile : SourceFile where
  location := ⟨⟨"src"⟩, ⟨"src/base/Item.java"⟩⟩
  unit := {
    package := some "base"
    types := [
      .mk "Item" (.classType none []) [.mk "Kind" (.enumType [⟨"FOOD", none⟩]) []],
      .mk "Money" (.classType none [⟨"cents", .primitive "long", .publicAccess⟩]) []] }

theorem buildModel_perm_imports_sample :
    orderFile.unit.imports.Perm orderFile.unit.imports.reverse ∧
    Unambiguous (declaredNames [baseFile, orderFile]) orderFile.unit.imports orderFile.lookedUp ∧
    orderFile.lookedUp = ["Item", "Map", "Item", "List", "Money", "Instant"] ∧
    buildModel [baseFile, orderFile.withImports orderFile.unit.imports.reverse] =
      buildModel [baseFile, orderFile] := by
  have hperm : orderFile.unit.imports.Perm orderFile.unit.imports.reverse :=
    (List.reverse_perm _).symm
  have hlooked : orderFile.lookedUp = ["Item", "Map", "Item", "List", "Money", "Instant"] := by
    decide +kernel
  have hapart : ∀ name ∈ orderFile.lookedUp,
      ¬(Supplies (declaredNames [baseFile, orderFile]) "java.util" name ∧
        Supplies (declaredNames [baseFile, orderFile]) "base" name) := by
    decide +kernel
  have hun : Unambiguous (declaredNames [baseFile, orderFile]) orderFile.unit.imports
      orderFile.lookedUp := by
    constructor
    · intro path path' hpath hpath' hsimple
      simp only [orderFile, List.mem_cons, Import.single.injEq, reduceCtorEq, List.not_mem_nil,
        or_false, false_or] at hpath hpath'
      revert hsimple
      rcases hpath with rfl | rfl | rfl <;> rcases hpath' with rfl | rfl | rfl <;> decide
    · intro name hname package package' hp hp' hs hs'
      simp only [orderFile, List.mem_cons, Import.onDemand.injEq, reduceCtorEq, List.not_mem_nil,
        or_false, false_or] at hp hp'
      rcases hp with rfl | rfl <;> rcases hp' with rfl | rfl
      · rfl
      · exact absurd ⟨hs, hs'⟩ (hapart name hname)
      · exact absurd ⟨hs', hs⟩ (hapart name hname)
      · rfl
  have hbuilt := @buildModel_perm_imports [baseFile] [] orderFile _ hperm hun
  exact ⟨hperm, hun, hlooked, hbuilt⟩

end TypeWeave.Java
