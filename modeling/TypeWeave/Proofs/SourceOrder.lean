import TypeWeave.Proofs.Renumbering
import TypeWeave.Proofs.SourceFiles

/-!
# The order of source files

Resolving a name asks whether names are declared, never where. So the declarations of permuted files
differ in the indices of their references alone, and if no name is declared twice the two models are
renumberings of each other (`buildModel_renumbering`). A run then gives the same output whatever the
order of the files (`run_perm`).
-/

namespace TypeWeave.Java

-- ---------------------------------------------------------------------------
-- Resolving against other names
-- ---------------------------------------------------------------------------

namespace Names

/-- The new index of what stands at an index. -/
def renumbering (names names' : Names) (id : Nat) : Nat := (names[id]?.bind names'.index?).getD 0

variable {names names' : Names} {qualified : String} {id : Nat}

theorem getElem?_of_index? (h : names.index? qualified = some id) :
    names[id]? = some qualified := by
  obtain ⟨name, hname, heq⟩ := getElem?_of_lastIndex? h
  obtain rfl : name = qualified := by simpa using heq
  exact hname

theorem index?_eq_none_iff : names.index? qualified = none ↔ qualified ∉ names := by
  simp only [index?, lastIndex?_eq_none_iff, beq_eq_false_iff_ne]
  constructor
  · intro h hm
    exact h qualified hm rfl
  · rintro h name hm rfl
    exact h hm

theorem exists_index?_of_mem (h : qualified ∈ names) : ∃ id, names.index? qualified = some id := by
  cases hi : names.index? qualified with
  | none => exact absurd h (index?_eq_none_iff.mp hi)
  | some id => exact ⟨id, rfl⟩

theorem index?_renumbering (h : names.Perm names') :
    names'.index? qualified = (names.index? qualified).map (renumbering names names') := by
  cases hi : names.index? qualified with
  | none =>
    have hn := index?_eq_none_iff.mp hi
    exact index?_eq_none_iff.mpr fun hm => hn (h.mem_iff.mpr hm)
  | some id =>
    have hid := getElem?_of_index? hi
    obtain ⟨id', hi'⟩ := exists_index?_of_mem (h.mem_iff.mp (List.mem_of_getElem? hid))
    simp [renumbering, hid, hi']

theorem declares_congr (h : names.Perm names') : names.declares = names'.declares := by
  funext qualified
  rw [Bool.eq_iff_iff, declares, declares, List.contains_iff_mem, List.contains_iff_mem]
  exact h.mem_iff

end Names

section
variable {names names' : Names} (unit : SourceUnit) (scope : List String)

theorem inScope?_congr (h : names.declares = names'.declares) (name : String) :
    inScope? names name scope = inScope? names' name scope := by
  induction scope with
  | nil => rfl
  | cons enclosing outer ih => simp only [inScope?, h, ih]

theorem resolveSimple?_congr (h : names.declares = names'.declares) (name : String) :
    resolveSimple? names unit scope name = resolveSimple? names' unit scope name := by
  have hmember : Import.member? names name = Import.member? names' name := by
    funext i
    cases i <;> simp only [Import.member?, h]
  simp only [resolveSimple?, inScope?_congr scope h, inPackage?, h, hmember]

theorem resolveSegments_congr (h : names.declares = names'.declares) (segments : List String) :
    resolveSegments names unit scope segments = resolveSegments names' unit scope segments := by
  match segments with
  | [] => rfl
  | [name] => simp only [resolveSegments, resolveSimple?_congr unit scope h]
  | first :: second :: rest => simp only [resolveSegments, resolveSimple?_congr unit scope h]

mutual
theorem resolveType_renumber (h : names.Perm names') : (e : TypeExpr) →
    resolveType names' unit scope e =
      (resolveType names unit scope e).renumber (names.renumbering names')
  | .primitive keyword => rfl
  | .array element => by
    simp only [resolveType, TypeRef.renumber, resolveType_renumber h element]
  | .wildcard => rfl
  | .bounded bound => by
    simp only [resolveType, TypeRef.renumber, resolveType_renumber h bound]
  | .named segments args => by
    simp only [resolveType, TypeRef.renumber, resolveTypes_renumber h args,
      resolveSegments_congr unit scope (Names.declares_congr h), Names.index?_renumbering h]
theorem resolveTypes_renumber (h : names.Perm names') : (es : List TypeExpr) →
    resolveTypes names' unit scope es =
      TypeRef.renumberAll (names.renumbering names') (resolveTypes names unit scope es)
  | [] => rfl
  | e :: es => by
    simp only [resolveTypes, TypeRef.renumberAll, resolveType_renumber h e,
      resolveTypes_renumber h es]
end

end

theorem Unresolved.declaration_renumber {names names' : Names} (h : names.Perm names')
    (u : Unresolved) :
    u.declaration names' = (u.declaration names).renumber (names.renumbering names') := by
  have hresolve : u.resolve names' =
      fun e => (u.resolve names e).renumber (names.renumbering names') :=
    funext (resolveType_renumber _ _ h)
  simp only [declaration, Declaration.renumber, kind]
  cases u.type.kind with
  | classType superclass fields =>
    simp [DeclKind.renumber, ClassShape.renumber, FieldDecl.renumber, hresolve, Function.comp_def]
  | _ => rfl

-- ---------------------------------------------------------------------------
-- Permuted files
-- ---------------------------------------------------------------------------

def declaredNames (files : List SourceFile) : Names :=
  (files.flatMap SourceFile.unresolved).map (·.qualified)

section
variable {files files' : List SourceFile}

theorem map_qualified_buildModel :
    (buildModel files).decls.map (·.qualified) = declaredNames files := by
  simp [buildModel, declaredNames, Unresolved.declaration, Function.comp_def]

theorem lookup_eq_index? (name : String) :
    (buildModel files).lookup name = (declaredNames files).index? name :=
  lookup_buildModel files name

theorem decl?_buildModel {id : Nat} {d : Declaration} :
    (buildModel files).decl? id = some d ↔
      ∃ u, (files.flatMap SourceFile.unresolved)[id]? = some u ∧
        u.declaration (declaredNames files) = d := by
  simp [Model.decl?, buildModel, declaredNames]

theorem declaredNames_perm (h : files.Perm files') :
    (declaredNames files).Perm (declaredNames files') :=
  (h.flatMap_right _).map _

theorem buildModel_renumbering (h : files.Perm files') (hn : (declaredNames files).Nodup) :
    Renumbering (buildModel files) (buildModel files')
      ((declaredNames files).renumbering (declaredNames files')) := by
  have hnames := declaredNames_perm h
  intro id d hd
  obtain ⟨u, hu, rfl⟩ := decl?_buildModel.mp hd
  have hname : (declaredNames files)[id]? = some u.qualified := by
    simp only [declaredNames, List.getElem?_map, hu, Option.map_some]
  obtain ⟨id', hid'⟩ :=
    Names.exists_index?_of_mem (hnames.mem_iff.mp (List.mem_of_getElem? hname))
  have hnew : (declaredNames files).renumbering (declaredNames files') id = id' := by
    simp [Names.renumbering, hname, hid']
  -- What stands at the new index has the same name, and only one type has it.
  have hname' := Names.getElem?_of_index? hid'
  simp only [declaredNames, List.getElem?_map, Option.map_eq_some_iff] at hname'
  obtain ⟨u', hu', hq⟩ := hname'
  have hmem : u' ∈ files.flatMap SourceFile.unresolved :=
    (h.flatMap_right _).mem_iff.mpr (List.mem_of_getElem? hu')
  obtain rfl : u' = u := List.inj_on_of_nodup_map hn hmem (List.mem_of_getElem? hu) hq
  rw [hnew]
  refine decl?_buildModel.mpr ⟨u', hu', ?_⟩
  exact u'.declaration_renumber hnames

end

/-- If no name is declared twice, the order of the source files does not matter: a declared name
leads to a declaration in either order, and the two runs have the same outcome, with the same
outputs in it, and the same texts. -/
theorem run_perm {files files' : List SourceFile} (h : files.Perm files')
    (hn : ((buildModel files).decls.map (·.qualified)).Nodup) {name : String}
    (hname : name ∈ (buildModel files).decls.map (·.qualified)) (layout : Option Layout) :
    ∃ seed seed', (buildModel files).lookup name = some seed ∧
      (buildModel files').lookup name = some seed' ∧
      Closure.run (buildModel files) layout seed = Closure.run (buildModel files') layout seed' ∧
      ∀ (style : Style) (importRoot : Option Path),
        let b : Bundle := ⟨(Closure.run (buildModel files) layout seed).registry, style, importRoot⟩
        let b' : Bundle :=
          ⟨(Closure.run (buildModel files') layout seed').registry, style, importRoot⟩
        b.groups = b'.groups ∧ b.groups.map b.renderGroup = b'.groups.map b'.renderGroup ∧
          b.renderAll = b'.renderAll := by
  rw [map_qualified_buildModel] at hn hname
  obtain ⟨seed, hseed⟩ := Names.exists_index?_of_mem hname
  have hlookup := (lookup_eq_index? name).trans hseed
  have hlookup' : (buildModel files').lookup name =
      some ((declaredNames files).renumbering (declaredNames files') seed) := by
    rw [lookup_eq_index?, Names.index?_renumbering (declaredNames_perm h), hseed]
    rfl
  have hrun := (buildModel_renumbering h hn).run (buildModel_canonical files)
    (.of_lookup hlookup) layout
  refine ⟨seed, _, hlookup, hlookup', hrun, fun style importRoot => ?_⟩
  rw [hrun]
  exact ⟨rfl, rfl, rfl⟩

/-- The sample without the class it declares again. -/
def distinctFiles : List SourceFile :=
  sampleFiles.map fun file => { file with unit := { file.unit with types := file.unit.types.take 1 } }

/-- With the files in reverse order the class is the first declaration instead of the last. -/
theorem run_perm_sample :
    distinctFiles.Perm distinctFiles.reverse ∧
    ((buildModel distinctFiles).decls.map (·.qualified)).Nodup ∧
    "shop.Cart" ∈ (buildModel distinctFiles).decls.map (·.qualified) ∧
    (buildModel distinctFiles).lookup "shop.Cart" = some 2 ∧
    (buildModel distinctFiles.reverse).lookup "shop.Cart" = some 0 ∧
    Closure.run (buildModel distinctFiles) none 2 =
      Closure.run (buildModel distinctFiles.reverse) none 0 := by
  have hperm : distinctFiles.Perm distinctFiles.reverse := (List.reverse_perm _).symm
  have hn : ((buildModel distinctFiles).decls.map (·.qualified)).Nodup := by decide +kernel
  have hname : "shop.Cart" ∈ (buildModel distinctFiles).decls.map (·.qualified) := by
    decide +kernel
  have hseed : (buildModel distinctFiles).lookup "shop.Cart" = some 2 := by decide +kernel
  have hseed' : (buildModel distinctFiles.reverse).lookup "shop.Cart" = some 0 := by
    decide +kernel
  obtain ⟨seed, seed', h, h', hrun, -⟩ := run_perm hperm hn hname none
  obtain rfl : seed = 2 := Option.some.inj (h.symm.trans hseed)
  obtain rfl : seed' = 0 := Option.some.inj (h'.symm.trans hseed')
  exact ⟨hperm, hn, hname, hseed, hseed', hrun⟩

end TypeWeave.Java
