import Mathlib.Data.List.Forall2
import TypeWeave.Proofs.Canonical

/-!
# What source files declare

`SourceFile.placements` lists the types of a file in pre-order, each with the names of the types
around it. The model of source files has one declaration for every placement, in that order
(`declaredBy_buildModel`), and `DeclaredBy` says what the declaration has to be. A written name in
it is `Linked`: the index it carries is the one under which its qualified name can be looked up, and
what stands there has both names of the reference.
-/

namespace TypeWeave

-- ---------------------------------------------------------------------------
-- The last declaration of a name
-- ---------------------------------------------------------------------------

theorem Model.lookup_eq_some_iff {m : Model} {name : String} {id : Nat} :
    m.lookup name = some id ↔ m.name? id = some name ∧ ∀ j, m.name? j = some name → j ≤ id := by
  have last {i : Nat} (h : m.lookup name = some i) :
      m.name? i = some name ∧ ∀ j, m.name? j = some name → j ≤ i := by
    obtain ⟨d, hd, rfl⟩ := decl?_of_lookup h
    refine ⟨name?_of_decl? hd, fun j hj => ?_⟩
    obtain ⟨e, he, hq⟩ := Option.map_eq_some_iff.mp hj
    exact le_of_lastIndex? h he (by simpa using hq)
  constructor
  · exact last
  · rintro ⟨hid, hmax⟩
    obtain ⟨d, hd, hq⟩ := Option.map_eq_some_iff.mp hid
    -- Two last declarations of one name are the same.
    cases hl : m.lookup name with
    | none =>
      have hall := lastIndex?_eq_none_iff.mp hl d (List.mem_of_getElem? hd)
      simp [hq] at hall
    | some i =>
      obtain ⟨hi, himax⟩ := last hl
      exact congrArg some (Nat.le_antisymm (hmax i hi) (himax id hid))

namespace Java

-- ---------------------------------------------------------------------------
-- Types in their places
-- ---------------------------------------------------------------------------

/-- A written type in its file, with the names of the types around it, outermost first. -/
structure Placement where
  file : SourceFile
  outer : List String
  type : WrittenType

mutual
def WrittenType.placements (file : SourceFile) (outer : List String) :
    WrittenType → List Placement
  | .mk name kind nested =>
    ⟨file, outer, .mk name kind nested⟩ :: nestedPlacements file (outer ++ [name]) nested
def WrittenType.nestedPlacements (file : SourceFile) (outer : List String) :
    List WrittenType → List Placement
  | [] => []
  | type :: rest => type.placements file outer ++ nestedPlacements file outer rest
end

def SourceFile.placements (file : SourceFile) : List Placement :=
  file.unit.types.flatMap (·.placements file [])

def SourceFile.package (file : SourceFile) : List String :=
  (file.unit.package.filter (· ≠ "")).toList

def Placement.segments (p : Placement) : List String :=
  p.file.package ++ p.outer ++ [p.type.name]

-- ---------------------------------------------------------------------------
-- What a declaration has to be
-- ---------------------------------------------------------------------------

/-- The reference is one for the written type, and the names in it lead to their declarations. -/
inductive Linked (m : Model) : TypeExpr → TypeRef → Prop
  | primitive {keyword} : Linked m (.primitive keyword) (.builtin keyword)
  | named {segments es qualified simple ts decl} :
      decl = m.lookup qualified →
      (∀ id, decl = some id → id < m.size ∧
        ∃ d, m.decl? id = some d ∧ d.qualified = qualified ∧ d.simple = simple) →
      List.Forall₂ (Linked m) es ts →
      Linked m (.named segments es) (.named qualified simple ts decl)
  | array {e t} : Linked m e t → Linked m (.array e) (.array t)
  | wildcard : Linked m .wildcard .wildcard
  | bounded {e t} : Linked m e t → Linked m (.bounded e) (.bounded t)

inductive KindLinked (m : Model) : WrittenKind → DeclKind → Prop
  | classType {superclass superclass' fields fields'} :
      Option.Rel (Linked m) superclass superclass' →
      List.Forall₂ (fun f f' => f'.name = f.name ∧ f'.visibility = f.visibility ∧
        Linked m f.type f'.type) fields fields' →
      KindLinked m (.classType superclass fields) (.classType ⟨superclass', fields'⟩)
  | enumType {constants} : KindLinked m (.enumType constants) (.enumType constants)
  | interfaceType : KindLinked m .interfaceType .interfaceType
  | annotationType : KindLinked m .annotationType .annotationType
  | recordType : KindLinked m .recordType .recordType

structure DeclaredBy (m : Model) (p : Placement) (d : Declaration) : Prop where
  qualified : d.qualified = Text.join "." p.segments
  simple : d.simple = p.type.name
  location : d.location = p.file.location
  kind : KindLinked m p.type.kind d.kind

-- ---------------------------------------------------------------------------
-- The first pass
-- ---------------------------------------------------------------------------

structure Placement.Collected (p : Placement) (u : Unresolved) : Prop where
  file : u.file = p.file
  type : u.type = p.type
  qualified : u.qualified = Text.join "." p.segments

theorem qualify_eq_join (file : SourceFile) (type : WrittenType) :
    qualify file.unit.package type.name = Text.join "." (Placement.segments ⟨file, [], type⟩) := by
  unfold qualify Placement.segments SourceFile.package
  split
  · next package hp =>
    by_cases hempty : package = "" <;> simp [hp, hempty, Option.filter, Text.join]
  · next hp => simp [hp, Text.join]

theorem forall₂_flatMap {R : β → γ → Prop} {f : α → List β} {g : α → List γ} {as : List α}
    (h : ∀ a ∈ as, List.Forall₂ R (f a) (g a)) :
    List.Forall₂ R (as.flatMap f) (as.flatMap g) := by
  induction as with
  | nil => exact .nil
  | cons a as ih =>
    simp only [List.flatMap_cons]
    exact List.rel_append (h a (by simp)) (ih fun x hx => h x (List.mem_cons_of_mem _ hx))

theorem exists_left_of_forall₂ {R : α → β → Prop} {as : List α} {bs : List β} {b : β}
    (h : List.Forall₂ R as bs) (hb : b ∈ bs) : ∃ a ∈ as, R a b := by
  induction h with
  | nil => cases hb
  | cons hr _ ih =>
    rcases List.mem_cons.mp hb with rfl | hb
    · exact ⟨_, List.mem_cons_self, hr⟩
    · obtain ⟨a, ha, h⟩ := ih hb
      exact ⟨a, List.mem_cons_of_mem _ ha, h⟩

mutual
theorem collect_collected (file : SourceFile) (scope outer : List String) (qualified : String) :
    (type : WrittenType) → qualified = Text.join "." (Placement.segments ⟨file, outer, type⟩) →
      List.Forall₂ Placement.Collected (type.placements file outer)
        (collect file scope qualified type)
  | .mk name kind nested, h => by
    simp only [WrittenType.placements, collect]
    refine .cons ⟨rfl, rfl, h⟩ ?_
    refine collectNested_collected file _ (outer ++ [name]) qualified (by simp) ?_ nested
    rw [h, ← List.append_assoc]
    rfl
theorem collectNested_collected (file : SourceFile) (scope outer : List String)
    (qualified : String) (hne : outer ≠ [])
    (h : qualified = Text.join "." (file.package ++ outer)) :
    (nested : List WrittenType) →
      List.Forall₂ Placement.Collected (WrittenType.nestedPlacements file outer nested)
        (collectNested file scope qualified nested)
  | [] => .nil
  | type :: rest => by
    simp only [WrittenType.nestedPlacements, collectNested]
    refine List.rel_append ?_ (collectNested_collected file scope outer qualified hne h rest)
    refine collect_collected file scope outer _ type ?_
    rw [h]
    exact (Text.join_concat "." (by simp [hne]) type.name).symm
end

theorem unresolved_collected (file : SourceFile) :
    List.Forall₂ Placement.Collected file.placements file.unresolved :=
  forall₂_flatMap fun type _ => collect_collected file [] [] _ type (qualify_eq_join file type)

theorem flatMap_unresolved_collected (files : List SourceFile) :
    List.Forall₂ Placement.Collected (files.flatMap SourceFile.placements)
      (files.flatMap SourceFile.unresolved) :=
  forall₂_flatMap fun file _ => unresolved_collected file

-- ---------------------------------------------------------------------------
-- The second pass
-- ---------------------------------------------------------------------------

def PlainNames (files : List SourceFile) : Prop :=
  ∀ p ∈ files.flatMap SourceFile.placements, '.' ∉ p.type.name.toList

instance (files : List SourceFile) : Decidable (PlainNames files) :=
  inferInstanceAs (Decidable (∀ p ∈ _, _))

theorem simpleName_join_segments {p : Placement} (h : '.' ∉ p.type.name.toList) :
    simpleName (Text.join "." p.segments) = p.type.name := by
  unfold Placement.segments
  by_cases hne : p.file.package ++ p.outer = []
  · rw [hne]
    exact Text.afterLast_of_notMem h
  · rw [Text.join_concat "." hne]
    exact Text.afterLast_append h _

/-- The names before the second pass lead to the declarations after it. -/
structure NamesOf (m : Model) (names : Names) : Prop where
  lookup : ∀ qualified, m.lookup qualified = names.index? qualified
  simple : ∀ d ∈ m.decls, d.simple = simpleName d.qualified

theorem namesOf_buildModel {files : List SourceFile} (h : PlainNames files) :
    NamesOf (buildModel files) ((files.flatMap SourceFile.unresolved).map (·.qualified)) where
  lookup := lookup_buildModel files
  simple := by
    intro d hd
    obtain ⟨u, hu, rfl⟩ := List.mem_map.mp hd
    obtain ⟨p, hp, hc⟩ := exists_left_of_forall₂ (flatMap_unresolved_collected files) hu
    have hsimple := simpleName_join_segments (h p hp)
    rw [← hc.qualified, ← hc.type] at hsimple
    exact hsimple.symm

section
variable {m : Model} {names : Names}

mutual
theorem resolveType_linked {unit : SourceUnit} {scope : List String} (h : NamesOf m names) :
    (e : TypeExpr) → Linked m e (resolveType names unit scope e)
  | .primitive keyword => .primitive
  | .named segments args => by
    simp only [resolveType]
    refine .named (h.lookup _).symm ?_ (resolveTypes_linked h args)
    intro id hid
    obtain ⟨d, hd, hq⟩ := Model.decl?_of_lookup ((h.lookup _).trans hid)
    have hsimple := h.simple d (List.mem_of_getElem? hd)
    exact ⟨Model.lt_size_of_decl? hd, d, hd, hq, hq ▸ hsimple⟩
  | .array element => .array (resolveType_linked h element)
  | .wildcard => .wildcard
  | .bounded bound => .bounded (resolveType_linked h bound)
theorem resolveTypes_linked {unit : SourceUnit} {scope : List String} (h : NamesOf m names) :
    (es : List TypeExpr) → List.Forall₂ (Linked m) es (resolveTypes names unit scope es)
  | [] => .nil
  | e :: es => .cons (resolveType_linked h e) (resolveTypes_linked h es)
end

theorem Unresolved.kind_linked (h : NamesOf m names) (u : Unresolved) :
    KindLinked m u.type.kind (u.kind names) := by
  unfold Unresolved.kind
  cases u.type.kind with
  | classType superclass fields =>
    refine .classType ?_ ?_
    · cases superclass with
      | none => exact .none
      | some e => exact .some (resolveType_linked h e)
    · rw [List.forall₂_map_right_iff]
      exact List.forall₂_same.mpr fun f _ => ⟨rfl, rfl, resolveType_linked h f.type⟩
  | enumType constants => exact .enumType
  | interfaceType => exact .interfaceType
  | annotationType => exact .annotationType
  | recordType => exact .recordType

end

theorem declaredBy_buildModel {files : List SourceFile} (h : PlainNames files) :
    List.Forall₂ (DeclaredBy (buildModel files)) (files.flatMap SourceFile.placements)
      (buildModel files).decls := by
  refine List.forall₂_map_right_iff.mpr ((flatMap_unresolved_collected files).imp ?_)
  intro p u hc
  have hkind := u.kind_linked (namesOf_buildModel h)
  rw [hc.type] at hkind
  exact ⟨hc.qualified, congrArg WrittenType.name hc.type,
    congrArg SourceFile.location hc.file, hkind⟩

/-- The declarations of a model are those of the files in pre-order. Every written name in them
carries the index that its qualified name has in the model, which is that of the last declaration of
this name. -/
theorem buildModel_linked {files : List SourceFile} (h : PlainNames files) :
    List.Forall₂ (DeclaredBy (buildModel files)) (files.flatMap SourceFile.placements)
      (buildModel files).decls ∧
    ∀ name id, (buildModel files).lookup name = some id ↔
      (buildModel files).name? id = some name ∧
        ∀ j, (buildModel files).name? j = some name → j ≤ id :=
  ⟨declaredBy_buildModel h, fun _ _ => Model.lookup_eq_some_iff⟩

def sampleFiles : List SourceFile := [
  { location := ⟨⟨"src"⟩, ⟨"src/shop/Item.java"⟩⟩
    unit := {
      package := some "shop"
      types := [
        .mk "Item" (.classType none [
            ⟨"kind", .named ["Kind"] [], .publicAccess⟩,
            ⟨"carts", .array (.named ["Cart"] []), .packageAccess⟩])
          [.mk "Kind" (.enumType [⟨"FOOD", none⟩]) []]] } },
  { location := ⟨⟨"src"⟩, ⟨"src/shop/Cart.java"⟩⟩
    unit := {
      package := some "shop"
      imports := [.onDemand "java.util"]
      types := [
        .mk "Cart" (.classType (some (.named ["Item"] [])) [
            ⟨"lines", .named ["Map"]
              [.named ["Item", "Kind"] [], .bounded (.named ["Item"] [])], .protectedAccess⟩])
          [],
        .mk "Item" (.classType none []) []] } }]

/-- Forward references, a nested type and a name that is declared twice. -/
theorem buildModel_linked_sample :
    PlainNames sampleFiles ∧
    List.Forall₂ (DeclaredBy (buildModel sampleFiles))
      (sampleFiles.flatMap SourceFile.placements) (buildModel sampleFiles).decls ∧
    (buildModel sampleFiles).lookup "shop.Item" = some 3 ∧
    ∀ j, (buildModel sampleFiles).name? j = some "shop.Item" → j ≤ 3 := by
  have hplain : PlainNames sampleFiles := by decide
  have hitem : (buildModel sampleFiles).lookup "shop.Item" = some 3 := by decide +kernel
  obtain ⟨hdecls, hlookup⟩ := buildModel_linked hplain
  exact ⟨hplain, hdecls, hitem, ((hlookup _ _).mp hitem).2⟩

end Java

end TypeWeave
