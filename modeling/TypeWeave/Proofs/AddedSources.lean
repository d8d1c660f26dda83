import TypeWeave.Proofs.PlainWords
import TypeWeave.Proofs.SourceOrder

/-!
# Source files that are added

A simple name in a source file is looked up as a member of certain places: the types of the file,
its package, and what it imports on demand. A file that declares no member of any of these can be
added anywhere without changing what the names of the first file stand for (`insert_uncaptured`).
Only the indices behind the names move, and a name that nothing or an earlier file declared may now
lead to the new file.
-/

namespace TypeWeave.Java

-- ---------------------------------------------------------------------------
-- Parents of qualified names
-- ---------------------------------------------------------------------------

def parentName (qualified : String) : String :=
  String.ofList ((qualified.toList.reverse.dropWhile (· != '.')).drop 1).reverse

theorem dropWhile_ne_reverse {name : String} (h : '.' ∉ name.toList) (cs : List Char) :
    (name.toList.reverse ++ cs).dropWhile (· != '.') = cs.dropWhile (· != '.') := by
  refine List.dropWhile_append_of_pos fun c hc => ?_
  have hne : c ≠ '.' := by
    rintro rfl
    exact h (List.mem_reverse.mp hc)
  simpa using hne

theorem parentName_of_notMem {name : String} (h : '.' ∉ name.toList) : parentName name = "" := by
  have hdrop := dropWhile_ne_reverse h []
  rw [List.append_nil, List.dropWhile_nil] at hdrop
  simp [parentName, hdrop]

theorem parentName_append {name : String} (h : '.' ∉ name.toList) (parent : String) :
    parentName (parent ++ "." ++ name) = parent := by
  have hdrop := dropWhile_ne_reverse h ('.' :: parent.toList.reverse)
  simp [parentName, hdrop]

theorem parentName_qualify {name : String} (h : '.' ∉ name.toList) (package : Option String) :
    parentName (qualify package name) = package.getD "" := by
  unfold qualify
  split
  · next package =>
    split
    · next hempty => rw [hempty, parentName_of_notMem h, Option.getD_some]
    · rw [parentName_append h, Option.getD_some]
  · rw [parentName_of_notMem h, Option.getD_none]

-- ---------------------------------------------------------------------------
-- Places where names are looked up
-- ---------------------------------------------------------------------------

/-- `place` is where a simple name in the file may find a member: the package, what is imported on
demand, or a type of the file. -/
inductive SourceFile.Consults (file : SourceFile) : String → Prop
  | package : file.Consults (file.unit.package.getD "")
  | onDemand {place} : Import.onDemand place ∈ file.unit.imports → file.Consults place
  | declared {place} : place ∈ declaredNames [file] → file.Consults place

theorem SourceFile.consults_iff {file : SourceFile} {place : String} :
    file.Consults place ↔ place = file.unit.package.getD "" ∨
      Import.onDemand place ∈ file.unit.imports ∨ place ∈ declaredNames [file] := by
  constructor
  · rintro (_ | h | h)
    · exact .inl rfl
    · exact .inr (.inl h)
    · exact .inr (.inr h)
  · rintro (rfl | h | h)
    · exact .package
    · exact .onDemand h
    · exact .declared h

/-- No name that `added` declares is a member of a place that `file` consults. -/
def Uncaptured (file added : SourceFile) : Prop :=
  ∀ qualified ∈ declaredNames [added], ¬file.Consults (parentName qualified)

mutual
theorem mem_collect {file : SourceFile} {u : Unresolved} {outer : List String}
    {qualified : String} : (type : WrittenType) → u ∈ collect file outer qualified type →
      u.file = file ∧ ∀ enclosing ∈ u.scope,
        enclosing ∈ outer ∨ enclosing ∈ (collect file outer qualified type).map (·.qualified)
  | .mk name kind nested, h => by
    simp only [collect, List.mem_cons, List.map_cons] at h ⊢
    rcases h with rfl | h
    · refine ⟨rfl, fun enclosing henc => ?_⟩
      simp only [List.mem_cons] at henc
      tauto
    · obtain ⟨hfile, hscope⟩ := mem_collectNested nested h
      refine ⟨hfile, fun enclosing henc => ?_⟩
      have := hscope enclosing henc
      simp only [List.mem_cons] at this
      tauto
theorem mem_collectNested {file : SourceFile} {u : Unresolved} {outer : List String}
    {qualified : String} : (types : List WrittenType) →
      u ∈ collectNested file outer qualified types → u.file = file ∧ ∀ enclosing ∈ u.scope,
        enclosing ∈ outer ∨ enclosing ∈ (collectNested file outer qualified types).map (·.qualified)
  | [], h => by simp [collectNested] at h
  | type :: rest, h => by
    simp only [collectNested, List.mem_append, List.map_append] at h ⊢
    rcases h with h | h
    · obtain ⟨hfile, hscope⟩ := mem_collect type h
      exact ⟨hfile, fun enclosing henc => (hscope enclosing henc).imp_right .inl⟩
    · obtain ⟨hfile, hscope⟩ := mem_collectNested rest h
      exact ⟨hfile, fun enclosing henc => (hscope enclosing henc).imp_right .inr⟩
end

theorem declaredNames_singleton (file : SourceFile) :
    declaredNames [file] = file.unresolved.map (·.qualified) := by
  simp [declaredNames]

/-- A type of a file is resolved in this file, among types of the file. -/
theorem mem_unresolved {file : SourceFile} {u : Unresolved} (h : u ∈ file.unresolved) :
    u.file = file ∧ ∀ enclosing ∈ u.scope, enclosing ∈ declaredNames [file] := by
  obtain ⟨type, htype, hu⟩ := List.mem_flatMap.mp h
  obtain ⟨hfile, hscope⟩ := mem_collect type hu
  refine ⟨hfile, fun enclosing henc => ?_⟩
  obtain ⟨v, hv, rfl⟩ := List.mem_map.mp ((hscope enclosing henc).resolve_left (by simp))
  rw [declaredNames_singleton]
  exact List.mem_map_of_mem (List.mem_flatMap.mpr ⟨type, htype, hv⟩)

-- ---------------------------------------------------------------------------
-- Resolving simple and dotted names
-- ---------------------------------------------------------------------------

theorem findSome?_congr {f g : α → Option β} {as : List α} (h : ∀ a ∈ as, f a = g a) :
    as.findSome? f = as.findSome? g := by
  induction as with
  | nil => rfl
  | cons a as ih =>
    rw [List.findSome?_cons, List.findSome?_cons, h a List.mem_cons_self,
      ih fun b hb => h b (List.mem_cons_of_mem _ hb)]

section
variable {names names' : Names} {file : SourceFile} {scope : List String} {name : String}
  (hsame : ∀ qualified, file.Consults (parentName qualified) →
    names'.declares qualified = names.declares qualified)
  (hscope : ∀ enclosing ∈ scope, enclosing ∈ declaredNames [file])
include hsame

theorem inPackage?_of_consults (h : '.' ∉ name.toList) :
    inPackage? names' file.unit.package name = inPackage? names file.unit.package name := by
  have hdeclares := hsame (qualify file.unit.package name)
    (by rw [parentName_qualify h]; exact .package)
  simp only [inPackage?, hdeclares]

theorem member?_of_consults (h : '.' ∉ name.toList) {i : Import} (hi : i ∈ file.unit.imports) :
    i.member? names' name = i.member? names name := by
  cases i with
  | single path => rfl
  | onDemand package =>
    have hdeclares := hsame (qualify (some package) name)
      (by rw [parentName_qualify h]; exact .onDemand hi)
    simp only [Import.member?, hdeclares]

include hscope

theorem inScope?_of_consults (h : '.' ∉ name.toList) :
    inScope? names' name scope = inScope? names name scope := by
  induction scope with
  | nil => rfl
  | cons enclosing outer ih =>
    simp only [List.forall_mem_cons] at hscope
    have hdeclares := hsame (enclosing ++ "." ++ name)
      (by rw [parentName_append h]; exact .declared hscope.1)
    simp only [inScope?, hdeclares, ih hscope.2]

theorem resolveSimple?_of_consults (h : '.' ∉ name.toList) :
    resolveSimple? names' file.unit scope name = resolveSimple? names file.unit scope name := by
  have hmember : file.unit.imports.findSome? (Import.member? names' name) =
      file.unit.imports.findSome? (Import.member? names name) :=
    findSome?_congr fun i hi => member?_of_consults hsame h hi
  simp only [resolveSimple?, inScope?_of_consults hsame hscope h, inPackage?_of_consults hsame h,
    hmember]

theorem resolveSegments_of_consults {segments : List String}
    (h : segments.all fun s => !s.toList.contains '.') :
    resolveSegments names' file.unit scope segments =
      resolveSegments names file.unit scope segments := by
  match segments, h with
  | [], _ => rfl
  | [name], h =>
    have hname : '.' ∉ name.toList := by simpa using h
    simp only [resolveSegments, resolveSimple?_of_consults hsame hscope hname]
  | first :: second :: rest, h =>
    have hfirst : '.' ∉ first.toList := by
      simp only [List.all_cons, Bool.and_eq_true] at h
      simpa using h.1
    simp only [resolveSegments, resolveSimple?_of_consults hsame hscope hfirst]

end

-- ---------------------------------------------------------------------------
-- References that move
-- ---------------------------------------------------------------------------

/-- The reference is the same but for its indices. Each of them moves by `ρ`, or leads to one of the
new declarations of the name. -/
inductive Moved (ρ : Nat → Nat) (isNew : String → Nat → Prop) : TypeRef → TypeRef → Prop
  | named {qualified simple ts ts' decl decl'} :
      (decl' = decl.map ρ ∨ ∃ id, decl' = some id ∧ isNew qualified id) →
      List.Forall₂ (Moved ρ isNew) ts ts' →
      Moved ρ isNew (.named qualified simple ts decl) (.named qualified simple ts' decl')
  | array {t t'} : Moved ρ isNew t t' → Moved ρ isNew (.array t) (.array t')
  | wildcard : Moved ρ isNew .wildcard .wildcard
  | bounded {t t'} : Moved ρ isNew t t' → Moved ρ isNew (.bounded t) (.bounded t')

inductive KindMoved (ρ : Nat → Nat) (isNew : String → Nat → Prop) : DeclKind → DeclKind → Prop
  | classType {superclass superclass' fields fields'} :
      Option.Rel (Moved ρ isNew) superclass superclass' →
      List.Forall₂ (fun f f' => f'.name = f.name ∧ f'.visibility = f.visibility ∧
        Moved ρ isNew f.type f'.type) fields fields' →
      KindMoved ρ isNew (.classType ⟨superclass, fields⟩) (.classType ⟨superclass', fields'⟩)
  | enumType {constants} : KindMoved ρ isNew (.enumType constants) (.enumType constants)
  | interfaceType : KindMoved ρ isNew .interfaceType .interfaceType
  | annotationType : KindMoved ρ isNew .annotationType .annotationType
  | recordType : KindMoved ρ isNew .recordType .recordType

structure DeclMoved (ρ : Nat → Nat) (isNew : String → Nat → Prop) (d d' : Declaration) : Prop where
  qualified : d'.qualified = d.qualified
  simple : d'.simple = d.simple
  location : d'.location = d.location
  kind : KindMoved ρ isNew d.kind d'.kind

section
variable {names names' : Names} {file : SourceFile} {scope : List String} {ρ : Nat → Nat}
  {isNew : String → Nat → Prop}

/-- What the names of two lists of files have to do with each other if the second has one file more
than the first, of which nothing is captured. -/
structure Grown (file : SourceFile) (ρ : Nat → Nat) (isNew : String → Nat → Prop)
    (names names' : Names) : Prop where
  declares : ∀ qualified, file.Consults (parentName qualified) →
    names'.declares qualified = names.declares qualified
  index? : ∀ qualified, names'.index? qualified = (names.index? qualified).map ρ ∨
    ∃ id, names'.index? qualified = some id ∧ isNew qualified id

mutual
theorem resolveType_moved (h : Grown file ρ isNew names names')
    (hscope : ∀ enclosing ∈ scope, enclosing ∈ declaredNames [file]) :
    (e : TypeExpr) → e.plain = true →
      Moved ρ isNew (resolveType names file.unit scope e) (resolveType names' file.unit scope e)
  | .primitive keyword, _ => .named (.inl rfl) .nil
  | .named segments args, he => by
    simp only [TypeExpr.plain, Bool.and_eq_true] at he
    simp only [resolveType, resolveSegments_of_consults h.declares hscope he.1]
    exact .named (h.index? _) (resolveTypes_moved h hscope args he.2)
  | .array element, he => by
    simp only [TypeExpr.plain] at he
    exact .array (resolveType_moved h hscope element he)
  | .wildcard, _ => .wildcard
  | .bounded bound, he => by
    simp only [TypeExpr.plain] at he
    exact .bounded (resolveType_moved h hscope bound he)
theorem resolveTypes_moved (h : Grown file ρ isNew names names')
    (hscope : ∀ enclosing ∈ scope, enclosing ∈ declaredNames [file]) :
    (es : List TypeExpr) → TypeExpr.plainAll es = true →
      List.Forall₂ (Moved ρ isNew) (resolveTypes names file.unit scope es)
        (resolveTypes names' file.unit scope es)
  | [], _ => .nil
  | e :: es, he => by
    simp only [TypeExpr.plainAll, Bool.and_eq_true] at he
    exact .cons (resolveType_moved h hscope e he.1) (resolveTypes_moved h hscope es he.2)
end

theorem Unresolved.declaration_moved (h : Grown file ρ isNew names names') {u : Unresolved}
    (hu : u ∈ file.unresolved) (hplain : ∀ e ∈ u.type.kind.types, e.plain = true) :
    DeclMoved ρ isNew (u.declaration names) (u.declaration names') := by
  obtain ⟨hfile, hscope⟩ := mem_unresolved hu
  have hresolve (e : TypeExpr) (he : e.plain = true) :
      Moved ρ isNew (u.resolve names e) (u.resolve names' e) := by
    unfold Unresolved.resolve
    rw [hfile]
    exact resolveType_moved h hscope e he
  refine ⟨rfl, rfl, rfl, ?_⟩
  simp only [declaration, kind]
  cases hkind : u.type.kind with
  | classType superclass fields =>
    simp only [hkind, WrittenKind.types, List.mem_append, Option.mem_toList, List.mem_map]
      at hplain
    refine .classType ?_ ?_
    · cases superclass with
      | none => exact .none
      | some e => exact .some (hresolve e (hplain e (.inl rfl)))
    · rw [List.forall₂_map_left_iff, List.forall₂_map_right_iff]
      exact List.forall₂_same.mpr fun f hf =>
        ⟨rfl, rfl, hresolve f.type (hplain f.type (.inr ⟨f, hf, rfl⟩))⟩
  | enumType constants => exact .enumType
  | interfaceType => exact .interfaceType
  | annotationType => exact .annotationType
  | recordType => exact .recordType

end

-- ---------------------------------------------------------------------------
-- Insertion into a list
-- ---------------------------------------------------------------------------

/-- Where index `id` goes if `count` entries are inserted at the index `first`. -/
def shifted (first count id : Nat) : Nat := if id < first then id else id + count

theorem getElem?_shifted (xs gs ys : List α) (id : Nat) :
    (xs ++ gs ++ ys)[shifted xs.length gs.length id]? = (xs ++ ys)[id]? := by
  unfold shifted
  split
  · next hlt =>
    rw [List.append_assoc, List.getElem?_append_left hlt, List.getElem?_append_left hlt]
  · next hle =>
    have hle := Nat.not_lt.mp hle
    rw [List.getElem?_append_right hle, List.getElem?_append_right (by simp; omega)]
    congr 1
    simp
    omega

theorem lastIndex?_append (p : α → Bool) (as bs : List α) :
    lastIndex? p (as ++ bs) =
      ((lastIndex? p bs).map (as.length + ·)).or (lastIndex? p as) := by
  induction as with
  | nil => cases h : lastIndex? p bs <;> simp [lastIndex?, h]
  | cons a as ih =>
    rw [List.cons_append, lastIndex?, ih, lastIndex?]
    cases lastIndex? p bs with
    | none => simp
    | some i => simp [Nat.add_right_comm]

theorem index?_shifted (xs gs ys : Names) (qualified : String) :
    (xs ++ gs ++ ys).index? qualified =
        ((xs ++ ys).index? qualified).map (shifted xs.length gs.length) ∨
      ∃ i, gs.index? qualified = some i ∧
        (xs ++ gs ++ ys).index? qualified = some (xs.length + i) := by
  simp only [Names.index?, lastIndex?_append]
  -- The last declaration is in the last part that has any.
  cases hy : lastIndex? (· == qualified) ys with
  | some i =>
    refine .inl ?_
    have hle : ¬xs.length + i < xs.length := by omega
    simp [shifted, hle]
    omega
  | none =>
    cases hg : lastIndex? (· == qualified) gs with
    | some i => exact .inr ⟨i, rfl, by simp⟩
    | none =>
      refine .inl ?_
      cases hx : lastIndex? (· == qualified) xs with
      | none => rfl
      | some i =>
        obtain ⟨name, hname, -⟩ := getElem?_of_lastIndex? hx
        have hlt : i < xs.length := (List.getElem?_eq_some_iff.mp hname).1
        simp [shifted, hlt]

theorem declares_shifted {xs gs ys : Names} {qualified : String} (h : qualified ∉ gs) :
    (xs ++ gs ++ ys).declares qualified = (xs ++ ys).declares qualified := by
  simp [Names.declares, h]

-- ---------------------------------------------------------------------------
-- One file more
-- ---------------------------------------------------------------------------

section
variable {before after : List SourceFile} {added file : SourceFile}

theorem declaredNames_append (files files' : List SourceFile) :
    declaredNames (files ++ files') = declaredNames files ++ declaredNames files' := by
  simp [declaredNames]

theorem declaredNames_insert :
    declaredNames (before ++ added :: after) =
      declaredNames before ++ declaredNames [added] ++ declaredNames after := by
  rw [← declaredNames_append, ← declaredNames_append, List.append_assoc]
  rfl

theorem name?_buildModel (files : List SourceFile) (id : Nat) :
    (buildModel files).name? id = (declaredNames files)[id]? := by
  rw [← map_qualified_buildModel, List.getElem?_map]
  rfl

def IsAdded (before : List SourceFile) (added : SourceFile) (after : List SourceFile)
    (qualified : String) (id : Nat) : Prop :=
  (declaredNames before).length ≤ id ∧
  id < (declaredNames before).length + (declaredNames [added]).length ∧
  (buildModel (before ++ added :: after)).name? id = some qualified

theorem grown_insert (h : Uncaptured file added) :
    Grown file (shifted (declaredNames before).length (declaredNames [added]).length)
      (IsAdded before added after) (declaredNames (before ++ after))
      (declaredNames (before ++ added :: after)) := by
  rw [declaredNames_insert, declaredNames_append]
  refine ⟨fun qualified hconsults => declares_shifted fun hmem => h qualified hmem hconsults,
    fun qualified => ?_⟩
  refine (index?_shifted _ _ _ qualified).imp_right ?_
  rintro ⟨i, hi, hindex⟩
  have hlt : i < (declaredNames [added]).length :=
    (List.getElem?_eq_some_iff.mp (Names.getElem?_of_index? hi)).1
  refine ⟨_, hindex, Nat.le_add_right _ _, Nat.add_lt_add_left hlt _, ?_⟩
  rw [name?_buildModel, declaredNames_insert]
  exact Names.getElem?_of_index? hindex

theorem unresolved_insert (id : Nat) :
    ((before ++ added :: after).flatMap SourceFile.unresolved)[
        shifted (declaredNames before).length (declaredNames [added]).length id]? =
      ((before ++ after).flatMap SourceFile.unresolved)[id]? := by
  have h := getElem?_shifted (before.flatMap SourceFile.unresolved) added.unresolved
    (after.flatMap SourceFile.unresolved) id
  rw [declaredNames_singleton, List.length_map, declaredNames, List.length_map]
  simpa using h

end

/-- What stands in a source file means the same if a file is added of which nothing is captured. -/
theorem insert_uncaptured {before after earlier later : List SourceFile} {added : SourceFile}
    {location : SourceLocation} {text : String}
    (hfile : before ++ after = earlier ++ ⟨location, readUnit text⟩ :: later)
    (h : Uncaptured ⟨location, readUnit text⟩ added) :
    let file : SourceFile := ⟨location, readUnit text⟩
    let m := buildModel (before ++ after)
    let m' := buildModel (before ++ added :: after)
    let ρ := shifted (declaredNames before).length (declaredNames [added]).length
    (∀ id, m'.name? (ρ id) = m.name? id) ∧
    ∀ i qualified, (declaredNames [file])[i]? = some qualified →
      ∃ d d', m.decl? ((declaredNames earlier).length + i) = some d ∧ d.qualified = qualified ∧
        m'.decl? (ρ ((declaredNames earlier).length + i)) = some d' ∧
        DeclMoved ρ (IsAdded before added after) d d' := by
  intro file m m' ρ
  refine ⟨fun id => ?_, fun i qualified hi => ?_⟩
  · rw [name?_buildModel, name?_buildModel, declaredNames_insert, declaredNames_append]
    exact getElem?_shifted _ _ _ id
  · rw [declaredNames_singleton, List.getElem?_map, Option.map_eq_some_iff] at hi
    obtain ⟨u, hu, rfl⟩ := hi
    have hindex : ((before ++ after).flatMap SourceFile.unresolved)[
        (declaredNames earlier).length + i]? = some u := by
      have hlt : i < file.unresolved.length := (List.getElem?_eq_some_iff.mp hu).1
      have hlength : (declaredNames earlier).length =
          (earlier.flatMap SourceFile.unresolved).length := List.length_map _
      rw [hfile, List.flatMap_append, List.flatMap_cons, hlength,
        List.getElem?_append_right (Nat.le_add_right _ _), Nat.add_sub_cancel_left,
        List.getElem?_append_left hlt]
      exact hu
    refine ⟨_, _, decl?_buildModel.mpr ⟨u, hindex, rfl⟩, rfl,
      decl?_buildModel.mpr ⟨u, (unresolved_insert _).trans hindex, rfl⟩, ?_⟩
    have hmem : u ∈ file.unresolved := List.mem_of_getElem? hu
    obtain ⟨p, hp, hcollected⟩ := exists_left_of_forall₂ (unresolved_collected file) hmem
    refine Unresolved.declaration_moved (grown_insert h) hmem ?_
    rw [hcollected.type]
    exact readUnit_plain hp

def cartText : String :=
  "package shop; import java.util.*;\nclass Cart \x7b\n  Map<Item, tax.Rate> lines;\n" ++
  "  class Line \x7b Item item; \x7d\n\x7d"

def cartFile : SourceFile := ⟨⟨⟨"src"⟩, ⟨"src/shop/Cart.java"⟩⟩, readUnit cartText⟩

def itemFile : SourceFile :=
  ⟨⟨⟨"src"⟩, ⟨"src/shop/Item.java"⟩⟩, readUnit "package shop; record Item(int id) \x7b\x7d"⟩

def rateFile : SourceFile :=
  ⟨⟨⟨"src"⟩, ⟨"src/tax/Rate.java"⟩⟩,
    readUnit "package tax; class Rate \x7b\x7d class Item \x7b class Map \x7b\x7d \x7d"⟩

/-- The rate is found once it is declared; the items of the cart stay those of its package. -/
theorem insert_uncaptured_sample :
    let m := buildModel [cartFile, itemFile]
    let m' := buildModel [rateFile, cartFile, itemFile]
    Uncaptured cartFile rateFile ∧
    (m.lookup "tax.Rate", m'.lookup "tax.Rate") = (none, some 0) ∧
    (m.lookup "shop.Item", m'.lookup "shop.Item") = (some 2, some 5) ∧
    ∃ d d', m.decl? 1 = some d ∧ d.qualified = "shop.Cart.Line" ∧ m'.decl? 4 = some d' ∧
      DeclMoved (shifted 0 3) (IsAdded [] rateFile [cartFile, itemFile]) d d' := by
  intro m m'
  have hcart : (cartFile.unit.package, cartFile.unit.imports, declaredNames [cartFile]) =
      (some "shop", [.onDemand "java.util"], ["shop.Cart", "shop.Cart.Line"]) := by
    decide +kernel
  have hitem : declaredNames [itemFile] = ["shop.Item"] := by decide +kernel
  have hrate : declaredNames [rateFile] = ["tax.Rate", "tax.Item", "tax.Item.Map"] := by
    decide +kernel
  obtain ⟨hpackage, himports, hcart⟩ := by simpa only [Prod.mk.injEq] using hcart
  have hnames : declaredNames [cartFile, itemFile] =
      ["shop.Cart", "shop.Cart.Line", "shop.Item"] := by
    rw [← List.singleton_append, declaredNames_append, hcart, hitem]
    rfl
  have hnames' : declaredNames [rateFile, cartFile, itemFile] =
      ["tax.Rate", "tax.Item", "tax.Item.Map", "shop.Cart", "shop.Cart.Line", "shop.Item"] := by
    rw [← List.singleton_append, declaredNames_append, hrate, hnames]
    rfl
  have hun : Uncaptured cartFile rateFile := by
    simp only [Uncaptured, SourceFile.consults_iff, hpackage, himports, hcart, hrate]
    decide +kernel
  have hfile : [] ++ [cartFile, itemFile] = [] ++ cartFile :: [itemFile] := rfl
  have hline : (declaredNames [cartFile])[1]? = some "shop.Cart.Line" := by
    rw [hcart]
    rfl
  have hmoved := (insert_uncaptured hfile hun).2 1 _ hline
  rw [hrate] at hmoved
  refine ⟨hun, ?_, ?_, hmoved⟩
  · rw [lookup_eq_index?, lookup_eq_index?, hnames, hnames']
    decide +kernel
  · rw [lookup_eq_index?, lookup_eq_index?, hnames, hnames']
    decide +kernel

end TypeWeave.Java
