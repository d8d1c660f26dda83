import TypeWeave.Proofs.Dialogues
import TypeWeave.Proofs.SourceFiles

/-!
# Seeds by their full names

A qualified name leads to a declaration in two ways. It is looked up, as the references of source
files are (`Java.lookup_of_mentions`), and then it stands for the last declaration of that name. Or
it is given as a query, and then it stands for the first class or enum of that name
(`Model.candidates_of_declares`). So a query picks what references of its name mean exactly if no
other class or enum has the name (`Model.select_fullName`); with a second copy of a class it does not
(`Java.sampleCopies_first_selected`).
-/

namespace TypeWeave

-- ---------------------------------------------------------------------------
-- The first declaration of a name
-- ---------------------------------------------------------------------------

theorem pairwise_indicesFrom {α : Type} (start : Nat) (p : α → Bool) (as : List α) :
    (indicesFrom start p as).Pairwise (· < ·) := by
  induction as generalizing start with
  | nil => exact .nil
  | cons a as ih =>
    rw [indicesFrom]
    split
    · refine .cons (fun i hi => ?_) (ih _)
      obtain ⟨k, -, rfl, -⟩ := mem_indicesFrom.mp hi
      omega
    · exact ih _

namespace Model

def Declares (m : Model) (name : String) (id : Nat) : Prop :=
  ∃ d, m.decl? id = some d ∧
    ((∃ shape, d.kind = .classType shape) ∨ ∃ constants, d.kind = .enumType constants) ∧
    d.qualified = name

section
variable {m : Model} {query name : String} {id : Nat}

theorem Declares.name? (h : m.Declares name id) : m.name? id = some name := by
  obtain ⟨d, hd, -, rfl⟩ := h
  exact name?_of_decl? hd

theorem Declares.mem_search (h : m.Declares name id) : id ∈ m.search name := by
  obtain ⟨d, hd, hkind, rfl⟩ := h
  exact mem_search_iff.mpr ⟨d, hd, hkind, List.infix_rfl⟩

theorem declares_of_mem_search (h : id ∈ m.search name) (hname : m.name? id = some name) :
    m.Declares name id := by
  obtain ⟨d, hd, hkind, -⟩ := mem_search_iff.mp h
  exact ⟨d, hd, hkind, Option.some.inj ((name?_of_decl? hd).symm.trans hname)⟩

/-- A full name has one candidate, the first of the classes and enums of this name. -/
theorem candidates_of_declares (hquery : Text.trim query ≠ "")
    (h : m.Declares (Text.trim query) id) :
    ∃ first, m.candidates query = [first] ∧ m.Declares (Text.trim query) first ∧
      ∀ j, m.Declares (Text.trim query) j → first ≤ j := by
  simp only [candidates, if_neg hquery]
  split
  · next first hfirst =>
    obtain ⟨hname, before, after, hsearch, hbefore⟩ := List.find?_eq_some_iff_append.mp hfirst
    have hmem : first ∈ m.search (Text.trim query) := by simp [hsearch]
    refine ⟨first, rfl, declares_of_mem_search hmem (by simpa using hname), fun j hj => ?_⟩
    have hsorted : (m.search (Text.trim query)).Pairwise (· < ·) := pairwise_indicesFrom ..
    have hj' := hj.mem_search
    rw [hsearch] at hsorted hj'
    rcases List.mem_append.mp hj' with hj' | hj'
    · have hne := hbefore j hj'
      simp [hj.name?] at hne
    · rcases List.mem_cons.mp hj' with rfl | hj'
      · exact Nat.le_refl _
      · exact Nat.le_of_lt (List.rel_of_pairwise_cons (List.pairwise_append.mp hsorted).2.1 hj')
  · next hnone =>
    have hne := List.find?_eq_none.mp hnone id h.mem_search
    simp [h.name?] at hne

end

end Model

-- ---------------------------------------------------------------------------
-- What references mean
-- ---------------------------------------------------------------------------

/-- The reference `p` is the reference `t` or stands in it, at any depth. -/
inductive TypeRef.Mentions (p : TypeRef) : TypeRef → Prop
  | itself : Mentions p p
  | element {element : TypeRef} : Mentions p element → Mentions p (.array element)
  | bound {bound : TypeRef} : Mentions p bound → Mentions p (.bounded bound)
  | argument {qualified simple : String} {args : List TypeRef} {decl : Option Nat} {arg : TypeRef} :
      arg ∈ args → Mentions p arg → Mentions p (.named qualified simple args decl)

namespace Java

theorem resolveTypes_eq_map (names : Names) (unit : SourceUnit) (scope : List String)
    (es : List TypeExpr) :
    resolveTypes names unit scope es = es.map (resolveType names unit scope) := by
  induction es with
  | nil => rfl
  | cons e es ih => simp [resolveTypes, ih]

theorem index?_of_mentions {names : Names} {unit : SourceUnit} {scope : List String}
    {qualified simple : String} {args : List TypeRef} {id : Nat} {e : TypeExpr}
    (h : TypeRef.Mentions (.named qualified simple args (some id))
      (resolveType names unit scope e)) : names.index? qualified = some id := by
  generalize ht : resolveType names unit scope e = t at h
  induction h generalizing e with
  | itself =>
    cases e with
    | named segments es =>
      simp only [resolveType, TypeRef.named.injEq] at ht
      obtain ⟨rfl, -, -, hid⟩ := ht
      exact hid
    | primitive keyword => simp [resolveType, TypeRef.builtin] at ht
    | _ => simp [resolveType] at ht
  | element _ ih =>
    cases e with
    | array element =>
      simp only [resolveType, TypeRef.array.injEq] at ht
      exact ih ht
    | _ => simp [resolveType, TypeRef.builtin] at ht
  | bound _ ih =>
    cases e with
    | bounded bound =>
      simp only [resolveType, TypeRef.bounded.injEq] at ht
      exact ih ht
    | _ => simp [resolveType, TypeRef.builtin] at ht
  | argument harg _ ih =>
    cases e with
    | named segments es =>
      simp only [resolveType, TypeRef.named.injEq] at ht
      obtain ⟨-, -, rfl, -⟩ := ht
      rw [resolveTypes_eq_map] at harg
      obtain ⟨e, -, he⟩ := List.mem_map.mp harg
      exact ih he
    | primitive keyword =>
      simp only [resolveType, TypeRef.builtin, TypeRef.named.injEq] at ht
      obtain ⟨-, -, rfl, -⟩ := ht
      cases harg
    | _ => simp [resolveType] at ht

/-- A reference of a source file to a declaration leads where its qualified name leads. -/
theorem lookup_of_mentions {files : List SourceFile} {d : Declaration} {t : TypeRef}
    {qualified simple : String} {args : List TypeRef} {id : Nat}
    (hd : d ∈ (buildModel files).decls) (ht : t ∈ d.types)
    (h : TypeRef.Mentions (.named qualified simple args (some id)) t) :
    (buildModel files).lookup qualified = some id := by
  simp only [buildModel, List.mem_map] at hd
  obtain ⟨p, -, rfl⟩ := hd
  obtain ⟨e, -, rfl⟩ := Unresolved.types_resolved ht
  exact (lookup_buildModel files qualified).trans (index?_of_mentions h)

end Java

-- ---------------------------------------------------------------------------
-- Both ways
-- ---------------------------------------------------------------------------

/-- A query that is the full name of the class or enum at `id`, the last declaration of this name,
picks the first class or enum of the name. That is the one at `id`, which references in source files
mean, if and only if the name stands for no other class or enum and is not blank. -/
theorem Model.select_fullName (m : Model) (query : String) (id : Nat) (d : Declaration)
    (hlookup : m.lookup (Text.trim query) = some id) (hd : m.decl? id = some d)
    (hkind : (∃ shape, d.kind = .classType shape) ∨ ∃ constants, d.kind = .enumType constants) :
    (m.select query = .ok id ↔
      Text.trim query ≠ "" ∧ ∀ j, m.Declares (Text.trim query) j → j = id) ∧
    (Text.trim query ≠ "" → ∃ first, m.select query = .ok first ∧
      m.Declares (Text.trim query) first ∧
      ∀ j, m.Declares (Text.trim query) j → first ≤ j ∧ j ≤ id) ∧
    ∀ files, m = Java.buildModel files → ∀ e ∈ m.decls, ∀ t ∈ e.types, ∀ simple args j,
      TypeRef.Mentions (.named (Text.trim query) simple args (some j)) t → j = id := by
  obtain ⟨hname, hlast⟩ := lookup_eq_some_iff.mp hlookup
  have hdeclares : m.Declares (Text.trim query) id :=
    ⟨d, hd, hkind, Option.some.inj ((name?_of_decl? hd).symm.trans hname)⟩
  refine ⟨⟨fun hselect => ?_, fun ⟨hquery, honly⟩ => ?_⟩, fun hquery => ?_, ?_⟩
  · rw [select_eq_ok_iff] at hselect
    have hquery : Text.trim query ≠ "" := by
      intro hblank
      simp [candidates_of_blank hblank] at hselect
    obtain ⟨first, hcandidates, -, hfirst⟩ := candidates_of_declares hquery hdeclares
    obtain rfl : first = id := by simpa [hselect] using hcandidates.symm
    exact ⟨hquery, fun j hj => Nat.le_antisymm (hlast j hj.name?) (hfirst j hj)⟩
  · obtain ⟨first, hcandidates, hdeclared, -⟩ := candidates_of_declares hquery hdeclares
    rw [select_eq_ok_iff, hcandidates, honly first hdeclared]
  · obtain ⟨first, hcandidates, hdeclared, hfirst⟩ := candidates_of_declares hquery hdeclares
    exact ⟨first, select_eq_ok_iff.mpr hcandidates, hdeclared,
      fun j hj => ⟨hfirst j hj, hlast j hj.name?⟩⟩
  · rintro files rfl e he t ht simple args j hmentions
    exact Option.some.inj ((Java.lookup_of_mentions he ht hmentions).symm.trans hlookup)

namespace Java

/-- The class `a.B` lies below two roots, and `a.Holder` refers to it. -/
def sampleCopies : List SourceFile := [
  { location := ⟨⟨"old"⟩, ⟨"old/a/B.java"⟩⟩
    unit := {
      package := some "a"
      types := [.mk "B" (.classType none [⟨"x", .primitive "long", .publicAccess⟩]) []] } },
  { location := ⟨⟨"src"⟩, ⟨"src/a/B.java"⟩⟩
    unit := {
      package := some "a"
      types := [.mk "B" (.classType none [⟨"y", .primitive "long", .publicAccess⟩]) []] } },
  { location := ⟨⟨"src"⟩, ⟨"src/a/Holder.java"⟩⟩
    unit := {
      package := some "a"
      types := [.mk "Holder" (.classType none [⟨"b", .named ["B"] [], .publicAccess⟩]) []] } }]

/-- The field of the holder means the second copy, and the query picks the first. -/
theorem select_fullName_sample :
    (buildModel sampleCopies).lookup (Text.trim " a.B ") = some 1 ∧
    (∃ d, (buildModel sampleCopies).decl? 1 = some d ∧ ∃ shape, d.kind = .classType shape) ∧
    (buildModel sampleCopies).select " a.B " = .ok 0 ∧
    ∀ e ∈ (buildModel sampleCopies).decls, ∀ t ∈ e.types, ∀ simple args j,
      TypeRef.Mentions (.named (Text.trim " a.B ") simple args (some j)) t → j = 1 := by
  have hlookup : (buildModel sampleCopies).lookup (Text.trim " a.B ") = some 1 := by
    decide +kernel
  obtain ⟨-, hfirst, hmeant⟩ := Model.select_fullName _ _ _ _ hlookup rfl (.inl ⟨_, rfl⟩)
  obtain ⟨first, hselect, -, hleast⟩ := hfirst (by decide +kernel)
  have hcopy : (buildModel sampleCopies).Declares (Text.trim " a.B ") 0 :=
    ⟨_, rfl, .inl ⟨_, rfl⟩, by decide +kernel⟩
  obtain rfl : first = 0 := Nat.le_zero.mp (hleast 0 hcopy).1
  exact ⟨hlookup, ⟨_, rfl, _, rfl⟩, hselect, hmeant _ rfl⟩

/-- The class that references mean is not the one that its full name picks. -/
theorem sampleCopies_first_selected :
    (buildModel sampleCopies).lookup (Text.trim " a.B ") = some 1 ∧
    ((buildModel sampleCopies).decl? 1).map (·.kind.label) = some "class" ∧
    (buildModel sampleCopies).select " a.B " = .ok 0 := by
  decide +kernel

end Java

end TypeWeave
