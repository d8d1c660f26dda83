import Mathlib.Data.List.Nodup
import TypeWeave.Java.Resolution
import TypeWeave.Proofs.Edges

/-!
# Canonical models

Names may repeat in a model, and then only one of the declarations of a name can be looked up: its
entry. A model is canonical if every index in its superclasses and field types is an entry, so that
a reference and the name it stands for lead to the same declaration. Models with distinct names are
canonical if their indices exist (`Model.canonical_of_nodup`), and so are all models that come from
source files (`Java.buildModel_canonical`), where names may well repeat.
-/

namespace TypeWeave

-- ---------------------------------------------------------------------------
-- Indices in declarations
-- ---------------------------------------------------------------------------

namespace TypeRef

mutual
/-- Every index in a type reference, at any depth. -/
def ids : TypeRef → List Nat
  | named _ _ args decl => decl.toList ++ idsOf args
  | array element => element.ids
  | wildcard => []
  | bounded bound => bound.ids
def idsOf : List TypeRef → List Nat
  | [] => []
  | t :: ts => t.ids ++ idsOf ts
end

variable {t arg bound : TypeRef} {ts : List TypeRef} {id : Nat}

theorem mem_idsOf_iff : id ∈ idsOf ts ↔ ∃ t ∈ ts, id ∈ t.ids := by
  induction ts with
  | nil => simp [idsOf]
  | cons t ts ih => simp [idsOf, ih]

theorem mem_ids_of_declaration (h : t.declaration = some id) : id ∈ t.ids := by
  cases t <;> simp_all [declaration, ids]

theorem mem_ids_of_bound? (ha : arg ∈ t.args) (hb : arg.bound? = some bound) (h : id ∈ bound.ids) :
    id ∈ t.ids := by
  have harg : id ∈ arg.ids := by
    cases arg <;> cases hb <;> simpa [ids] using h
  cases t with
  | named qualified simple args decl =>
    simp only [ids, List.mem_append]
    exact .inr (mem_idsOf_iff.mpr ⟨arg, ha, harg⟩)
  | _ => cases ha

theorem ids_innermost (t : TypeRef) : t.innermost.ids = t.ids := by
  fun_induction innermost t with
  | case1 element ih => rw [ih, ids]
  | case2 => rfl

theorem mem_ids_of_mem_references (h : id ∈ t.references) : id ∈ t.ids := by
  rcases mem_references_iff.mp h with h | ⟨arg, ha, bound, hb, h⟩ | ⟨-, h⟩
  · exact mem_ids_of_declaration h
  · exact mem_ids_of_bound? ha hb (mem_ids_of_declaration h)
  · exact ids_innermost t ▸ mem_ids_of_declaration h

end TypeRef

def Declaration.types (d : Declaration) : List TypeRef :=
  match d.kind with
  | .classType c => c.superclass.toList ++ c.fields.map (·.type)
  | _ => []

theorem Declaration.mem_types_of_reference {d : Declaration} {id : Nat}
    (h : Step.reference id ∈ d.steps) : ∃ t ∈ d.types, id ∈ t.ids := by
  obtain ⟨c, hc, hr⟩ := Declaration.reference_mem_steps.mp h
  simp only [Declaration.types, hc]
  rcases hr.cases_field with ⟨t, ht, h⟩ | ⟨f, hf, h⟩
  · exact ⟨t, by simp [ht], TypeRef.mem_ids_of_declaration h⟩
  · have hm := (ClassShape.mem_visibleFields.mp hf).1
    exact ⟨f.type, List.mem_append_right _ (List.mem_map_of_mem hm),
      TypeRef.mem_ids_of_mem_references h⟩

-- ---------------------------------------------------------------------------
-- Entries
-- ---------------------------------------------------------------------------

namespace Model

variable {m : Model} {a b id : Nat} {d : Declaration} {name : String}

/-- The index is the one that `lookup` gives for the name of its declaration. -/
def IsEntry (m : Model) (id : Nat) : Prop := (m.name? id).bind m.lookup = some id

instance : DecidablePred m.IsEntry := fun _ => inferInstanceAs (Decidable (_ = _))

/-- Every index in a superclass or a field type is an entry. -/
def Canonical (m : Model) : Prop := ∀ d ∈ m.decls, ∀ t ∈ d.types, ∀ id ∈ t.ids, m.IsEntry id

instance : Decidable m.Canonical := inferInstanceAs (Decidable (∀ d ∈ m.decls, _))

/-- Every index in a superclass or a field type is an entry, provided that it is the index of a
declaration at all. -/
def Coherent (m : Model) : Prop :=
  ∀ d ∈ m.decls, ∀ t ∈ d.types, ∀ id ∈ t.ids, id < m.size → m.IsEntry id

instance : Decidable m.Coherent := inferInstanceAs (Decidable (∀ d ∈ m.decls, _))

def InBounds (m : Model) : Prop := ∀ d ∈ m.decls, ∀ t ∈ d.types, ∀ id ∈ t.ids, id < m.size

theorem IsEntry.of_lookup (h : m.lookup name = some id) : m.IsEntry id := by
  obtain ⟨d, hd, rfl⟩ := decl?_of_lookup h
  simp [IsEntry, name?, hd, h]

theorem isEntry_iff : m.IsEntry id ↔ ∃ d, m.decl? id = some d ∧ m.lookup d.qualified = some id := by
  cases hd : m.decl? id <;> simp [IsEntry, name?, hd]

theorem IsEntry.lookup (h : m.IsEntry id) (hd : m.decl? id = some d) :
    m.lookup d.qualified = some id := by
  obtain ⟨d', hd', hl⟩ := isEntry_iff.mp h
  obtain rfl : d = d' := Option.some.inj (hd.symm.trans hd')
  exact hl

theorem IsEntry.name?_isSome (h : m.IsEntry id) : (m.name? id).isSome := by
  obtain ⟨d, hd, -⟩ := isEntry_iff.mp h
  simp [name?, hd]

theorem IsEntry.unique {e : Declaration} (ha : m.IsEntry a) (hb : m.IsEntry b)
    (hd : m.decl? a = some d) (he : m.decl? b = some e) (h : d.qualified = e.qualified) : a = b := by
  have hl := ha.lookup hd
  rw [h, hb.lookup he] at hl
  exact (Option.some.inj hl).symm

theorem Canonical.edge (h : m.Canonical) (hab : m.Edge a b) : m.IsEntry b := by
  obtain ⟨d, c, hd, hc⟩ := hab
  have hs := Declaration.reference_mem_steps.mpr ⟨c, hc⟩
  obtain ⟨t, ht, hid⟩ := Declaration.mem_types_of_reference hs
  exact h d (List.mem_of_getElem? hd) t ht b hid

def Entries (m : Model) (steps : List Step) : Prop := ∀ id, Step.reference id ∈ steps → m.IsEntry id

theorem Canonical.entries (h : m.Canonical) (hd : m.decl? a = some d) : m.Entries d.steps :=
  fun _ hs => h.edge ((edge_iff hd).mpr hs)

theorem Entries.tail {step : Step} {rest : List Step} (h : m.Entries (step :: rest)) :
    m.Entries rest :=
  fun id hs => h id (List.mem_cons_of_mem _ hs)

theorem Entries.singleton (h : m.IsEntry id) : m.Entries [.reference id] := by
  intro x hx
  cases List.mem_singleton.mp hx
  exact h

theorem Canonical.coherent (h : m.Canonical) : m.Coherent :=
  fun d hd t ht id hid _ => h d hd t ht id hid

theorem Coherent.edge (h : m.Coherent) (hab : m.Edge a b) (hb : b < m.size) : m.IsEntry b := by
  obtain ⟨d, c, hd, hc⟩ := hab
  have hs := Declaration.reference_mem_steps.mpr ⟨c, hc⟩
  obtain ⟨t, ht, hid⟩ := Declaration.mem_types_of_reference hs
  exact h d (List.mem_of_getElem? hd) t ht b hid hb

def EntriesInBounds (m : Model) (steps : List Step) : Prop :=
  ∀ id, Step.reference id ∈ steps → id < m.size → m.IsEntry id

theorem Coherent.entries (h : m.Coherent) (hd : m.decl? a = some d) : m.EntriesInBounds d.steps :=
  fun _ hs => h.edge ((edge_iff hd).mpr hs)

theorem EntriesInBounds.tail {step : Step} {rest : List Step}
    (h : m.EntriesInBounds (step :: rest)) : m.EntriesInBounds rest :=
  fun id hs => h id (List.mem_cons_of_mem _ hs)

theorem Entries.inBounds {steps : List Step} (h : m.Entries steps) : m.EntriesInBounds steps :=
  fun id hs _ => h id hs

theorem Coherent.freshPath {r : Registry} (h : m.Coherent) (ha : m.IsEntry a)
    (hp : m.FreshPath r a b) : m.IsEntry b := by
  induction hp with
  | here => exact ha
  | step _ hab hp ih =>
    obtain ⟨d, hd, -⟩ := hp.unseen_first
    exact ih (h.edge hab (lt_size_of_decl? hd))

theorem Canonical.freshPath {r : Registry} (h : m.Canonical) (ha : m.IsEntry a)
    (hp : m.FreshPath r a b) : m.IsEntry b :=
  h.coherent.freshPath ha hp

-- ---------------------------------------------------------------------------
-- Models with distinct names
-- ---------------------------------------------------------------------------

theorem isEntry_of_nodup (hn : (m.decls.map (·.qualified)).Nodup) (hid : id < m.size) :
    m.IsEntry id := by
  have hd : m.decl? id = some m.decls[id] := List.getElem?_eq_getElem hid
  refine isEntry_iff.mpr ⟨_, hd, ?_⟩
  cases hl : m.lookup m.decls[id].qualified with
  | none =>
    have hall := lastIndex?_eq_none_iff.mp hl m.decls[id] (List.getElem_mem hid)
    simp at hall
  | some j =>
    obtain ⟨e, he, hq⟩ := decl?_of_lookup hl
    obtain ⟨hj, rfl⟩ := List.getElem?_eq_some_iff.mp he
    have hsame : m.decls[j] = m.decls[id] :=
      List.inj_on_of_nodup_map hn (List.getElem_mem hj) (List.getElem_mem hid) hq
    exact congrArg some ((List.Nodup.of_map _ hn).getElem_inj_iff.mp hsame)

theorem canonical_of_nodup (hb : m.InBounds) (hn : (m.decls.map (·.qualified)).Nodup) :
    m.Canonical :=
  fun d hd t ht id hid => isEntry_of_nodup hn (hb d hd t ht id hid)

end Model

-- ---------------------------------------------------------------------------
-- Models of source files
-- ---------------------------------------------------------------------------

theorem lastIndex?_map {p : β → Bool} {f : α → β} {as : List α} :
    lastIndex? p (as.map f) = lastIndex? (fun a => p (f a)) as := by
  induction as with
  | nil => rfl
  | cons a as ih => simp only [List.map_cons, lastIndex?, ih]

namespace Java

mutual
/-- An index in a resolved type is the index of some declared name. -/
theorem index?_of_mem_ids {names : Names} {unit : SourceUnit} {scope : List String} {id : Nat} :
    (e : TypeExpr) → id ∈ (resolveType names unit scope e).ids →
      ∃ qualified, names.index? qualified = some id
  | .primitive keyword, h => by
    simp [resolveType, TypeRef.builtin, TypeRef.ids, TypeRef.idsOf] at h
  | .array element, h => by
    simp only [resolveType, TypeRef.ids] at h
    exact index?_of_mem_ids element h
  | .wildcard, h => by
    simp [resolveType, TypeRef.ids] at h
  | .bounded bound, h => by
    simp only [resolveType, TypeRef.ids] at h
    exact index?_of_mem_ids bound h
  | .named segments args, h => by
    simp only [resolveType, TypeRef.ids, List.mem_append, Option.mem_toList] at h
    rcases h with h | h
    · exact ⟨_, h⟩
    · exact index?_of_mem_idsOf args h
theorem index?_of_mem_idsOf {names : Names} {unit : SourceUnit} {scope : List String} {id : Nat} :
    (es : List TypeExpr) → id ∈ TypeRef.idsOf (resolveTypes names unit scope es) →
      ∃ qualified, names.index? qualified = some id
  | [], h => by
    simp [resolveTypes, TypeRef.idsOf] at h
  | e :: es, h => by
    simp only [resolveTypes, TypeRef.idsOf, List.mem_append] at h
    rcases h with h | h
    · exact index?_of_mem_ids e h
    · exact index?_of_mem_idsOf es h
end

def WrittenKind.types : WrittenKind → List TypeExpr
  | .classType superclass fields => superclass.toList ++ fields.map (·.type)
  | _ => []

theorem Unresolved.types_resolved {names : Names} {p : Unresolved} {t : TypeRef}
    (h : t ∈ (p.declaration names).types) : ∃ e ∈ p.type.kind.types, t = p.resolve names e := by
  simp only [Declaration.types, Unresolved.declaration, Unresolved.kind] at h
  cases hk : p.type.kind with
  | classType superclass fields =>
    simp only [hk, List.mem_append, Option.mem_toList, Option.map_eq_some_iff,
      List.map_map, List.mem_map] at h
    simp only [WrittenKind.types, List.mem_append, Option.mem_toList, List.mem_map]
    rcases h with ⟨e, he, rfl⟩ | ⟨f, hf, rfl⟩
    · exact ⟨e, .inl he, rfl⟩
    · exact ⟨f.type, .inr ⟨f, hf, rfl⟩, rfl⟩
  | _ => simp [hk] at h

/-- The two passes agree: a name has the same index before and after its references are resolved. -/
theorem lookup_buildModel (files : List SourceFile) (qualified : String) :
    (buildModel files).lookup qualified =
      Names.index? ((files.flatMap SourceFile.unresolved).map (·.qualified)) qualified := by
  simp only [Model.lookup, buildModel, Names.index?, lastIndex?_map]
  rfl

theorem buildModel_canonical (files : List SourceFile) : (buildModel files).Canonical := by
  intro d hd t ht id hid
  simp only [buildModel, List.mem_map] at hd
  obtain ⟨p, -, rfl⟩ := hd
  obtain ⟨e, -, rfl⟩ := Unresolved.types_resolved ht
  obtain ⟨qualified, hq⟩ := index?_of_mem_ids e hid
  exact Model.IsEntry.of_lookup ((lookup_buildModel files qualified).trans hq)

end Java

end TypeWeave
