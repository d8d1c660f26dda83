import TypeWeave.Proofs.Imports
import TypeWeave.Proofs.TypeExpressions

/-!
# Printed names and the closure

A class refers to the type of a field, to the types that its arguments stand for, and to the
innermost element of an array. The expression of the field spells more than that: an argument may be
an array, and the element of an array may have arguments. With type arguments at most one level deep
these are the only printed types that the class need not refer to
(`TypeRef.Prints.mem_occurrences_or_hidden`). They are all that can be missing from the imports
(`extend_printed`), and they do go missing (`sampleRows_leaf_missing`).
-/

namespace TypeWeave

namespace TypeRef

variable {t p : TypeRef} {id : Nat}

def bare : TypeRef → Bool
  | named _ _ args _ => args.isEmpty
  | array element => element.bare
  | wildcard => true
  | bounded bound => bound.bare

def shallow : TypeRef → Bool
  | named _ _ args _ => args.all bare
  | array element => element.shallow
  | wildcard => true
  | bounded bound => bound.shallow

/-- The reference stands inside a type argument, and there is an array around the argument or around
the reference itself. -/
def Hidden (t p : TypeRef) : Prop :=
  ∃ arg ∈ t.innermost.args, ∃ type, arg.bound? = some type ∧ p = type.innermost ∧
    (t.isArray = true ∨ type.isArray = true)

theorem bare_of_bound? {arg type : TypeRef} (h : arg.bare = true) (hb : arg.bound? = some type) :
    type.bare = true := by
  cases arg with
  | wildcard => cases hb
  | bounded bound =>
    cases hb
    exact h
  | _ =>
    cases hb
    exact h

theorem innermost_eq_self (h : t.isArray = false) : t.innermost = t := by
  cases t with
  | array element => cases h
  | _ => rfl

theorem Prints.eq_innermost (h : t.Prints p) (ht : t.bare = true) : p = t.innermost := by
  induction h with
  | itself => rfl
  | element _ ih => exact ih ht
  | argument _ ha =>
    obtain rfl := List.isEmpty_iff.mp ht
    cases ha

theorem Prints.innermost_or_argument (h : t.Prints p) (ht : t.shallow = true) :
    p = t.innermost ∨
      ∃ arg ∈ t.innermost.args, ∃ type, arg.bound? = some type ∧ p = type.innermost := by
  induction h with
  | itself => exact .inl rfl
  | element _ ih => exact ih ht
  | argument _ ha hb h =>
    have hmem := List.mem_of_getElem? ha
    have hbare := bare_of_bound? (List.all_eq_true.mp ht _ hmem) hb
    exact .inr ⟨_, hmem, _, hb, h.eq_innermost hbare⟩

theorem Prints.mem_occurrences_or_hidden (h : t.Prints p) (ht : t.shallow = true) :
    p ∈ t.occurrences ∨ t.Hidden p := by
  cases harray : t.isArray with
  | true =>
    rcases h.innermost_or_argument ht with rfl | ⟨arg, ha, type, hb, rfl⟩
    · exact .inl (by simp [occurrences, harray])
    · exact .inr ⟨arg, ha, type, hb, rfl, .inl harray⟩
  | false =>
    rcases h.innermost_or_argument ht with rfl | ⟨arg, ha, type, hb, rfl⟩
    · exact .inl (by simp [occurrences, innermost_eq_self harray])
    · cases hinner : type.isArray with
      | true => exact .inr ⟨arg, ha, type, hb, rfl, .inr hinner⟩
      | false =>
        rw [innermost_eq_self harray] at ha
        rw [innermost_eq_self hinner]
        refine .inl (List.mem_append_left _ (List.mem_cons_of_mem _ ?_))
        exact List.mem_filterMap.mpr ⟨arg, ha, hb⟩

theorem Hidden.mem_ids (h : t.Hidden p) (hd : p.declaration = some id) : id ∈ t.ids := by
  obtain ⟨arg, ha, type, hb, rfl, -⟩ := h
  rw [← ids_innermost]
  refine mem_ids_of_bound? ha hb ?_
  rw [← ids_innermost]
  exact mem_ids_of_declaration hd

end TypeRef

/-- The field is in the interface with an expression for its type, and the names in the expression
are those of the references it prints. -/
def FieldDecl.SpelledIn (f : FieldDecl) (i : TargetInterface) : Prop :=
  ∃ u, f.type.target? = some u ∧ ⟨f.name, u.text⟩ ∈ i.fields ∧
    (∀ qualified simple args decl,
      f.type.Prints (.named qualified simple args decl) → simple ∈ u.names) ∧
    ∀ n ∈ u.names, n ∈ TargetType.fixedNames ∨
      ∃ qualified args decl, f.type.Prints (.named qualified n args decl)

def Model.InScope (m : Model) (r : Registry) (i : TargetInterface) (id : Nat) : Prop :=
  ∃ name, m.name? id = some name ∧ name ∈ i.imports ∧ r.isKnown name = true

section
variable {m : Model} {layout : Option Layout} {d : Declaration} {c : ClassShape} {f : FieldDecl}
  {i : TargetInterface}

theorem Declaration.exists_classType (h : d.target? m layout = some (.ofInterface i)) :
    ∃ c, d.kind = .classType c := by
  cases hk : d.kind with
  | classType c => exact ⟨c, rfl⟩
  | _ => simp [target?, hk] at h

theorem Declaration.mem_imports_iff {name : String} (hc : d.kind = .classType c)
    (h : d.target? m layout = some (.ofInterface i)) :
    name ∈ i.imports ↔ ∃ id, c.RefersTo id ∧ m.name? id = some name := by
  simp only [target?, hc, Option.some.injEq, TargetDecl.ofInterface.injEq] at h
  subst h
  simp [mem_distinct, List.mem_filterMap, ClassShape.mem_references]

theorem FieldDecl.spelledIn (hc : d.kind = .classType c)
    (h : d.target? m layout = some (.ofInterface i)) (he : d.Expressible)
    (hf : f ∈ c.visibleFields) : f.SpelledIn i := by
  obtain ⟨u, hu⟩ := Option.isSome_iff_exists.mp (he.field hc hf)
  refine ⟨u, hu, ?_, fun _ _ _ _ hp => hp.mem_names hu, fun n => TypeRef.prints_of_mem_names hu⟩
  simp only [Declaration.target?, hc, Option.some.injEq, TargetDecl.ofInterface.injEq] at h
  subst h
  exact List.mem_filterMap.mpr ⟨f, hf, by simp [FieldDecl.target?, TypeRef.expression?, hu]⟩

end

namespace Closure

section
variable {m : Model} {layout : Option Layout} {r' : Registry} {id b : Nat} {d : Declaration}
  {c : ClassShape} {f : FieldDecl} {i : TargetInterface}

/-- In a canonical model a name is imported only if the class refers to its declaration. -/
theorem inScope_iff (hm : m.Canonical) (hd : m.decl? id = some d) (hc : d.kind = .classType c)
    (h : d.target? m layout = some (.ofInterface i)) (hknown : ∀ b, m.Edge id b → m.Known r' b)
    (hb : m.IsEntry b) : m.InScope r' i b ↔ c.RefersTo b := by
  have hedge {x : Nat} (hx : c.RefersTo x) : m.Edge id x := ⟨d, c, hd, hc, hx⟩
  constructor
  · rintro ⟨name, hname, himport, -⟩
    obtain ⟨x, hx, hxname⟩ := (Declaration.mem_imports_iff hc h).mp himport
    obtain ⟨e, he, -⟩ := hknown x (hedge hx)
    obtain ⟨e', he', -⟩ := Model.isEntry_iff.mp hb
    rw [Model.name?_of_decl? he'] at hname
    rw [Model.name?_of_decl? he, ← hname] at hxname
    obtain rfl : x = b := (hm.edge (hedge hx)).unique hb he he' (Option.some.inj hxname)
    exact hx
  · intro hx
    obtain ⟨e, he, hk⟩ := hknown b (hedge hx)
    exact ⟨e.qualified, Model.name?_of_decl? he,
      (Declaration.mem_imports_iff hc h).mpr ⟨b, hx, Model.name?_of_decl? he⟩, hk⟩

theorem printed_inScope_iff (hm : m.Canonical) (hd : m.decl? id = some d)
    (hc : d.kind = .classType c) (h : d.target? m layout = some (.ofInterface i))
    (hknown : ∀ b, m.Edge id b → m.Known r' b) (hf : f ∈ c.visibleFields)
    (hs : f.type.shallow = true) :
    (∀ p b, f.type.Prints p → p.declaration = some b → m.InScope r' i b) ↔
      ∀ p b, f.type.Prints p → f.type.Hidden p → p.declaration = some b → c.RefersTo b := by
  have hentry {p : TypeRef} {b : Nat} (hp : f.type.Hidden p) (hb : p.declaration = some b) :
      m.IsEntry b := by
    refine hm d (List.mem_of_getElem? hd) f.type ?_ b (hp.mem_ids hb)
    simp only [Declaration.types, hc]
    exact List.mem_append_right _ (List.mem_map_of_mem (ClassShape.mem_visibleFields.mp hf).1)
  constructor
  · intro hall p b hp hhidden hb
    exact (inScope_iff hm hd hc h hknown (hentry hhidden hb)).mp (hall p b hp hb)
  · intro hall p b hp hb
    rcases hp.mem_occurrences_or_hidden hs with hocc | hhidden
    · have href : c.RefersTo b := by
        refine .of_field hf ?_
        rw [TypeRef.references_eq]
        exact List.mem_filterMap.mpr ⟨p, hocc, hb⟩
      exact (inScope_iff hm hd hc h hknown (hm.edge ⟨d, c, hd, hc, href⟩)).mpr href
    · exact (inScope_iff hm hd hc h hknown (hentry hhidden hb)).mpr (hall p b hp hhidden hb)

end

/-- Of the types that the expression of a field spells, all are imported and known if and only if
the class refers in some other place to those that are hidden from it. -/
theorem extend_printed {m : Model} {layout : Option Layout} {seed : Nat} {r : Registry}
    {name : String} {i : TargetInterface} (hm : m.Canonical)
    (hfault : (extend m layout seed r).fault = none) (hnew : r.slot? name = none)
    (hi : (extend m layout seed r).registry.get? name = some (.ofInterface i)) :
    ∃ id d c, m.decl? id = some d ∧ d.qualified = name ∧ d.kind = .classType c ∧
      d.target? m layout = some (.ofInterface i) ∧
      ∀ f ∈ c.fields, f.visibility ≠ .privateAccess → f.type.shallow = true →
        f.SpelledIn i ∧
        ((∀ p b, f.type.Prints p → p.declaration = some b →
            m.InScope (extend m layout seed r).registry i b) ↔
          ∀ p b, f.type.Prints p → f.type.Hidden p → p.declaration = some b → c.RefersTo b) := by
  have hw := extend_walk m layout seed r
  rw [hfault] at hw
  obtain ⟨id, d, _, _, hd, hq, -, hslot, hsteps, hknown⟩ :=
    hw.entered hnew (Registry.get?_eq_some_iff.mp hi)
  have htarget := (Slot.done.inj hslot).symm
  obtain ⟨c, hc⟩ := Declaration.exists_classType htarget
  refine ⟨id, d, c, hd, hq, hc, htarget, fun f hf hv hs => ?_⟩
  have hvisible := ClassShape.mem_visibleFields.mpr ⟨hf, hv⟩
  have hedges (b : Nat) (hab : m.Edge id b) :=
    hknown b (hsteps.reference_known ((Model.edge_iff hd).mp hab))
  exact ⟨FieldDecl.spelledIn hc htarget (fun type ht => hsteps.expressible ht) hvisible,
    printed_inScope_iff hm hd hc htarget hedges hvisible hs⟩

def sampleRows : Model where
  decls := [
    { qualified := "grid.Sheet", simple := "Sheet"
      location := ⟨⟨"src"⟩, ⟨"src/grid/Sheet.java"⟩⟩
      kind := .classType { fields := [
        ⟨"rows", .named "java.util.List" "List" [.array (.declared "grid.Leaf" 1)] none,
          .publicAccess⟩,
        ⟨"roles", .named "java.util.Map" "Map"
          [.builtin "java.lang.String", .bounded (.declared "grid.Role" 2)] none, .publicAccess⟩,
        ⟨"cells", .array (.array (.declared "grid.Role" 2)), .publicAccess⟩] } },
    { qualified := "grid.Leaf", simple := "Leaf"
      location := ⟨⟨"src"⟩, ⟨"src/grid/Leaf.java"⟩⟩
      kind := .classType {} },
    { qualified := "grid.Role", simple := "Role"
      location := ⟨⟨"src"⟩, ⟨"src/grid/Role.java"⟩⟩
      kind := .classType {} }]

def sheetInterface : TargetInterface where
  name := "Sheet"
  qualified := "grid.Sheet"
  fields := [⟨"rows", "Leaf[][]"⟩, ⟨"roles", "Map<string, Role>"⟩, ⟨"cells", "Role[][]"⟩]
  imports := ["grid.Role"]

theorem extend_printed_sample :
    sampleRows.Canonical ∧ (extend sampleRows none 0 .empty).fault = none ∧
    (extend sampleRows none 0 .empty).registry.get? "grid.Sheet" =
      some (.ofInterface sheetInterface) ∧
    ∃ id d c, sampleRows.decl? id = some d ∧ d.qualified = "grid.Sheet" ∧ d.kind = .classType c ∧
      d.target? sampleRows none = some (.ofInterface sheetInterface) ∧
      ∀ f ∈ c.fields, f.visibility ≠ .privateAccess → f.type.shallow = true →
        f.SpelledIn sheetInterface ∧
        ((∀ p b, f.type.Prints p → p.declaration = some b →
            sampleRows.InScope (extend sampleRows none 0 .empty).registry sheetInterface b) ↔
          ∀ p b, f.type.Prints p → f.type.Hidden p → p.declaration = some b → c.RefersTo b) := by
  have hm : sampleRows.Canonical := by decide
  have hfault : (extend sampleRows none 0 .empty).fault = none := by decide
  have hi : (extend sampleRows none 0 .empty).registry.get? "grid.Sheet" =
      some (.ofInterface sheetInterface) := by decide +kernel
  exact ⟨hm, hfault, hi, extend_printed hm hfault (Registry.slot?_empty _) hi⟩

/-- The first field spells `Leaf`, which is neither imported nor known. -/
theorem sampleRows_leaf_missing :
    sampleRows.Canonical ∧ (run sampleRows none 0).fault = none ∧
    (run sampleRows none 0).registry.get? "grid.Sheet" = some (.ofInterface sheetInterface) ∧
    ∃ (d : Declaration) (c : ClassShape), ∃ f ∈ c.fields, ∃ p,
      sampleRows.decl? 0 = some d ∧ d.kind = .classType c ∧
      f.visibility ≠ .privateAccess ∧ f.type.shallow = true ∧ f.type.Prints p ∧
      p.declaration = some 1 ∧ sampleRows.name? 1 = some "grid.Leaf" ∧
      "grid.Leaf" ∉ sheetInterface.imports ∧
      (run sampleRows none 0).registry.isKnown "grid.Leaf" = false := by
  have hprints : TypeRef.Prints
      (.named "java.util.List" "List" [.array (.declared "grid.Leaf" 1)] none)
      (.declared "grid.Leaf" 1) :=
    .argument (i := 0) (by decide) rfl rfl (.element (.itself (by decide) (by decide)))
  exact ⟨by decide, by decide, by decide +kernel, _, _, _, List.mem_cons_self, _, rfl, rfl,
    by decide, by decide, hprints, rfl, by decide, by decide, by decide +kernel⟩

end Closure

end TypeWeave
