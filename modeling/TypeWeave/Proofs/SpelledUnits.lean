import TypeWeave.Proofs.SpelledBodies

/-!
# Reading spelled source units

A source text whose tokens are those of some spelling of a unit, with any gaps between them, is read
as that unit (`readUnit_of_spelled`): its package and its imports are read from the members in
front of the types.
-/

namespace TypeWeave.Java

open Java.Tree

section
variable {kind : BodyKind} {ts : List Tree}

-- ---------------------------------------------------------------------------
-- Dotted names
-- ---------------------------------------------------------------------------

theorem SpellsName.isDotted_eq {names : List String} (h : SpellsName ts names) :
    isDotted ts = true := by
  induction h with
  | last => rfl
  | @cons gap name dot ts names _ h ih =>
    cases h with
    | last => rfl
    | cons => simpa [isDotted, word?, isLeaf] using ih

theorem SpellsName.join_cons {names : List String} (h : SpellsName ts names) (name : String) :
    Text.join "." (name :: names) = name ++ "." ++ Text.join "." names := by
  cases h <;> rfl

theorem SpellsName.sourceText_eq {names : List String} (h : SpellsName ts names)
    (htight : Tight ts) : sourceText (tokensOf ts) = Text.join "." names := by
  induction h with
  | last => simp [tokensOf, tokens, sourceText, Text.join]
  | @cons gap name dot ts names _ h ih =>
    have hall : ∀ t ∈ (⟨dot, .mark, "."⟩ : Token) :: tokensOf ts, t.gap = "" := htight
    obtain ⟨hdot, hrest⟩ := List.forall_mem_cons.mp hall
    have ih := ih fun t ht => hrest t (List.mem_of_mem_tail ht)
    have hcontinues : (tokensOf ts).foldr (fun t text => t.gap ++ t.text ++ text) "" =
        sourceText (tokensOf ts) := by
      cases htokens : tokensOf ts with
      | nil => rfl
      | cons token tokens =>
        rw [htokens] at hrest
        rw [List.foldr_cons, hrest token List.mem_cons_self, sourceText, String.empty_append]
    have hgap : dot = "" := hdot
    subst hgap
    rw [h.join_cons, ← ih, ← hcontinues]
    simp [tokensOf, tokens, sourceText, String.append_assoc]

theorem SpellsName.not_blank {names : List String} (h : SpellsName ts names) :
    ∀ c ∈ (Text.join "." names).toList, Text.isBlank c = false := by
  induction h with
  | last h => exact h.not_blank
  | cons hname h ih =>
    rw [h.join_cons, String.toList_append, String.toList_append]
    exact List.forall_mem_append.mpr
      ⟨List.forall_mem_append.mpr ⟨hname.not_blank, by decide⟩, ih⟩

theorem SpellsName.dottedName_eq {names : List String} (h : SpellsName ts names)
    (htight : Tight ts) : dottedName ts = Text.join "." names := by
  have hkept : (Text.join "." names).toList.filter (fun c => !Text.isBlank c) =
      (Text.join "." names).toList :=
    List.filter_eq_self.mpr fun c hc => by simp [h.not_blank c hc]
  rw [dottedName, h.sourceText_eq htight, Text.squeeze, hkept, String.ofList_toList]

theorem SpellsName.isLeaf_star {names : List String} (h : SpellsName ts names) :
    ∀ t ∈ ts, t.isLeaf "*" = false := by
  induction h with
  | last h => exact List.forall_mem_singleton.mpr (h.isLeaf _ (by decide))
  | cons h _ ih =>
    exact List.forall_mem_cons.mpr
      ⟨h.isLeaf _ (by decide), List.forall_mem_cons.mpr ⟨by simp [isLeaf], ih⟩⟩

-- ---------------------------------------------------------------------------
-- Packages and imports
-- ---------------------------------------------------------------------------

theorem Tree.Interior.isAnnotationTree {t : Tree} (h : t.Interior) :
    t.isAnnotationTree = false := by
  match t with
  | .leaf _ | .group _ _ _ => rfl
  | .annotationTree _ => exact h.balanced.elim

/-- A member that starts with `package` or `import`. -/
theorem members_keyword {keyword : String} (hkeyword : keyword ∈ ["package", "import"])
    (hts : ∀ t ∈ ts, t.Interior) (kind : BodyKind) (gap semicolon : String) (rest : List Tree) :
    members kind (word gap keyword :: (ts ++ mark semicolon ";" :: rest)) =
      (word gap keyword :: ts) :: members kind rest := by
  have hmarks : ∀ keyword ∈ ["package", "import"], keyword ≠ "@" ∧ keyword ≠ ";" := by decide
  obtain ⟨hat, hend⟩ := hmarks keyword hkeyword
  have hgather : ∀ t ∈ word gap keyword :: ts, t.isLeaf "@" = false :=
    List.forall_mem_cons.mpr
      ⟨by simpa [isLeaf] using hat, fun t ht => (hts t ht).isLeaf "@" (by decide)⟩
  refine @members_semicolon kind (word gap keyword :: ts) _ rest semicolon ?_ ?_
  · rw [← List.cons_append, gatherAnnotations_append hgather,
      gatherAnnotations_cons (by simp [isLeaf])]
  · exact List.forall_mem_cons.mpr ⟨⟨by simpa [isLeaf] using hend, rfl⟩,
      fun t ht => ⟨(hts t ht).isLeaf ";" (by decide), (hts t ht).isGroup⟩⟩

theorem typeOf_keyword {keyword : String} (hkeyword : keyword ∈ ["package", "import"])
    (depth : Nat) (gap : String) : typeOf depth kind (word gap keyword :: ts) = none := by
  have hwords : ∀ keyword ∈ ["package", "import"], keyword ∉ modifiers ∧ keyword ≠ "non" ∧
      keyword ∉ ["class", "interface", "enum", "record"] := by decide
  obtain ⟨hmodifier, hnon, hheader⟩ := hwords keyword hkeyword
  exact typeOf_eq_none (readHeader?_word
    (cutModifiers_word hmodifier fun heq => absurd heq hnon) hheader)

theorem SpellsName.readPackage?_eq {names : List String} (h : SpellsName ts names)
    (htight : Tight ts) (gap : String) :
    readPackage? (word gap "package" :: ts) = some (Text.join "." names) := by
  have hplain : ∀ t ∈ word gap "package" :: ts, t.isAnnotationTree = false :=
    List.forall_mem_cons.mpr ⟨rfl, fun t ht => (h.interior t ht).isAnnotationTree⟩
  have hkept : dropAnnotations (word gap "package" :: ts) = word gap "package" :: ts :=
    List.filter_eq_self.mpr fun t ht => by simp [hplain t ht]
  have hcount : (word gap "package" :: ts).countP Tree.isAnnotationTree = 0 :=
    List.countP_eq_zero.mpr fun t ht => by simp [hplain t ht]
  simp [readPackage?, hkept, hcount, isLeaf, h.isDotted_eq, h.dottedName_eq htight]

theorem SpellsName.head_isLeaf_static {names : List String} (h : SpellsName ts names)
    (rest : List Tree) : (ts ++ rest).head?.any (·.isLeaf "static") = false := by
  obtain ⟨gap, name, us, rfl, hname⟩ := h.starts
  exact hname.isLeaf gap (by decide)

theorem SpellsName.ne_nil {names : List String} (h : SpellsName ts names) : ts ≠ [] := by
  rintro rfl
  cases h

theorem SpellsName.readImport?_single {names : List String} (h : SpellsName ts names)
    (htight : Tight ts) (gap : String) :
    readImport? (word gap "import" :: ts) = some (.single (Text.join "." names)) := by
  have hstatic := h.head_isLeaf_static []
  rw [List.append_nil] at hstatic
  have hstar : ts.getLast?.any (·.isLeaf "*") = false := by
    cases hlast : ts.getLast? with
    | none => rfl
    | some t => exact h.isLeaf_star t (List.mem_of_getLast? hlast)
  have hkeyword : (word gap "import").isLeaf "import" = true := by simp [isLeaf]
  simp [readImport?, hkeyword, h.ne_nil, hstatic, hstar, h.dottedName_eq htight]

theorem SpellsName.readImport?_onDemand {names : List String} (h : SpellsName ts names)
    (htight : Tight ts) (gap dot star : String) :
    readImport? (word gap "import" :: (ts ++ [mark dot ".", mark star "*"])) =
      some (.onDemand (Text.join "." names)) := by
  have hstatic := h.head_isLeaf_static [mark dot ".", mark star "*"]
  have hstar : (ts ++ [mark dot ".", mark star "*"]).getLast?.any (·.isLeaf "*") = true := by
    simp [isLeaf]
  have hname : (ts ++ [mark dot ".", mark star "*"]).dropLast.dropLast = ts := by simp
  have hkeyword : (word gap "import").isLeaf "import" = true := by simp [isLeaf]
  have hempty : (ts ++ [mark dot ".", mark star "*"]).isEmpty = false := by simp
  simp only [readImport?, hkeyword, hempty, hstatic, hstar, hname, h.dottedName_eq htight,
    Bool.not_true, Bool.or_false, Bool.false_eq_true, if_false, if_true]

end

/-- Trees in front of the types of a unit, with the members they are seen as and what these name. -/
structure Preamble (ts : List Tree) (package : Option String) (imports : List Import)
    (seen : List (List Tree)) : Prop where
  members_append : ∀ rest, members .ordinaryBody (ts ++ rest) = seen ++ members .ordinaryBody rest
  package : seen.filterMap readPackage? = package.toList
  imports : seen.filterMap readImport? = imports
  types : ∀ depth, seen.filterMap (typeOf depth .ordinaryBody) = []

theorem Preamble.nil : Preamble [] none [] [] where
  members_append _ := rfl
  package := rfl
  imports := rfl
  types _ := rfl

theorem SpellsPackage.preamble {ts : List Tree} {package : Option String}
    (h : SpellsPackage ts package) : ∃ seen, Preamble ts package [] seen := by
  cases h with
  | none => exact ⟨[], .nil⟩
  | @some gap ts names semicolon h htight =>
    have himport : readImport? (word gap "package" :: ts) = Option.none := by
      simp [readImport?, isLeaf]
    refine ⟨[word gap "package" :: ts], fun rest => ?_, ?_, ?_, fun depth => ?_⟩
    · rw [List.cons_append, List.append_assoc, List.singleton_append,
        members_keyword (by decide) h.interior]
      rfl
    · rw [List.filterMap_cons_some (h.readPackage?_eq htight gap)]
      rfl
    · rw [List.filterMap_cons_none himport]
      rfl
    · rw [List.filterMap_cons_none (typeOf_keyword (by decide) depth gap)]
      rfl

/-- One more import in front. -/
theorem Preamble.cons {ts us : List Tree} {gap semicolon : String} {imported : Import}
    {imports : List Import} {seen : List (List Tree)} (h : Preamble us none imports seen)
    (hts : ∀ t ∈ ts, t.Interior) (hread : readImport? (word gap "import" :: ts) = some imported) :
    Preamble (word gap "import" :: (ts ++ mark semicolon ";" :: us)) none (imported :: imports)
      ((word gap "import" :: ts) :: seen) := by
  have hpackage : readPackage? (word gap "import" :: ts) = none := by
    simp [readPackage?, dropAnnotations, isAnnotationTree, isLeaf]
  refine ⟨fun rest => ?_, ?_, ?_, fun depth => ?_⟩
  · rw [List.cons_append, List.append_assoc, List.cons_append,
      members_keyword (by decide) hts, h.members_append]
    rfl
  · rw [List.filterMap_cons_none hpackage, h.package]
  · rw [List.filterMap_cons_some hread, h.imports]
  · rw [List.filterMap_cons_none (typeOf_keyword (by decide) depth gap), h.types]

theorem SpellsImports.preamble {ts : List Tree} {imports : List Import}
    (h : SpellsImports ts imports) : ∃ seen, Preamble ts none imports seen := by
  induction h with
  | nil => exact ⟨[], .nil⟩
  | single h htight _ ih =>
    obtain ⟨seen, hseen⟩ := ih
    exact ⟨_, hseen.cons h.interior (h.readImport?_single htight _)⟩
  | @onDemand gap ts names dot star semicolon us imports h htight _ ih =>
    obtain ⟨seen, hseen⟩ := ih
    have hinterior : ∀ t ∈ ts ++ [mark dot ".", mark star "*"], t.Interior :=
      List.forall_mem_append.mpr ⟨h.interior, List.forall_mem_cons.mpr
        ⟨interior_mark (by decide), List.forall_mem_singleton.mpr (interior_mark (by decide))⟩⟩
    have hpreamble := @Preamble.cons _ us gap semicolon _ imports seen hseen hinterior
      (h.readImport?_onDemand htight gap dot star)
    rw [List.append_assoc] at hpreamble
    exact ⟨_, hpreamble⟩

theorem SeenMember.names_nothing {member : List Tree} (h : SeenMember member) :
    readPackage? member = none ∧ readImport? member = none := by
  have hleaf : ∀ text ∈ ["package", "import"], ∀ t ∈ member, t.isLeaf text = false := by
    intro text htext
    cases h with
    | empty => exact List.forall_mem_nil _
    | fields h => exact h.isLeaf_eq_false htext
    | type h => exact h.isLeaf_eq_false htext
  exact ⟨readPackage?_eq_none (hleaf _ (by decide)), readImport?_eq_none (hleaf _ (by decide))⟩

-- ---------------------------------------------------------------------------
-- Source units
-- ---------------------------------------------------------------------------

theorem readUnit_of_spelled {unit : SourceUnit} {text : String} (h : Spelled text unit) :
    readUnit text = unit := by
  obtain ⟨trees, h, htext⟩ := h
  have htrees := parseTrees_tokensOf h.balanced
  simp only [readUnit, tokenize_of_writtenOut htext, htrees]
  cases h with
  | @intro ps package is imports body types hpackage himports hbody =>
    obtain ⟨first, hfirst⟩ := hpackage.preamble
    obtain ⟨second, hsecond⟩ := himports.preamble
    have hmembers : members .ordinaryBody (ps ++ (is ++ body)) =
        first ++ (second ++ members .ordinaryBody body) := by
      rw [hfirst.members_append, hsecond.members_append]
    have hnone : ∀ member ∈ members .ordinaryBody body,
        readPackage? member = none ∧ readImport? member = none :=
      fun member hmember => (hbody.seen _ member hmember).names_nothing
    have hpackages : (members .ordinaryBody (ps ++ (is ++ body))).filterMap readPackage? =
        package.toList := by
      have hrest := List.filterMap_eq_nil_iff.mpr fun member hmember => (hnone member hmember).1
      rw [hmembers, List.filterMap_append, List.filterMap_append, hfirst.package, hsecond.package,
        hrest]
      exact List.append_nil _
    have himported : (members .ordinaryBody (ps ++ (is ++ body))).filterMap readImport? =
        imports := by
      have hrest := List.filterMap_eq_nil_iff.mpr fun member hmember => (hnone member hmember).2
      rw [hmembers, List.filterMap_append, List.filterMap_append, hfirst.imports, hsecond.imports,
        hrest]
      exact List.append_nil _
    have htypes : readTypes ((tokensOf (ps ++ (is ++ body))).length + 1) .ordinaryBody
        (ps ++ (is ++ body)) = types := by
      have hlength : (tokensOf body).length ≤ (tokensOf (ps ++ (is ++ body))).length := by
        simp only [tokensOf_append, List.length_append]
        omega
      rw [readTypes_succ, hmembers, List.filterMap_append, List.filterMap_append, hfirst.types,
        hsecond.types]
      exact hbody.filterMap_typeOf .ordinaryBody hlength
        fun kind us fields types h hshort => h.readTypes_eq kind hshort
    rw [hpackages, himported, htypes]
    cases package <;> rfl

end TypeWeave.Java
