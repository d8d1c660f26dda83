import TypeWeave.Proofs.PlainWords
import TypeWeave.Proofs.SpelledMembers

/-!
# Reading spelled bodies

The readers of a body give back the fields and the types that its trees spell
(`SpellsBody.flatMap_readFields`, `SpellsBody.readTypes_eq`). A body is cut into members first,
which are seen with their annotations gathered (`SeenFields`, `SeenDeclaration`); each is then read
for what it declares.
-/

namespace TypeWeave.Java

open Java.Tree

-- ---------------------------------------------------------------------------
-- Members
-- ---------------------------------------------------------------------------

/-- A field declaration with its annotations gathered. -/
inductive SeenFields : List Tree → List WrittenField → Prop
  | intro {gs words ts base us visibility fields} : SeenModifiers gs words →
      words.filter isAccessWord = accessWords visibility → SpellsType ts base →
      SpellsDeclarators base visibility us fields → SeenFields (gs ++ (ts ++ us)) fields

/-- The words in front of a block, with the `@` of an annotation type gathered. -/
inductive SeenHead : List Tree → String → HeadKind → Prop
  | plain {ts name head} : SpellsHead ts name head → (∀ t ∈ ts, t.Inner) → SeenHead ts name head
  | gathered {gap gap' name} : IsIdentifier name →
      SeenHead [.annotationTree [.mark gap "@", .word "" "interface"], .word gap' name] name
        .annotationHead

inductive SeenDeclaration : List Tree → String → HeadKind → List Tree → Prop
  | intro {gs words hs name head gap inner last} : SeenModifiers gs words → SeenHead hs name head →
      SeenDeclaration (gs ++ (hs ++ [.curly gap inner last])) name head inner

section
variable {kind : BodyKind} {ts us rest : List Tree} {name : String} {head : HeadKind}

theorem cutMembers_append (h : ∀ t ∈ ts, t.isLeaf ";" = false ∧ t.isGroup "\x7b" = false)
    (member : List Tree) :
    cutMembers kind member (ts ++ rest) = cutMembers kind (ts.reverse ++ member) rest := by
  induction ts generalizing member with
  | nil => rfl
  | cons t ts ih =>
    obtain ⟨ht, hts⟩ := List.forall_mem_cons.mp h
    rw [List.cons_append, cutMembers, if_neg (by simp [ht.1]), if_neg (by simp [ht.2]), ih hts]
    simp

/-- A member up to its semicolon. -/
theorem members_semicolon {gap : String}
    (hgather : gatherAnnotations us = ts ++ mark gap ";" :: gatherAnnotations rest)
    (h : ∀ t ∈ ts, t.isLeaf ";" = false ∧ t.isGroup "\x7b" = false) :
    members kind us = ts :: members kind rest := by
  rw [members, hgather, cutMembers_append h, List.append_nil, cutMembers,
    if_pos (by simp [isLeaf]), List.reverse_reverse]
  rfl

theorem isOpen_eq_false {gs hs : List Tree} (hgs : ∀ t ∈ gs, t.isLeaf "=" = false)
    (hgroup : ∀ t ∈ gs, t.isGroup "(" = false) (hhs : ∀ t ∈ hs, t.Inner) :
    isOpen kind (gs ++ hs).reverse = false := by
  have hvalue : (gs ++ hs).reverse.any (·.isLeaf "=") = false := by
    rw [List.any_reverse, List.any_eq_false]
    intro t ht
    rcases List.mem_append.mp ht with ht | ht
    · simp [hgs t ht]
    · simp [(hhs t ht).isLeaf "=" (by decide)]
  -- A default value would have to follow its element, but `default` can only be a modifier here.
  have hdefault : ((gs ++ hs).reverse.dropWhile fun t => !t.isLeaf "default").any
      (·.isGroup "(") = false := by
    have hpass : ∀ t ∈ hs.reverse, (!t.isLeaf "default") = true := by
      intro t ht
      simp [(hhs t (List.mem_reverse.mp ht)).isLeaf "default" (by decide)]
    rw [List.reverse_append, List.dropWhile_append_of_pos hpass, List.any_eq_false]
    intro t ht
    have hmem := List.mem_reverse.mp (List.dropWhile_sublist _ |>.mem ht)
    simp [hgroup t hmem]
  rw [isOpen, hvalue, hdefault, Bool.and_false, Bool.or_false]

/-- A member up to its block. -/
theorem members_block {gs hs inner : List Tree} {words : List String} {gap last : String}
    (hgather : gatherAnnotations us =
      gs ++ (hs ++ curly gap inner last :: gatherAnnotations rest))
    (hgs : SeenModifiers gs words) (hhs : ∀ t ∈ hs, t.Inner) :
    members kind us = (gs ++ (hs ++ [curly gap inner last])) :: members kind rest := by
  have hpass : ∀ t ∈ gs ++ hs, t.isLeaf ";" = false ∧ t.isGroup "\x7b" = false :=
    List.forall_mem_append.mpr
      ⟨fun t ht => ⟨hgs.isLeaf (by decide) t ht, hgs.isGroup _ t ht⟩,
        fun t ht => ⟨(hhs t ht).isLeaf _ (by decide), (hhs t ht).isGroup⟩⟩
  have hclosed : isOpen kind (gs ++ hs).reverse = false :=
    isOpen_eq_false (hgs.isLeaf (by decide)) (hgs.isGroup _) hhs
  rw [members, hgather, ← List.append_assoc, cutMembers_append hpass, List.append_nil, cutMembers,
    hclosed, if_neg (by simp [isLeaf]), if_pos (by simp [isGroup])]
  simp [members]

theorem members_nil : members kind [] = [] := by
  simp [members, gatherAnnotations_nil, cutMembers]

theorem SpellsFields.members_append {fields : List WrittenField} {gap : String}
    (h : SpellsFields us fields) (kind : BodyKind) (rest : List Tree) :
    ∃ member, SeenFields member fields ∧
      members kind (us ++ mark gap ";" :: rest) = member :: members kind rest := by
  cases h with
  | @intro ms words ts base us visibility fields hms haccess htype hnames =>
    obtain ⟨gs, hgs, hgather⟩ := hms.seen
    have hinterior := List.forall_mem_append.mpr ⟨htype.interior, hnames.interior⟩
    have hapart : Apart (ts ++ us ++ mark gap ";" :: rest) := by
      obtain ⟨gap, text, ts, rfl, htext⟩ := htype.starts
      exact apart_word (htext.ne (by decide) (by decide)) _
    refine ⟨gs ++ (ts ++ us), .intro hgs haccess htype hnames,
      @members_semicolon kind _ _ rest gap ?_ ?_⟩
    · rw [List.append_assoc, hgather _ hapart,
        gatherAnnotations_append fun t ht => (hinterior t ht).isLeaf "@" (by decide),
        gatherAnnotations_cons (by simp [isLeaf]), ← List.append_assoc]
    · exact List.forall_mem_append.mpr
        ⟨fun t ht => ⟨hgs.isLeaf (by decide) t ht, hgs.isGroup _ t ht⟩,
          fun t ht => ⟨(hinterior t ht).isLeaf _ (by decide), (hinterior t ht).isGroup⟩⟩

theorem SpellsHead.apart (h : SpellsHead ts name head) (rest : List Tree) : Apart (ts ++ rest) := by
  cases h with
  | classHead | enumHead | interfaceHead | recordHead => exact apart_word (by decide) _
  | annotationHead =>
    intro t ht
    cases ht
    exact ⟨rfl, rfl⟩

theorem SeenHead.inner (h : SeenHead ts name head) : ∀ t ∈ ts, t.Inner := by
  cases h with
  | plain _ h => exact h
  | gathered h =>
    exact List.forall_mem_cons.mpr
      ⟨⟨fun _ _ => rfl, rfl⟩, List.forall_mem_singleton.mpr (h.interior _).toInner⟩

theorem SpellsHead.seen (h : SpellsHead ts name head) : ∃ hs, SeenHead hs name head ∧
    ∀ gap inner last rest, gatherAnnotations (ts ++ curly gap inner last :: rest) =
      hs ++ curly gap inner last :: gatherAnnotations rest := by
  have hplain (hinner : ∀ t ∈ ts, t.Inner) : ∃ hs, SeenHead hs name head ∧
      ∀ gap inner last rest, gatherAnnotations (ts ++ curly gap inner last :: rest) =
        hs ++ curly gap inner last :: gatherAnnotations rest := by
    refine ⟨ts, .plain h hinner, fun gap inner last rest => ?_⟩
    rw [gatherAnnotations_append fun t ht => (hinner t ht).isLeaf "@" (by decide),
      gatherAnnotations_cons rfl]
  have hwords {gap gap' keyword name : String} (hkeyword : keyword ∉ edges)
      (hname : IsIdentifier name) {more : List Tree} (hmore : ∀ t ∈ more, t.Inner) :
      ∀ t ∈ word gap keyword :: word gap' name :: more, t.Inner :=
    List.forall_mem_cons.mpr ⟨inner_leaf hkeyword,
      List.forall_mem_cons.mpr ⟨(hname.interior _).toInner, hmore⟩⟩
  cases h with
  | classHead hname h =>
    exact hplain (hwords (by decide) hname fun t ht => (h.interior t ht).toInner)
  | enumHead hname | interfaceHead hname =>
    exact hplain (hwords (by decide) hname (List.forall_mem_nil _))
  | recordHead hname =>
    exact hplain (hwords (by decide) hname
      (List.forall_mem_singleton.mpr ⟨fun _ _ => rfl, rfl⟩))
  | @annotationHead gap gap' name hname =>
    refine ⟨[.annotationTree [mark gap "@", word "" "interface"], word gap' name],
      .gathered hname, fun _ _ _ _ => ?_⟩
    simp [gatherAnnotations, gatherFrom, annotationBefore, isGroup]

theorem members_declaration {ms inner : List Tree} {words : List String}
    (hms : SpellsModifiers ms words) (hhead : SpellsHead ts name head) (gap last : String)
    (kind : BodyKind) (rest : List Tree) :
    ∃ member, SeenDeclaration member name head inner ∧
      members kind (ms ++ (ts ++ [curly gap inner last]) ++ rest) =
        member :: members kind rest := by
  obtain ⟨gs, hgs, hmodifiers⟩ := hms.seen
  obtain ⟨hs, hhs, hwords⟩ := hhead.seen
  refine ⟨gs ++ (hs ++ [curly gap inner last]), .intro hgs hhs, members_block ?_ hgs hhs.inner⟩
  rw [List.append_assoc, List.append_assoc, List.singleton_append,
    hmodifiers _ (hhead.apart _), hwords]

-- ---------------------------------------------------------------------------
-- What members declare
-- ---------------------------------------------------------------------------

theorem headerOf?_eq_none {keyword : String} {body : List Tree}
    (h : keyword ∉ ["class", "interface", "enum", "record"]) :
    headerOf? kind keyword name rest body = none := by
  unfold headerOf?
  split <;> simp at h ⊢

theorem readHeader?_word {member : List Tree} {words : List String} {gap text : String}
    (hcut : cutModifiers member = (words, word gap text :: rest))
    (h : text ∉ ["class", "interface", "enum", "record"]) : readHeader? kind member = none := by
  simp only [readHeader?, hcut, annotationKeyword?, word?, if_true]
  cases rest with
  | nil => rfl
  | cons second rest =>
    cases hsecond : second.word? <;> simp [headerOf?_eq_none h]

theorem SeenFields.readFields_eq {fields : List WrittenField} (h : SeenFields ts fields) :
    readFields ts = fields := by
  cases h with
  | intro hgs haccess htype hnames => exact readFields_seen hgs haccess htype hnames

theorem SeenFields.readHeader?_eq_none {fields : List WrittenField} (h : SeenFields ts fields) :
    readHeader? kind ts = none := by
  cases h with
  | intro hgs _ htype hnames =>
    have hcut := hgs.cutModifiers_append (cutModifiers_type htype hnames.interior)
    have hkeywords : ∀ keyword ∈ ["class", "interface", "enum", "record"],
        keyword ∉ valueTypes ∧ keyword ∈ keywords := by decide
    obtain ⟨gap, text, us, rfl, htext⟩ := htype.starts
    refine readHeader?_word hcut fun hmem => ?_
    exact htext.ne (hkeywords text hmem).1 (.inl (hkeywords text hmem).2) rfl

theorem annotationKeyword?_interface (gap : String) :
    annotationKeyword? (.annotationTree [mark gap "@", word "" "interface"]) = some "" := rfl

theorem SeenHead.cutModifiers_append (h : SeenHead ts name head) :
    cutModifiers (ts ++ rest) = ([], ts ++ rest) := by
  cases h with
  | plain h hinner =>
    cases h with
    | classHead | enumHead | interfaceHead | recordHead =>
      exact cutModifiers_word (by decide) (by simp)
    | annotationHead =>
      exact absurd (hinner _ List.mem_cons_self) (not_inner_at _)
  | gathered =>
    rw [List.cons_append, cutModifiers]
    simp only [modifier?, word?, Option.filter_none, annotationKeyword?_interface,
      Option.isNone_some, Bool.and_false, Bool.false_eq_true, if_false]
    split
    · next heq => cases heq
    · rfl

def HeadKind.header (name : String) (inner : List Tree) : HeadKind → Header
  | classHead superclass =>
    ⟨name, .classType superclass ((members .ordinaryBody inner).flatMap readFields), inner⟩
  | enumHead => ⟨name, .enumType (readConstants inner), (cutSemicolon inner).2⟩
  | interfaceHead => ⟨name, .interfaceType, inner⟩
  | annotationHead => ⟨name, .annotationType, inner⟩
  | recordHead => ⟨name, .recordType, inner⟩

theorem SpellsSuperclass.superclass?_append {superclass : Option TypeExpr}
    (h : SpellsSuperclass ts superclass) (gap last : String) (inner : List Tree) :
    superclass? (ts ++ [curly gap inner last]) = superclass := by
  cases h with
  | none => simp [superclass?, afterTypeParameters, isLeaf]
  | some h =>
    have hparse := @SpellsType.parse?_append _ [curly gap inner last] _ h
      (TypeExpr.ends_group _ _ _ _)
    simp [superclass?, afterTypeParameters, isLeaf, hparse, TypeExpr.withDimensions,
      TypeExpr.dimensions, isDimension, isAnnotationTree, TypeExpr.nestArray]

theorem bodyOf_append (gap last : String) (inner : List Tree) :
    bodyOf (ts ++ [curly gap inner last]) = inner := by
  simp [bodyOf]

theorem readHeader?_keyword {member : List Tree} {words : List String}
    {gap keyword gap' name : String}
    (hcut : cutModifiers member = (words, word gap keyword :: word gap' name :: rest)) :
    readHeader? kind member = headerOf? kind keyword name rest (bodyOf member) := by
  simp only [readHeader?, hcut, annotationKeyword?, word?, if_true, Option.bind_some]

theorem SeenDeclaration.readHeader?_eq {inner : List Tree}
    (h : SeenDeclaration ts name head inner) :
    readHeader? kind ts = some (head.header name inner) := by
  cases h with
  | @intro gs words hs name head gap inner last hgs hhead =>
    have hcut : cutModifiers (gs ++ (hs ++ [curly gap inner last])) =
        (words, hs ++ [curly gap inner last]) :=
      hgs.cutModifiers_append hhead.cutModifiers_append
    have hbody : bodyOf (gs ++ (hs ++ [curly gap inner last])) = inner := by
      rw [← List.append_assoc, bodyOf_append]
    cases hhead with
    | plain h hinner =>
      cases h with
      | @classHead _ _ _ ts superclass _ h =>
        have hsuper : superclass? (ts ++ [curly gap inner last]) = superclass :=
          h.superclass?_append gap last inner
        rw [List.cons_append, List.cons_append] at hcut hbody ⊢
        rw [readHeader?_keyword hcut, hbody]
        simp only [headerOf?, hsuper, HeadKind.header]
      | enumHead | interfaceHead =>
        rw [readHeader?_keyword hcut, hbody]
        rfl
      | recordHead =>
        rw [readHeader?_keyword hcut, hbody]
        simp [headerOf?, declaresRecord, isGroup, isLeaf, HeadKind.header]
      | annotationHead =>
        exact absurd (hinner _ List.mem_cons_self) (not_inner_at _)
    | gathered =>
      rw [readHeader?, hcut, hbody]
      rfl

/-- A word in front of a name is read as a type, whatever it is. -/
theorem parse?_word {gap text : String} {token : Token} (htext : text ∉ TypeExpr.primitives)
    (hends : TypeExpr.Ends (leaf token :: rest)) :
    TypeExpr.parse? (word gap text :: leaf token :: rest) =
      some (.named [text] [], leaf token :: rest) := by
  simp [TypeExpr.parse?, TypeExpr.fuelFor, TypeExpr.read, isAnnotationTree, htext,
    TypeExpr.readSegments_of_ends hends, TypeExpr.withDimensions_leaf]

/-- No field is declared by a name that something else than a bracket or a value follows. -/
theorem readFields_eq_nil {member : List Tree} {words : List String} {gap keyword gap' : String}
    {t : Tree}
    (hcut : cutModifiers member = (words, word gap keyword :: word gap' name :: t :: rest))
    (hkeyword : keyword ∉ TypeExpr.primitives) (hname : IsIdentifier name)
    (hcomma : t.isLeaf "," = false) (ht : readAfterDeclared t = []) : readFields member = [] := by
  have hentries : entries? .declarator (word gap' name :: t :: rest) = none := by
    have hstuck : Expected.declared.readings t rest = [] := ht
    rw [entries?, follow_declared hname, Course.follow_stuck hcomma hstuck]
  simp only [readFields, hcut, parse?_word hkeyword (hname.ends gap' _), hentries]

theorem SeenDeclaration.readFields_eq_nil {inner : List Tree}
    (h : SeenDeclaration ts name head inner) : readFields ts = [] := by
  cases h with
  | @intro gs words hs name head gap inner last hgs hhead =>
    have hcut : cutModifiers (gs ++ (hs ++ [curly gap inner last])) =
        (words, hs ++ [curly gap inner last]) :=
      hgs.cutModifiers_append hhead.cutModifiers_append
    have hblock : readAfterDeclared (curly gap inner last) = [] := by
      simp [readAfterDeclared, isDimension, isAnnotationTree, isLeaf]
    cases hhead with
    | plain h hinner =>
      cases h with
      | classHead hname h =>
        cases h with
        | none => exact Java.readFields_eq_nil hcut (by decide) hname rfl hblock
        | some =>
          refine Java.readFields_eq_nil hcut (by decide) hname (by simp [isLeaf]) ?_
          simp [readAfterDeclared, isDimension, isAnnotationTree, isLeaf]
      | enumHead hname | interfaceHead hname =>
        exact Java.readFields_eq_nil hcut (by decide) hname rfl hblock
      | recordHead hname =>
        refine Java.readFields_eq_nil hcut (by decide) hname rfl ?_
        simp [readAfterDeclared, isDimension, isAnnotationTree, isLeaf]
      | annotationHead =>
        exact absurd (hinner _ List.mem_cons_self) (not_inner_at _)
    | @gathered at' gap' name hname =>
      -- The name itself is read as a type here, and nothing follows that could be a name.
      have hparse : TypeExpr.parse? [.annotationTree [mark at' "@", word "" "interface"],
          word gap' name, curly gap inner last] =
          some (TypeExpr.withDimensions (.named [name] []) [curly gap inner last]) := by
        have htype : SpellsType [word gap' name] (.named [name] []) := .named (.last hname)
        rw [TypeExpr.parse?, TypeExpr.read_annotationTree]
        exact htype.read_append (TypeExpr.ends_group _ _ _ _) (by simp [TypeExpr.fuelFor])
      have hentries : entries? .declarator
          (TypeExpr.withDimensions (.named [name] []) [curly gap inner last]).2 = none :=
        Course.follow_stuck rfl rfl
      rw [readFields, hcut]
      simp only [List.cons_append, List.nil_append, hparse, hentries]

theorem readPackage?_eq_none (h : ∀ t ∈ ts, t.isLeaf "package" = false) :
    readPackage? ts = none := by
  unfold readPackage?
  split
  · next keyword name heq =>
    have hmem : keyword ∈ ts := by
      have hkept : keyword ∈ dropAnnotations ts := heq ▸ List.mem_cons_self
      exact List.mem_of_mem_filter hkept
    simp [h keyword hmem]
  · rfl

theorem readImport?_eq_none (h : ∀ t ∈ ts, t.isLeaf "import" = false) : readImport? ts = none := by
  unfold readImport?
  split
  · simp [h _ List.mem_cons_self]
  · rfl

/-- The keywords that only members of a unit start with. -/
theorem unitKeywords_apart : ∀ text ∈ ["package", "import"],
    text ∉ modifierTokens ∧ text ∈ edges := by decide

theorem SeenFields.isLeaf_eq_false {fields : List WrittenField} (h : SeenFields ts fields)
    {text : String} (htext : text ∈ ["package", "import"]) : ∀ t ∈ ts, t.isLeaf text = false := by
  obtain ⟨hmodifier, hedge⟩ := unitKeywords_apart text htext
  cases h with
  | intro hgs _ htype hnames =>
    have hinterior := List.forall_mem_append.mpr ⟨htype.interior, hnames.interior⟩
    exact List.forall_mem_append.mpr
      ⟨hgs.isLeaf hmodifier, fun t ht => (hinterior t ht).isLeaf text hedge⟩

theorem SeenDeclaration.isLeaf_eq_false {inner : List Tree}
    (h : SeenDeclaration ts name head inner) {text : String}
    (htext : text ∈ ["package", "import"]) : ∀ t ∈ ts, t.isLeaf text = false := by
  obtain ⟨hmodifier, hedge⟩ := unitKeywords_apart text htext
  cases h with
  | intro hgs hhead =>
    exact List.forall_mem_append.mpr ⟨hgs.isLeaf hmodifier, List.forall_mem_append.mpr
      ⟨fun t ht => (hhead.inner t ht).isLeaf text hedge, List.forall_mem_singleton.mpr rfl⟩⟩

-- ---------------------------------------------------------------------------
-- Bodies
-- ---------------------------------------------------------------------------

theorem members_cons_semicolon (kind : BodyKind) (gap : String) (rest : List Tree) :
    members kind (mark gap ";" :: rest) = [] :: members kind rest := by
  exact @members_semicolon kind [] _ rest gap (gatherAnnotations_cons (by simp [isLeaf]))
    (List.forall_mem_nil _)

inductive SeenMember : List Tree → Prop
  | empty : SeenMember []
  | fields {ts fields} : SeenFields ts fields → SeenMember ts
  | type {ts name head inner} : SeenDeclaration ts name head inner → SeenMember ts

/-- Induction over the members of a body. -/
@[elab_as_elim]
theorem SpellsBody.members_induction
    {motive : ∀ ts fields nested, SpellsBody ts fields nested → Prop}
    (nil : motive [] [] [] .nil)
    (semicolon : ∀ {gap ts fields nested} (h : SpellsBody ts fields nested),
      motive ts fields nested h → motive (.mark gap ";" :: ts) fields nested (.semicolon h))
    (fields : ∀ {us declared gap ts fields nested} (hus : SpellsFields us declared)
      (h : SpellsBody ts fields nested), motive ts fields nested h →
        motive (us ++ .mark gap ";" :: ts) (declared ++ fields) nested (.fields hus h))
    (type : ∀ {us declared ts fields nested} (hus : SpellsDeclaration us declared)
      (h : SpellsBody ts fields nested), motive ts fields nested h →
        motive (us ++ ts) fields (declared :: nested) (.type hus h))
    {ts : List Tree} {declared : List WrittenField} {nested : List WrittenType}
    (h : SpellsBody ts declared nested) : motive ts declared nested h := by
  -- Nothing is said of the declarations and blocks that the members are made of.
  refine @SpellsBody.rec (fun _ _ _ => True) (fun _ _ _ _ _ => True) motive ?_ ?_ ?_ ?_ ?_ ?_ ?_
    nil semicolon fields (fun hus h _ => type hus h) ts declared nested h
  all_goals
    intros
    trivial

theorem SpellsBody.seen {ts : List Tree} {fields : List WrittenField} {nested : List WrittenType}
    (h : SpellsBody ts fields nested) (kind : BodyKind) :
    ∀ member ∈ members kind ts, SeenMember member := by
  induction h using SpellsBody.members_induction with
  | nil =>
    rw [members_nil]
    exact List.forall_mem_nil _
  | semicolon _ ih =>
    rw [members_cons_semicolon]
    exact List.forall_mem_cons.mpr ⟨.empty, ih⟩
  | fields hus _ ih =>
    obtain ⟨member, hmember, heq⟩ := hus.members_append kind _
    rw [heq]
    exact List.forall_mem_cons.mpr ⟨.fields hmember, ih⟩
  | type hus _ ih =>
    cases hus with
    | intro hms hhead _ =>
      obtain ⟨member, hmember, heq⟩ := members_declaration hms hhead _ _ kind _
      rw [heq]
      exact List.forall_mem_cons.mpr ⟨.type hmember, ih⟩

theorem SpellsBody.flatMap_readFields {ts : List Tree} {fields : List WrittenField}
    {nested : List WrittenType} (h : SpellsBody ts fields nested) (kind : BodyKind) :
    (members kind ts).flatMap readFields = fields := by
  induction h using SpellsBody.members_induction with
  | nil =>
    rw [members_nil]
    rfl
  | semicolon _ ih =>
    have hnil : readFields [] = [] := by simp [readFields, cutModifiers, TypeExpr.parse?,
      TypeExpr.fuelFor, TypeExpr.read]
    rw [members_cons_semicolon, List.flatMap_cons, hnil, ih]
    rfl
  | fields hus _ ih =>
    obtain ⟨member, hmember, heq⟩ := hus.members_append kind _
    rw [heq, List.flatMap_cons, hmember.readFields_eq, ih]
  | type hus _ ih =>
    cases hus with
    | intro hms hhead _ =>
      obtain ⟨member, hmember, heq⟩ := members_declaration hms hhead _ _ kind _
      rw [heq, List.flatMap_cons, hmember.readFields_eq_nil, ih]
      rfl

theorem SpellsModifiers.isLeaf_semicolon {words : List String} (h : SpellsModifiers ts words) :
    ∀ t ∈ ts, t.isLeaf ";" = false := by
  have hmarker {us : List Tree} (h : SpellsMarker us) : ∀ t ∈ us, t.isLeaf ";" = false := by
    cases h with
    | intro h =>
      exact List.forall_mem_cons.mpr ⟨by simp [isLeaf],
        fun t ht => (h.interior t ht).isLeaf ";" (by decide)⟩
  induction h with
  | nil => exact List.forall_mem_nil _
  | word hword _ ih =>
    refine List.forall_mem_cons.mpr ⟨?_, ih⟩
    have hmodifiers : ∀ word ∈ modifiers, word ≠ ";" := by decide
    simpa [isLeaf] using hmodifiers _ hword
  | nonSealed _ ih => simpa [isLeaf] using ih
  | marker h _ ih => exact List.forall_mem_append.mpr ⟨hmarker h, ih⟩
  | arguments h _ _ ih =>
    exact List.forall_mem_append.mpr ⟨hmarker h, List.forall_mem_cons.mpr ⟨rfl, ih⟩⟩

theorem SpellsConstants.isLeaf_semicolon {constants : List EnumConstant}
    (h : SpellsConstants ts constants) : ∀ t ∈ ts, t.isLeaf ";" = false := by
  have hconstant {us : List Tree} {constant : EnumConstant} (h : SpellsConstant us constant) :
      ∀ t ∈ us, t.isLeaf ";" = false := by
    cases h with
    | plain hms h =>
      exact List.forall_mem_append.mpr
        ⟨hms.isLeaf_semicolon, List.forall_mem_singleton.mpr (h.isLeaf _ (by decide))⟩
    | noArguments hms h | arguments hms h =>
      exact List.forall_mem_append.mpr ⟨hms.isLeaf_semicolon,
        List.forall_mem_cons.mpr ⟨h.isLeaf _ (by decide), List.forall_mem_singleton.mpr rfl⟩⟩
  induction h with
  | nil => exact List.forall_mem_nil _
  | last h => exact hconstant h
  | cons h _ ih =>
    exact List.forall_mem_append.mpr
      ⟨hconstant h, List.forall_mem_cons.mpr ⟨by simp [isLeaf], ih⟩⟩

theorem SpellsConstants.cutSemicolon_eq {constants : List EnumConstant}
    (h : SpellsConstants ts constants) : cutSemicolon ts = (ts, []) := by
  have hkept : ∀ t ∈ ts, (!t.isLeaf ";") = true := fun t ht => by simp [h.isLeaf_semicolon t ht]
  rw [cutSemicolon, List.takeWhile_eq_self_iff.mpr hkept, List.dropWhile_eq_nil_iff.mpr hkept]
  rfl

theorem SpellsConstants.cutSemicolon_append {constants : List EnumConstant}
    (h : SpellsConstants ts constants) (gap : String) :
    cutSemicolon (ts ++ mark gap ";" :: rest) = (ts, rest) := by
  have hkept : ∀ t ∈ ts, (!t.isLeaf ";") = true := fun t ht => by simp [h.isLeaf_semicolon t ht]
  rw [cutSemicolon, List.takeWhile_append_of_pos hkept, List.dropWhile_append_of_pos hkept]
  simp [isLeaf]

/-- A block is read as it was spelled, up to the types in it. -/
theorem SpellsBlock.header {inner : List Tree} {kind : WrittenKind} {nested : List WrittenType}
    (h : SpellsBlock head inner kind nested) (name : String) :
    (head.header name inner).kind = kind ∧ ∃ fields,
      SpellsBody (head.header name inner).body fields nested ∧
        (tokensOf (head.header name inner).body).length ≤ (tokensOf inner).length := by
  cases h with
  | classBlock h =>
    refine ⟨?_, _, h, Nat.le_refl _⟩
    simp only [HeadKind.header, h.flatMap_readFields]
  | constants h =>
    have hbody : (HeadKind.enumHead.header name inner).body = [] := by
      simp only [HeadKind.header, h.cutSemicolon_eq]
    refine ⟨?_, [], ?_, ?_⟩
    · simp only [HeadKind.header, readConstants, h.cutSemicolon_eq, h.filterMap_readConstant?]
    · rw [hbody]
      exact .nil
    · rw [hbody]
      exact Nat.zero_le _
  | @enumBlock cs constants gap ts fields nested hconstants h =>
    have hcut : cutSemicolon (cs ++ mark gap ";" :: ts) = (cs, ts) :=
      hconstants.cutSemicolon_append gap
    have hbody : (HeadKind.enumHead.header name (cs ++ mark gap ";" :: ts)).body = ts := by
      simp only [HeadKind.header, hcut]
    refine ⟨?_, fields, ?_, ?_⟩
    · simp only [HeadKind.header, readConstants, hcut, hconstants.filterMap_readConstant?]
    · rw [hbody]
      exact h
    · rw [hbody, tokensOf_append, tokensOf]
      simp only [List.length_append]
      omega
  | interfaceBlock h | annotationBlock h | recordBlock h => exact ⟨rfl, _, h, Nat.le_refl _⟩

def typeOf (depth : Nat) (kind : BodyKind) (member : List Tree) : Option WrittenType :=
  (readHeader? kind member).map fun header =>
    .mk header.name header.kind (readTypes depth header.kind.bodyKind header.body)

theorem readTypes_succ (depth : Nat) (kind : BodyKind) (ts : List Tree) :
    readTypes (depth + 1) kind ts = (members kind ts).filterMap (typeOf depth kind) := rfl

theorem typeOf_eq_none {depth : Nat} (h : readHeader? kind ts = none) :
    typeOf depth kind ts = none := by
  rw [typeOf, h, Option.map_none]

theorem HeadKind.header_name (head : HeadKind) (name : String) (inner : List Tree) :
    (head.header name inner).name = name := by
  cases head <;> rfl

/-- The types of a body are read if those in their own bodies are, which have fewer tokens. -/
theorem SpellsBody.filterMap_typeOf {ts : List Tree} {fields : List WrittenField}
    {nested : List WrittenType} {depth : Nat} (h : SpellsBody ts fields nested) (kind : BodyKind)
    (hdepth : (tokensOf ts).length ≤ depth)
    (hinner : ∀ (kind : BodyKind) (us : List Tree) (fields : List WrittenField)
      (types : List WrittenType), SpellsBody us fields types → (tokensOf us).length < depth →
        readTypes depth kind us = types) :
    (members kind ts).filterMap (typeOf depth kind) = nested := by
  induction h using SpellsBody.members_induction with
  | nil =>
    rw [members_nil]
    rfl
  | semicolon _ ih =>
    have hnone : readHeader? kind [] = none := by simp [readHeader?, cutModifiers]
    rw [members_cons_semicolon, List.filterMap_cons_none (typeOf_eq_none hnone)]
    exact ih (Nat.le_of_succ_le hdepth)
  | fields hus _ ih =>
    obtain ⟨member, hmember, heq⟩ := hus.members_append kind _
    rw [tokensOf_append, tokensOf, List.length_append, List.length_append] at hdepth
    rw [heq, List.filterMap_cons_none (typeOf_eq_none hmember.readHeader?_eq_none)]
    exact ih (by omega)
  | type hus _ ih =>
    cases hus with
    | @intro ms words hs name head gap inner last kind' nested' hms hhead hblock =>
      obtain ⟨member, hmember, heq⟩ := members_declaration hms hhead gap last kind _
      obtain ⟨hkind, _, hbody, hlength⟩ := hblock.header name
      simp only [tokensOf_append, tokensOf, tokens, List.length_append, List.length_cons,
        Option.toList_some] at hdepth
      have htype : typeOf depth kind member = some (.mk name kind' nested') := by
        rw [typeOf, hmember.readHeader?_eq, Option.map_some, HeadKind.header_name, hkind,
          hinner _ _ _ _ hbody (by omega)]
      rw [heq, List.filterMap_cons_some htype, ih (by omega)]

theorem SpellsBody.readTypes_eq {depth : Nat} {fields : List WrittenField}
    {nested : List WrittenType} (h : SpellsBody ts fields nested) (kind : BodyKind)
    (hdepth : (tokensOf ts).length < depth) : readTypes depth kind ts = nested := by
  induction depth generalizing ts fields nested kind with
  | zero => exact absurd hdepth (Nat.not_lt_zero _)
  | succ depth ih =>
    rw [readTypes_succ]
    exact h.filterMap_typeOf kind (Nat.le_of_lt_succ hdepth)
      fun kind us fields types h hlength => ih h kind hlength

end

end TypeWeave.Java
