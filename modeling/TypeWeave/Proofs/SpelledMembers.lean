import TypeWeave.Proofs.SpelledTypes

/-!
# Reading spelled fields and constants

What the readers of a body see of modifiers, field declarations and enum constants. Annotations are
gathered first, so modifiers are seen in another form than the spelled one (`SeenModifiers`); the
rest of a member stays as it is.
-/

namespace TypeWeave.Java

open Java.Tree

-- ---------------------------------------------------------------------------
-- Gathering annotations
-- ---------------------------------------------------------------------------

/-- Trees that no annotation goes on with. -/
def Apart (rest : List Tree) : Prop :=
  ∀ t ∈ rest.head?, t.isLeaf "." = false ∧ t.isGroup "(" = false

theorem apart_word {gap text : String} (h : text ≠ ".") (rest : List Tree) :
    Apart (word gap text :: rest) := by
  intro t ht
  cases ht
  exact ⟨by simpa [isLeaf] using h, rfl⟩

/-- Modifiers with their annotations gathered. -/
inductive SeenModifiers : List Tree → List String → Prop
  | nil : SeenModifiers [] []
  | word {gap word ts words} : word ∈ modifiers → SeenModifiers ts words →
      SeenModifiers (.word gap word :: ts) (word :: words)
  | nonSealed {gap ts words} : SeenModifiers ts words →
      SeenModifiers (.word gap "non" :: .mark "" "-" :: .word "" "sealed" :: ts)
        ("non-sealed" :: words)
  | gathered {parts ts words} : annotationKeyword? (.annotationTree parts) = none →
      SeenModifiers ts words → SeenModifiers (.annotationTree parts :: ts) words

section
variable {parts ts us rest : List Tree} {words : List String}

theorem gatherFrom_cons {t : Tree} (h : t.isLeaf "@" = false) :
    gatherFrom [] (t :: rest) = t :: gatherFrom [] rest := by
  match t, rest with
  | .leaf token, .leaf name :: rest =>
    have hne : (token.text == "@") = false := h
    simp [gatherFrom, annotationBefore, hne]
  | .leaf _, [] | .leaf _, .group _ _ _ :: _ | .leaf _, .annotationTree _ :: _
  | .group _ _ _, _ | .annotationTree _, _ => simp [gatherFrom, annotationBefore]

theorem gatherFrom_of_apart (h : Apart rest) :
    gatherFrom parts rest = annotationBefore parts (gatherFrom [] rest) := by
  match rest with
  | [] => simp [gatherFrom, annotationBefore]
  | .leaf token :: .leaf name :: rest =>
    have hne : (token.text == ".") = false := (h _ rfl).1
    simp only [gatherFrom, hne, Bool.and_false, Bool.false_and, Bool.false_eq_true, if_false]
    split <;> simp [annotationBefore]
  | [.leaf _] | .leaf _ :: .group _ _ _ :: _ | .leaf _ :: .annotationTree _ :: _
  | .annotationTree _ :: _ => simp [gatherFrom, annotationBefore, isGroup]
  | .group opening inner closing :: rest =>
    have hne := (h _ rfl).2
    simp [gatherFrom, annotationBefore, hne]

theorem gatherAnnotations_nil : gatherAnnotations [] = [] := by
  simp [gatherAnnotations, gatherFrom, annotationBefore]

theorem gatherAnnotations_cons {t : Tree} (h : t.isLeaf "@" = false) :
    gatherAnnotations (t :: rest) = t :: gatherAnnotations rest :=
  gatherFrom_cons h

theorem gatherAnnotations_append (h : ∀ t ∈ ts, t.isLeaf "@" = false) :
    gatherAnnotations (ts ++ rest) = ts ++ gatherAnnotations rest := by
  induction ts with
  | nil => rfl
  | cons t ts ih =>
    obtain ⟨ht, hts⟩ := List.forall_mem_cons.mp h
    rw [List.cons_append, gatherAnnotations_cons ht, ih hts, List.cons_append]

theorem gatherFrom_name {names : List String} (h : SpellsName ts names) (hparts : parts ≠ [])
    (dot : String) :
    gatherFrom parts (mark dot "." :: (ts ++ rest)) =
      gatherFrom (ts.reverse ++ mark dot "." :: parts) rest := by
  have hword {gap name : String} {parts rest : List Tree} (hparts : parts ≠ []) (dot : String) :
      gatherFrom parts (mark dot "." :: word gap name :: rest) =
        gatherFrom (word gap name :: mark dot "." :: parts) rest := by
    simp [gatherFrom, hparts]
  induction h generalizing parts dot with
  | last => exact hword hparts dot
  | cons _ _ ih =>
    rw [List.cons_append, List.cons_append, hword hparts, ih (List.cons_ne_nil _ _)]
    simp

theorem gatherFrom_marker (h : SpellsMarker us) :
    gatherFrom [] (us ++ rest) = gatherFrom us.reverse rest := by
  cases h with
  | @intro gap gap' name names ts h _ =>
    have hstart : gatherFrom [] (mark gap "@" :: word gap' name :: (ts ++ rest)) =
        gatherFrom [word gap' name, mark gap "@"] (ts ++ rest) := by
      simp [gatherFrom, annotationBefore]
    rw [List.cons_append, List.cons_append, hstart]
    cases h with
    | last => rfl
    | cons _ h =>
      rw [List.cons_append, gatherFrom_name h (List.cons_ne_nil _ _)]
      simp

-- ---------------------------------------------------------------------------
-- Modifiers
-- ---------------------------------------------------------------------------

theorem SpellsMarker.annotationKeyword?_append (h : SpellsMarker us) (more : List Tree) :
    annotationKeyword? (.annotationTree (us ++ more)) = none := by
  cases h with
  | @intro gap gap' name _ _ _ hname =>
    have hcond : (gap' == "" && "interface".toList.isPrefixOf name.toList) = false := by
      rw [← Bool.not_eq_true, Bool.and_eq_true, beq_iff_eq, List.isPrefixOf_iff_prefix]
      exact fun ⟨hgap, hprefix⟩ => hname hgap hprefix
    simp only [List.cons_append, annotationKeyword?, hcond, Bool.false_eq_true, if_false]

theorem gatherAnnotations_marker (h : SpellsMarker us) (hrest : Apart rest) :
    gatherAnnotations (us ++ rest) = .annotationTree us :: gatherAnnotations rest := by
  have hne : us ≠ [] := by
    rintro rfl
    cases h
  rw [gatherAnnotations, gatherFrom_marker h, gatherFrom_of_apart hrest]
  simp [annotationBefore, hne, gatherAnnotations]

theorem gatherAnnotations_arguments {gap last : String} {inner : List Tree}
    (h : SpellsMarker us) :
    gatherAnnotations (us ++ round gap inner last :: rest) =
      .annotationTree (us ++ [round gap inner last]) :: gatherAnnotations rest := by
  have hne : us ≠ [] := by
    rintro rfl
    cases h
  rw [gatherAnnotations, gatherFrom_marker h]
  simp [gatherFrom, isGroup, annotationBefore, hne, gatherAnnotations]

theorem SpellsModifiers.apart (h : SpellsModifiers ts words) (hrest : Apart rest) :
    Apart (ts ++ rest) := by
  have hmodifiers : ∀ word ∈ modifiers, word ≠ "." := by decide
  cases h with
  | nil => exact hrest
  | word h _ => exact apart_word (hmodifiers _ h) _
  | nonSealed => exact apart_word (by decide) _
  | marker h _ | arguments h _ _ =>
    cases h with
    | intro =>
      intro t ht
      cases ht
      exact ⟨rfl, rfl⟩

theorem SpellsModifiers.seen (h : SpellsModifiers ts words) : ∃ gs, SeenModifiers gs words ∧
    ∀ rest, Apart rest → gatherAnnotations (ts ++ rest) = gs ++ gatherAnnotations rest := by
  have hmodifiers : ∀ word ∈ modifiers, word ≠ "@" := by decide
  induction h with
  | nil => exact ⟨[], .nil, fun _ _ => rfl⟩
  | @word gap word ts words hword h ih =>
    obtain ⟨gs, hgs, hgather⟩ := ih
    refine ⟨Tree.word gap word :: gs, .word hword hgs, fun rest hrest => ?_⟩
    have hat : (Tree.word gap word).isLeaf "@" = false := by
      simpa [isLeaf] using hmodifiers word hword
    rw [List.cons_append, gatherAnnotations_cons hat, hgather rest hrest]
    rfl
  | @nonSealed gap ts words h ih =>
    obtain ⟨gs, hgs, hgather⟩ := ih
    refine ⟨Tree.word gap "non" :: Tree.mark "" "-" :: Tree.word "" "sealed" :: gs,
      .nonSealed hgs, fun rest hrest => ?_⟩
    have hat : ∀ t ∈ [Tree.word gap "non", Tree.mark "" "-", Tree.word "" "sealed"],
        t.isLeaf "@" = false := by simp [isLeaf]
    have hall := @gatherAnnotations_append _ (ts ++ rest) hat
    rw [hgather rest hrest] at hall
    exact hall
  | @marker us ts words hmarker h ih =>
    obtain ⟨gs, hgs, hgather⟩ := ih
    have hkeyword := hmarker.annotationKeyword?_append []
    rw [List.append_nil] at hkeyword
    refine ⟨_, .gathered hkeyword hgs, fun rest hrest => ?_⟩
    rw [List.append_assoc, gatherAnnotations_marker hmarker (h.apart hrest), hgather rest hrest]
    rfl
  | @arguments us ts words gap inner last hmarker _ h ih =>
    obtain ⟨gs, hgs, hgather⟩ := ih
    refine ⟨_, .gathered (hmarker.annotationKeyword?_append [round gap inner last]) hgs,
      fun rest hrest => ?_⟩
    rw [List.append_assoc, List.cons_append, gatherAnnotations_arguments hmarker,
      hgather rest hrest]
    rfl

theorem modifier?_word {gap text : String} (h : text ∉ modifiers) :
    modifier? (word gap text) = none := by
  simp [modifier?, word?, h]

/-- A word that is no modifier ends the modifiers. -/
theorem cutModifiers_word {gap text : String} (h : text ∉ modifiers)
    (hnon : text = "non" → ∀ t ∈ rest.head?, t.isLeaf "-" = false) :
    cutModifiers (word gap text :: rest) = ([], word gap text :: rest) := by
  have hnone : afterNonSealed? (word gap text :: rest) = none := by
    unfold afterNonSealed?
    split
    · next non dash last more heq =>
      cases heq
      refine if_neg fun hcond => ?_
      simp only [Bool.and_eq_true, beq_iff_eq] at hcond
      obtain ⟨⟨⟨htext, hdash⟩, -⟩, -⟩ := hcond
      have hleaf := hnon htext dash rfl
      cases dash <;> simp_all [continuesWith, isLeaf]
    · rfl
  rw [cutModifiers, modifier?_word h]
  simp only [isAnnotationTree, Bool.false_and, Bool.false_eq_true, if_false]
  split
  · next heq =>
    rw [hnone] at heq
    cases heq
  · rfl

/-- Modifiers are cut off what follows them. -/
theorem SeenModifiers.cutModifiers_append (h : SeenModifiers ts words)
    (hrest : cutModifiers rest = ([], rest)) : cutModifiers (ts ++ rest) = (words, rest) := by
  induction h with
  | nil => exact hrest
  | @word gap word ts words hword _ ih =>
    have hmodifier : modifier? (Tree.word gap word) = some word := by
      simp [modifier?, word?, hword]
    rw [List.cons_append, cutModifiers, hmodifier]
    simp only [ih]
  | @nonSealed gap ts words _ ih =>
    have hafter : afterNonSealed?
        (Tree.word gap "non" :: Tree.mark "" "-" :: Tree.word "" "sealed" :: (ts ++ rest)) =
        some (ts ++ rest) := by
      rw [afterNonSealed?, if_pos (by simp [continuesWith])]
      rfl
    rw [List.cons_append, List.cons_append, List.cons_append, cutModifiers,
      modifier?_word (by decide)]
    simp only [isAnnotationTree, Bool.false_and, Bool.false_eq_true, if_false]
    split
    · next heq =>
      rw [hafter] at heq
      cases heq
      rw [ih]
    · next heq =>
      rw [hafter] at heq
      cases heq
  | @gathered parts ts words hparts _ ih =>
    rw [List.cons_append, cutModifiers]
    simp [modifier?, word?, isAnnotationTree, hparts, ih]

def modifierTokens : List String := "non" :: "-" :: modifiers

theorem SeenModifiers.isLeaf (h : SeenModifiers ts words) {text : String}
    (htext : text ∉ modifierTokens) : ∀ t ∈ ts, t.isLeaf text = false := by
  have hne {word : String} (hword : word ∈ modifierTokens) : (word == text) = false :=
    beq_eq_false_iff_ne.mpr fun heq => htext (heq ▸ hword)
  induction h with
  | nil => exact List.forall_mem_nil _
  | word hword _ ih =>
    exact List.forall_mem_cons.mpr
      ⟨hne (List.mem_cons_of_mem _ (List.mem_cons_of_mem _ hword)), ih⟩
  | nonSealed _ ih =>
    have htokens : "non" ∈ modifierTokens ∧ "-" ∈ modifierTokens ∧ "sealed" ∈ modifierTokens := by
      decide
    exact List.forall_mem_cons.mpr ⟨hne htokens.1, List.forall_mem_cons.mpr
      ⟨hne htokens.2.1, List.forall_mem_cons.mpr ⟨hne htokens.2.2, ih⟩⟩⟩
  | gathered _ _ ih => exact List.forall_mem_cons.mpr ⟨rfl, ih⟩

theorem SeenModifiers.isGroup (h : SeenModifiers ts words) (opening : String) :
    ∀ t ∈ ts, t.isGroup opening = false := by
  induction h with
  | nil => exact List.forall_mem_nil _
  | word _ _ ih | gathered _ _ ih => exact List.forall_mem_cons.mpr ⟨rfl, ih⟩
  | nonSealed _ ih =>
    exact List.forall_mem_cons.mpr
      ⟨rfl, List.forall_mem_cons.mpr ⟨rfl, List.forall_mem_cons.mpr ⟨rfl, ih⟩⟩⟩

theorem SeenModifiers.dropAnnotations (h : SeenModifiers ts words) :
    SeenModifiers (dropAnnotations ts) words := by
  induction h with
  | nil => exact .nil
  | word hword _ ih => exact .word hword ih
  | nonSealed _ ih => exact .nonSealed ih
  | gathered _ _ ih => exact ih

theorem findSome?_accessOf?_filter (words : List String) :
    words.findSome? accessOf? = (words.filter isAccessWord).findSome? accessOf? := by
  induction words with
  | nil => rfl
  | cons word words ih =>
    by_cases h : isAccessWord word = true
    · rw [List.filter_cons_of_pos h, List.findSome?_cons, List.findSome?_cons, ih]
    · have hnone : accessOf? word = none := by
        unfold accessOf?
        split <;> simp_all [isAccessWord]
      rw [List.filter_cons_of_neg h, List.findSome?_cons, hnone, ih]

theorem visibilityOf_eq {visibility : Visibility}
    (h : words.filter isAccessWord = accessWords visibility) :
    visibilityOf words = visibility := by
  rw [visibilityOf, findSome?_accessOf?_filter, h]
  cases visibility <;> rfl

end

-- ---------------------------------------------------------------------------
-- Entries between commas
-- ---------------------------------------------------------------------------

namespace Course

variable {first : Expected} {complete : List (List Tree)} {current rest : List Tree} {found : Nat}

/-- A single course that can be extended in one way only stays single. -/
theorem follow_cons {course next : Course} {t : Tree} (h : course.extend first t rest = [next]) :
    follow first [course] (t :: rest) = follow first [next] rest := by
  simp [follow, h, add]

theorem follow_plain {expected after : Expected} {t : Tree} (hcomma : t.isLeaf "," = false)
    (h : expected.readings t rest = [.plain after]) :
    follow first [⟨complete, current, expected, 0, found⟩] (t :: rest) =
      follow first [⟨complete, t :: current, after, 0, found⟩] rest :=
  follow_cons (by simp [extend, hcomma, h, Reading.plain])

theorem follow_comma {expected : Expected} (h : expected.isEnd = true) (gap : String) :
    follow first [⟨complete, current, expected, 0, found⟩] (mark gap "," :: rest) =
      follow first [⟨current.reverse :: complete, [], first, 0, found⟩] rest :=
  follow_cons (by simp [extend, isLeaf, h])

theorem follow_end {expected : Expected} (h : expected.isEnd = true) :
    follow first [⟨complete, current, expected, 0, found⟩] [] =
      some (complete.reverse ++ [current.reverse]) := by
  simp [follow, best?, h]

theorem follow_nil (ts : List Tree) : follow first [] ts = none := by
  induction ts with
  | nil => rfl
  | cons t ts ih => simpa [follow] using ih

/-- Where nothing is read there is no list. -/
theorem follow_stuck {expected : Expected} {t : Tree} (hcomma : t.isLeaf "," = false)
    (h : expected.readings t rest = []) :
    follow first [⟨complete, current, expected, 0, found⟩] (t :: rest) = none := by
  simp [follow, extend, hcomma, h, follow_nil]

end Course

-- ---------------------------------------------------------------------------
-- Fields
-- ---------------------------------------------------------------------------

open Course

theorem dimensions_squares (brackets : List (String × String)) :
    TypeExpr.dimensions (brackets.map fun (g, l) => square g l) = (brackets.length, []) := by
  induction brackets with
  | nil => rfl
  | cons _ _ ih => simp [TypeExpr.dimensions, isDimension, ih]

theorem follow_squares {first : Expected} {complete : List (List Tree)}
    {current rest : List Tree} {found : Nat} (brackets : List (String × String)) :
    follow first [⟨complete, current, .declared, 0, found⟩]
        ((brackets.map fun (g, l) => square g l) ++ rest) =
      follow first [⟨complete, (brackets.map fun (g, l) => square g l).reverse ++ current,
        .declared, 0, found⟩] rest := by
  induction brackets generalizing current with
  | nil => rfl
  | cons bracket brackets ih =>
    rw [List.map_cons, List.cons_append, follow_plain rfl rfl, ih]
    simp

theorem follow_declared {name gap : String} (h : IsIdentifier name)
    {complete : List (List Tree)} {found : Nat} {rest : List Tree} :
    follow .declarator [⟨complete, [], .declarator, 0, found⟩] (word gap name :: rest) =
      follow .declarator [⟨complete, [word gap name], .declared, 0, found⟩] rest := by
  exact follow_plain (h.isLeaf gap (by decide)) rfl

theorem readDeclarator?_squares {base : TypeExpr} {visibility : Visibility} {gap name : String}
    (brackets : List (String × String)) :
    readDeclarator? base visibility (word gap name :: brackets.map fun (g, l) => square g l) =
      some ⟨name, base.nestArray brackets.length, visibility⟩ := by
  simp [readDeclarator?, word?, dimensions_squares]

theorem SpellsDeclarators.entries? {base : TypeExpr} {visibility : Visibility} {ts : List Tree}
    {fields : List WrittenField} (h : SpellsDeclarators base visibility ts fields) :
    ∃ list, entries? .declarator ts = some list ∧
      list.filterMap (readDeclarator? base visibility) = fields := by
  suffices hfollow : ∀ complete, ∃ list,
      follow .declarator [⟨complete, [], .declarator, 0, 0⟩] ts = some (complete.reverse ++ list) ∧
        list.filterMap (readDeclarator? base visibility) = fields from hfollow []
  induction h with
  | @last gap name brackets hname =>
    intro complete
    refine ⟨[word gap name :: brackets.map fun (g, l) => square g l], ?_, ?_⟩
    · have hsquares := @follow_squares .declarator complete [word gap name] [] 0 brackets
      rw [List.append_nil] at hsquares
      rw [follow_declared hname, hsquares, follow_end rfl]
      simp
    · simp [readDeclarator?_squares]
  | @cons gap name comma ts fields brackets hname _ ih =>
    intro complete
    obtain ⟨list, hlist, hfields⟩ :=
      ih ((word gap name :: brackets.map fun (g, l) => square g l) :: complete)
    refine ⟨(word gap name :: brackets.map fun (g, l) => square g l) :: list, ?_, ?_⟩
    · rw [List.cons_append, follow_declared hname, follow_squares, follow_comma rfl]
      simpa using hlist
    · rw [List.filterMap_cons_some (readDeclarator?_squares brackets), hfields]

theorem SpellsDeclarators.starts {base : TypeExpr} {visibility : Visibility} {ts : List Tree}
    {fields : List WrittenField} (h : SpellsDeclarators base visibility ts fields) :
    ∃ gap name us, ts = word gap name :: us ∧ IsIdentifier name := by
  cases h with
  | last h | cons h _ => exact ⟨_, _, _, rfl, h⟩

/-- The modifiers of a field end where its type starts. -/
theorem cutModifiers_type {ts rest : List Tree} {base : TypeExpr} (h : SpellsType ts base)
    (hrest : ∀ t ∈ rest, t.Interior) : cutModifiers (ts ++ rest) = ([], ts ++ rest) := by
  have hinterior := List.forall_mem_append.mpr ⟨h.interior, hrest⟩
  have hvalues : ∀ word ∈ modifiers, word ∉ valueTypes ∧ word ∈ keywords := by decide
  obtain ⟨gap, text, us, rfl, htext⟩ := h.starts
  refine cutModifiers_word (fun hmem => ?_) fun _ t ht => ?_
  · exact htext.ne (hvalues text hmem).1 (.inl (hvalues text hmem).2) rfl
  · have hmem := List.mem_of_mem_head? ht
    exact (hinterior t (List.mem_cons_of_mem _ hmem)).isLeaf "-" (by decide)

theorem readFields_seen {gs ts us : List Tree} {words : List String} {base : TypeExpr}
    {visibility : Visibility} {fields : List WrittenField} (hgs : SeenModifiers gs words)
    (haccess : words.filter isAccessWord = accessWords visibility) (htype : SpellsType ts base)
    (hnames : SpellsDeclarators base visibility us fields) :
    readFields (gs ++ (ts ++ us)) = fields := by
  have hcut := hgs.cutModifiers_append (cutModifiers_type htype hnames.interior)
  have hparse : TypeExpr.parse? (ts ++ us) = some (base, us) := by
    obtain ⟨gap, name, us, rfl, hname⟩ := hnames.starts
    rw [htype.parse?_append (hname.ends gap us), TypeExpr.withDimensions_leaf]
  obtain ⟨list, hlist, hfields⟩ := hnames.entries?
  simp only [readFields, hcut, hparse, hlist, visibilityOf_eq haccess, hfields]

-- ---------------------------------------------------------------------------
-- Enum constants
-- ---------------------------------------------------------------------------

/-- The characters that a token other than a mark starts with. -/
theorem Lexeme.head_of_ne_mark {kind : TokenKind} {text : List Char} (h : Lexeme kind text)
    (hkind : kind ≠ .mark) :
    ∃ c cs, text = c :: cs ∧ (isWordChar c = true ∨ c ∈ ['.', '"', '\'']) := by
  have hdigit {c : Char} (hc : c.isDigit = true) : isWordChar c = true := by
    simp [isWordChar, hc]
  cases h with
  | word hc => exact ⟨_, _, rfl, .inl (by simp [isWordChar, hc])⟩
  | integer h =>
    obtain ⟨c, cs, rfl, hc⟩ := exists_start_of_integer h
    exact ⟨c, cs, rfl, .inl (hdigit hc)⟩
  | float h =>
    obtain ⟨c, cs, rfl, hc | ⟨rfl, -⟩⟩ := exists_start_of_float h
    · exact ⟨c, cs, rfl, .inl (hdigit hc)⟩
    · exact ⟨_, cs, rfl, .inr (by decide)⟩
  | char | string | textBlock => exact ⟨_, _, rfl, .inr (by decide)⟩
  | operator | mark => exact absurd rfl hkind

theorem SpellsLiteral.isLeaf {token : Token} {literal : Argument} (h : SpellsLiteral token literal)
    {text : String} (htext : text ∈ ["@", ","]) : (leaf token).isLeaf text = false := by
  have hstart {kind : TokenKind} {own : String} (hlexeme : Lexeme kind own.toList)
      (hkind : kind ≠ .mark) : (own == text) = false := by
    rw [beq_eq_false_iff_ne]
    rintro rfl
    obtain ⟨c, cs, hown, hc⟩ := hlexeme.head_of_ne_mark hkind
    have hmarks : ∀ text ∈ ["@", ","], ∀ c ∈ text.toList.head?,
        ¬(isWordChar c = true ∨ c ∈ ['.', '"', '\'']) := by decide
    exact hmarks own htext c (by rw [hown]; rfl) hc
  have hwords : ∀ text ∈ ["@", ","], ∀ word ∈ ["true", "false", "null"],
      (word == text) = false := by decide
  cases h with
  | integer h | float h | char h | string h => exact hstart h (by decide)
  | boolean h =>
    refine hwords text htext _ ?_
    simp only [List.mem_cons, List.not_mem_nil, or_false] at h ⊢
    rcases h with h | h <;> simp [h]
  | null => exact hwords text htext "null" (by decide)

/-- A literal is an operand of its own, unless something goes on with it. -/
theorem SpellsLiteral.readings {token : Token} {literal : Argument} {rest : List Tree}
    (h : SpellsLiteral token literal)
    (hrest : ∀ t ∈ rest.head?, TypeExpr.extendsType t = false) :
    Expected.operand.readings (leaf token) rest = [.plain .primary] := by
  have hword {gap text : String} (hnew : text ≠ "new") :
      Expected.operand.readings (word gap text) rest = [.plain .primary] := by
    have hhead : rest.head?.any TypeExpr.extendsType = false := by
      cases rest with
      | nil => rfl
      | cons t rest => exact hrest t rfl
    have hafter : TypeExpr.afterHead? (word gap text :: rest) = none := by
      rw [TypeExpr.afterHead?, List.drop_one, List.tail_cons, hhead]
      rfl
    simp [Expected.readings, readOperand, hnew, readWord, hafter]
  cases h with
  | integer | float | char | string => rfl
  | boolean h =>
    refine hword ?_
    rintro rfl
    revert h
    decide
  | null => exact hword (by decide)

theorem SpellsLiteral.readArgument {token : Token} {literal : Argument}
    (h : SpellsLiteral token literal) : readArgument [leaf token] = literal := by
  cases h with
  | integer | float | char | string | null => rfl
  | boolean h =>
    simp only [List.mem_cons, List.not_mem_nil, or_false] at h
    rcases h with rfl | rfl <;> rfl

theorem SpellsLiterals.entries? {ts : List Tree} {literals : List Argument}
    (h : SpellsLiterals ts literals) :
    ∃ list, entries? .operand ts = some list ∧ list.map readArgument = literals := by
  suffices hfollow : ∀ complete, ∃ list,
      follow .operand [⟨complete, [], .operand, 0, 0⟩] ts = some (complete.reverse ++ list) ∧
        list.map readArgument = literals from hfollow []
  induction h with
  | @last token literal h =>
    intro complete
    refine ⟨[[leaf token]], ?_, by simp [h.readArgument]⟩
    rw [follow_plain (h.isLeaf (by decide)) (h.readings (by simp)), follow_end rfl]
    rfl
  | @cons token literal comma ts literals h _ ih =>
    intro complete
    obtain ⟨list, hlist, hliterals⟩ := ih ([leaf token] :: complete)
    refine ⟨[leaf token] :: list, ?_, by simp [h.readArgument, hliterals]⟩
    have hcomma : ∀ t ∈ (mark comma "," :: ts).head?, TypeExpr.extendsType t = false := by
      intro t ht
      cases ht
      simp [TypeExpr.extendsType, isLeaf, isDimension, isAnnotationTree]
    rw [follow_plain (h.isLeaf (by decide)) (h.readings hcomma), follow_comma rfl]
    simpa using hlist

theorem SpellsLiterals.gatherAnnotations {ts : List Tree} {literals : List Argument}
    (h : SpellsLiterals ts literals) : gatherAnnotations ts = ts := by
  have hat : ∀ t ∈ ts, t.isLeaf "@" = false := by
    induction h with
    | last h => exact List.forall_mem_singleton.mpr (h.isLeaf (by decide))
    | cons h _ ih =>
      exact List.forall_mem_cons.mpr
        ⟨h.isLeaf (by decide), List.forall_mem_cons.mpr ⟨by simp [Tree.isLeaf], ih⟩⟩
  have hgather := @gatherAnnotations_append ts [] hat
  rwa [gatherAnnotations_nil, List.append_nil] at hgather

theorem SpellsLiterals.readArguments?_round {ts rest : List Tree} {literals : List Argument}
    {gap last : String} (h : SpellsLiterals ts literals) :
    readArguments? (round gap ts last :: rest) = some literals := by
  have hne : ts ≠ [] := by
    rintro rfl
    cases h
  obtain ⟨list, hlist, hliterals⟩ := h.entries?
  simp [readArguments?, h.gatherAnnotations, expressions, hne, hlist, hliterals]

theorem betweenCommas_append {ts rest : List Tree} (h : ∀ t ∈ ts, t.isLeaf "," = false)
    (entry : List Tree) :
    betweenCommas entry (ts ++ rest) = betweenCommas (ts.reverse ++ entry) rest := by
  induction ts generalizing entry with
  | nil => rfl
  | cons t ts ih =>
    obtain ⟨ht, hts⟩ := List.forall_mem_cons.mp h
    rw [List.cons_append, betweenCommas, if_neg (by simp [ht]), ih hts]
    simp

/-- A constant as it is seen between two commas. Its arguments, if there are any, are one tree that
no reader of the entries looks into. -/
theorem seen_constant {ms tail : List Tree} {words : List String}
    {gap name : String} (h : SpellsModifiers ms words) (hname : IsIdentifier name)
    (htail : ∀ t ∈ tail, ∃ gap inner last, t = round gap inner last) :
    ∃ entry, readConstant? entry = some ⟨name, readArguments? tail⟩ ∧
      (∀ t ∈ entry, t.isLeaf "," = false) ∧
      ∀ rest, dropAnnotations (gatherAnnotations (ms ++ word gap name :: tail ++ rest)) =
        entry ++ dropAnnotations (gatherAnnotations rest) := by
  have hleaf (text : String) : ∀ t ∈ tail, t.isLeaf text = false := by
    intro t ht
    obtain ⟨gap, inner, last, rfl⟩ := htail t ht
    rfl
  have hplain : ∀ t ∈ tail, t.isAnnotationTree = false := by
    intro t ht
    obtain ⟨gap, inner, last, rfl⟩ := htail t ht
    rfl
  have hmodifiers : ∀ word ∈ modifiers, word ∈ keywords := by decide
  obtain ⟨gs, hgs, hgather⟩ := h.seen
  refine ⟨dropAnnotations gs ++ word gap name :: tail, ?_, ?_, fun rest => ?_⟩
  · have hstop : cutModifiers (word gap name :: tail) = ([], word gap name :: tail) :=
      cutModifiers_word (fun hmem => hname.not_keyword (hmodifiers _ hmem)) fun _ t ht =>
        hleaf "-" t (List.mem_of_mem_head? ht)
    simp [readConstant?, hgs.dropAnnotations.cutModifiers_append hstop, word?]
  · exact List.forall_mem_append.mpr ⟨hgs.dropAnnotations.isLeaf (by decide),
      List.forall_mem_cons.mpr ⟨hname.isLeaf gap (by decide), hleaf ","⟩⟩
  · have hat : ∀ t ∈ word gap name :: tail, t.isLeaf "@" = false :=
      List.forall_mem_cons.mpr ⟨hname.isLeaf gap (by decide), hleaf "@"⟩
    have hkept : dropAnnotations (word gap name :: tail) = word gap name :: tail :=
      List.filter_eq_self.mpr (List.forall_mem_cons.mpr
        ⟨rfl, fun t ht => by simp [hplain t ht]⟩)
    rw [List.append_assoc, List.cons_append, hgather _ (apart_word (hname.ne (by decide)) _),
      ← List.cons_append, gatherAnnotations_append hat]
    simp only [dropAnnotations, List.filter_append] at hkept ⊢
    rw [hkept, List.append_assoc]

theorem SpellsConstant.seen {ts : List Tree} {constant : EnumConstant}
    (h : SpellsConstant ts constant) : ∃ entry, readConstant? entry = some constant ∧
      (∀ t ∈ entry, t.isLeaf "," = false) ∧
      ∀ rest, dropAnnotations (gatherAnnotations (ts ++ rest)) =
        entry ++ dropAnnotations (gatherAnnotations rest) := by
  have hround (gap : String) (inner : List Tree) (last : String) :
      ∀ t ∈ [round gap inner last], ∃ gap inner last, t = round gap inner last :=
    List.forall_mem_singleton.mpr ⟨_, _, _, rfl⟩
  cases h with
  | plain hms hname => exact seen_constant hms hname (List.forall_mem_nil _)
  | @noArguments ms words gap name gap' last hms hname =>
    exact @seen_constant ms _ words gap name hms hname (hround gap' [] last)
  | @arguments ms words gap name gap' inner literals last hms hname h =>
    have hseen := @seen_constant ms _ words gap name hms hname (hround gap' inner last)
    rwa [h.readArguments?_round] at hseen

theorem SpellsConstants.filterMap_readConstant? {ts : List Tree} {constants : List EnumConstant}
    (h : SpellsConstants ts constants) :
    (betweenCommas [] (dropAnnotations (gatherAnnotations ts))).filterMap readConstant? =
      constants := by
  induction h with
  | nil =>
    simp [dropAnnotations, gatherAnnotations_nil, betweenCommas, readConstant?, cutModifiers]
  | last h =>
    obtain ⟨entry, hread, hcomma, hseen⟩ := h.seen
    have hseen := hseen []
    rw [List.append_nil] at hseen
    rw [hseen, betweenCommas_append hcomma]
    simp [dropAnnotations, gatherAnnotations_nil, betweenCommas, hread]
  | @cons ts constant comma us constants h _ ih =>
    obtain ⟨entry, hread, hcomma, hseen⟩ := h.seen
    have hrest : dropAnnotations (gatherAnnotations (mark comma "," :: us)) =
        mark comma "," :: dropAnnotations (gatherAnnotations us) := by
      rw [gatherAnnotations_cons (by simp [Tree.isLeaf])]
      rfl
    rw [hseen, hrest, betweenCommas_append hcomma, betweenCommas, if_pos (by simp [Tree.isLeaf])]
    simp [hread, ih]

end TypeWeave.Java
