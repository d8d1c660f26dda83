import TypeWeave.Java.Body
import TypeWeave.Proofs.Lexemes

/-!
# How source units are spelled

The grammar of the declarations that a source unit holds, as relations between the bracket trees of
a source file and what they stand for. One unit has many spellings: gaps are free except inside
dotted names of packages, array brackets stand at the type or at the name, fields with equal types
share a declaration or do not, and modifiers that say nothing about visibility may be added.

All trees of a spelling are `Balanced`, and grouping the tokens of balanced trees gives the trees
back (`parseTrees_tokensOf`).
-/

namespace TypeWeave.Java

-- ---------------------------------------------------------------------------
-- Balanced trees
-- ---------------------------------------------------------------------------

namespace Tree

abbrev word (gap text : String) : Tree := leaf ⟨gap, .word, text⟩

abbrev mark (gap text : String) : Tree := leaf ⟨gap, .mark, text⟩

abbrev round (gap : String) (inner : List Tree) (last : String) : Tree :=
  group ⟨gap, .mark, "("⟩ inner (some ⟨last, .mark, ")"⟩)

abbrev square (gap last : String) : Tree := group ⟨gap, .mark, "["⟩ [] (some ⟨last, .mark, "]"⟩)

abbrev curly (gap : String) (inner : List Tree) (last : String) : Tree :=
  group ⟨gap, .mark, "\x7b"⟩ inner (some ⟨last, .mark, "\x7d"⟩)

mutual
/-- Every bracket of the tree has its partner, and no annotation is gathered yet. -/
def Balanced : Tree → Prop
  | leaf t => t.kind = .mark → closerOf? t.text = none ∧ isCloser t.text = false
  | group opening inner closing =>
    opening.kind = .mark ∧ AllBalanced inner ∧
      ∃ gap text, closing = some ⟨gap, .mark, text⟩ ∧ closerOf? opening.text = some text
  | annotationTree _ => False
def AllBalanced : List Tree → Prop
  | [] => True
  | t :: ts => t.Balanced ∧ AllBalanced ts
end

end Tree

-- ---------------------------------------------------------------------------
-- Names
-- ---------------------------------------------------------------------------

/-- Reserved words, the literals that are words, and the words reserved in some contexts. -/
def keywords : List String :=
  ["abstract", "assert", "boolean", "break", "byte", "case", "catch", "char", "class", "const",
    "continue", "default", "do", "double", "else", "enum", "extends", "final", "finally", "float",
    "for", "goto", "if", "implements", "import", "instanceof", "int", "interface", "long", "native",
    "new", "package", "private", "protected", "public", "return", "short", "static", "strictfp",
    "super", "switch", "synchronized", "this", "throw", "throws", "transient", "try", "void",
    "volatile", "while", "_", "true", "false", "null", "exports", "module", "non-sealed", "open",
    "opens", "permits", "provides", "record", "requires", "sealed", "to", "transitive", "uses",
    "var", "when", "with", "yield"]

structure IsIdentifier (name : String) : Prop where
  lexeme : Lexeme .word name.toList
  not_blank : ∀ c ∈ name.toList, Text.isBlank c = false
  not_keyword : name ∉ keywords

inductive SpellsName : List Tree → List String → Prop
  | last {gap name} : IsIdentifier name → SpellsName [.word gap name] [name]
  | cons {gap name dot ts names} : IsIdentifier name → SpellsName ts names →
      SpellsName (.word gap name :: .mark dot "." :: ts) (name :: names)

def Tight (ts : List Tree) : Prop := ∀ t ∈ (Tree.tokensOf ts).tail, t.gap = ""

-- ---------------------------------------------------------------------------
-- Types
-- ---------------------------------------------------------------------------

def valueTypes : List String :=
  ["byte", "short", "int", "long", "char", "float", "double", "boolean"]

mutual
inductive SpellsType : List Tree → TypeExpr → Prop
  | primitive {gap keyword} : keyword ∈ valueTypes →
      SpellsType [.word gap keyword] (.primitive keyword)
  | named {ts segments} : SpellsName ts segments → SpellsType ts (.named segments [])
  | generic {ts us segments args gap} : SpellsName ts segments → SpellsArguments us args →
      SpellsType (ts ++ .mark gap "<" :: us) (.named segments args)
  | array {ts element gap last} : SpellsType ts element →
      SpellsType (ts ++ [.square gap last]) (.array element)
/-- Type arguments with the angle bracket behind them. -/
inductive SpellsArguments : List Tree → List TypeExpr → Prop
  | last {ts arg gap} : SpellsArgument ts arg → SpellsArguments (ts ++ [.mark gap ">"]) [arg]
  | cons {ts us arg args gap} : SpellsArgument ts arg → SpellsArguments us args →
      SpellsArguments (ts ++ .mark gap "," :: us) (arg :: args)
inductive SpellsArgument : List Tree → TypeExpr → Prop
  | type {ts type} : SpellsType ts type → SpellsArgument ts type
  | wildcard {gap} : SpellsArgument [.mark gap "?"] .wildcard
  | bounded {ts bound gap gap' keyword} : keyword ∈ ["extends", "super"] → SpellsType ts bound →
      SpellsArgument (.mark gap "?" :: .word gap' keyword :: ts) (.bounded bound)
end

-- ---------------------------------------------------------------------------
-- Modifiers
-- ---------------------------------------------------------------------------

/-- An annotation without its arguments. Right after the `@` a name that starts with `interface`
would be read as a keyword. -/
inductive SpellsMarker : List Tree → Prop
  | intro {gap gap' name names ts} : SpellsName (.word gap' name :: ts) names →
      (gap' = "" → ¬"interface".toList <+: name.toList) →
      SpellsMarker (.mark gap "@" :: .word gap' name :: ts)

/-- The words and annotations in front of a declaration, and the words among them. -/
inductive SpellsModifiers : List Tree → List String → Prop
  | nil : SpellsModifiers [] []
  | word {gap word ts words} : word ∈ modifiers → SpellsModifiers ts words →
      SpellsModifiers (.word gap word :: ts) (word :: words)
  | nonSealed {gap ts words} : SpellsModifiers ts words →
      SpellsModifiers (.word gap "non" :: .mark "" "-" :: .word "" "sealed" :: ts)
        ("non-sealed" :: words)
  | marker {us ts words} : SpellsMarker us → SpellsModifiers ts words →
      SpellsModifiers (us ++ ts) words
  | arguments {us ts words gap inner last} : SpellsMarker us → Tree.AllBalanced inner →
      SpellsModifiers ts words → SpellsModifiers (us ++ .round gap inner last :: ts) words

def accessWords : Visibility → List String
  | .publicAccess => ["public"]
  | .protectedAccess => ["protected"]
  | .packageAccess => []
  | .privateAccess => ["private"]

def isAccessWord (word : String) : Bool :=
  word = "public" || word = "protected" || word = "private"

-- ---------------------------------------------------------------------------
-- Fields and enum constants
-- ---------------------------------------------------------------------------

inductive SpellsDeclarators (base : TypeExpr) (visibility : Visibility) :
    List Tree → List WrittenField → Prop
  | last {gap name} {brackets : List (String × String)} : IsIdentifier name →
      SpellsDeclarators base visibility (.word gap name :: brackets.map fun (g, l) => .square g l)
        [⟨name, base.nestArray brackets.length, visibility⟩]
  | cons {gap name comma ts fields} {brackets : List (String × String)} : IsIdentifier name →
      SpellsDeclarators base visibility ts fields →
      SpellsDeclarators base visibility
        (.word gap name :: (brackets.map fun (g, l) => .square g l) ++ .mark comma "," :: ts)
        (⟨name, base.nestArray brackets.length, visibility⟩ :: fields)

inductive SpellsFields : List Tree → List WrittenField → Prop
  | intro {ms words ts base us visibility fields} : SpellsModifiers ms words →
      words.filter isAccessWord = accessWords visibility → SpellsType ts base →
      SpellsDeclarators base visibility us fields → SpellsFields (ms ++ (ts ++ us)) fields

inductive SpellsLiteral : Token → Argument → Prop
  | integer {gap text} : Lexeme .integer text.toList →
      SpellsLiteral ⟨gap, .integer, text⟩ (.literal .integer text)
  | float {gap text} : Lexeme .float text.toList →
      SpellsLiteral ⟨gap, .float, text⟩ (.literal .float text)
  | char {gap text} : Lexeme .char text.toList →
      SpellsLiteral ⟨gap, .char, text⟩ (.literal .char text)
  | string {gap text} : Lexeme .string text.toList →
      SpellsLiteral ⟨gap, .string, text⟩ (.literal .string text)
  | boolean {gap text} : text ∈ ["true", "false"] →
      SpellsLiteral ⟨gap, .word, text⟩ (.literal .boolean text)
  | null {gap} : SpellsLiteral ⟨gap, .word, "null"⟩ (.literal .null "null")

inductive SpellsLiterals : List Tree → List Argument → Prop
  | last {token literal} : SpellsLiteral token literal → SpellsLiterals [.leaf token] [literal]
  | cons {token literal comma ts literals} : SpellsLiteral token literal →
      SpellsLiterals ts literals →
      SpellsLiterals (.leaf token :: .mark comma "," :: ts) (literal :: literals)

inductive SpellsConstant : List Tree → EnumConstant → Prop
  | plain {ms words gap name} : SpellsModifiers ms words → IsIdentifier name →
      SpellsConstant (ms ++ [.word gap name]) ⟨name, none⟩
  | noArguments {ms words gap name gap' last} : SpellsModifiers ms words → IsIdentifier name →
      SpellsConstant (ms ++ [.word gap name, .round gap' [] last]) ⟨name, some []⟩
  | arguments {ms words gap name gap' inner literals last} : SpellsModifiers ms words →
      IsIdentifier name → SpellsLiterals inner literals →
      SpellsConstant (ms ++ [.word gap name, .round gap' inner last]) ⟨name, some literals⟩

/-- Constants with commas between them, and perhaps one more behind them. -/
inductive SpellsConstants : List Tree → List EnumConstant → Prop
  | nil : SpellsConstants [] []
  | last {ts constant} : SpellsConstant ts constant → SpellsConstants ts [constant]
  | cons {ts constant comma us constants} : SpellsConstant ts constant →
      SpellsConstants us constants →
      SpellsConstants (ts ++ .mark comma "," :: us) (constant :: constants)

-- ---------------------------------------------------------------------------
-- Type declarations
-- ---------------------------------------------------------------------------

inductive SpellsSuperclass : List Tree → Option TypeExpr → Prop
  | none : SpellsSuperclass [] none
  | some {gap ts superclass} : SpellsType ts superclass →
      SpellsSuperclass (.word gap "extends" :: ts) (some superclass)

inductive HeadKind where
  | classHead (superclass : Option TypeExpr)
  | enumHead
  | interfaceHead
  | annotationHead
  | recordHead

inductive SpellsHead : List Tree → String → HeadKind → Prop
  | classHead {gap gap' name ts superclass} : IsIdentifier name → SpellsSuperclass ts superclass →
      SpellsHead (.word gap "class" :: .word gap' name :: ts) name (.classHead superclass)
  | enumHead {gap gap' name} : IsIdentifier name →
      SpellsHead [.word gap "enum", .word gap' name] name .enumHead
  | interfaceHead {gap gap' name} : IsIdentifier name →
      SpellsHead [.word gap "interface", .word gap' name] name .interfaceHead
  | annotationHead {gap gap' name} : IsIdentifier name →
      SpellsHead [.mark gap "@", .word "" "interface", .word gap' name] name .annotationHead
  | recordHead {gap gap' name g components last} : IsIdentifier name →
      Tree.AllBalanced components →
      SpellsHead [.word gap "record", .word gap' name, .round g components last] name .recordHead

mutual
inductive SpellsDeclaration : List Tree → WrittenType → Prop
  | intro {ms words hs name head gap inner last kind nested} : SpellsModifiers ms words →
      SpellsHead hs name head → SpellsBlock head inner kind nested →
      SpellsDeclaration (ms ++ (hs ++ [.curly gap inner last])) (.mk name kind nested)
/-- What stands in a block. Only the fields of a class belong to what is declared. -/
inductive SpellsBlock : HeadKind → List Tree → WrittenKind → List WrittenType → Prop
  | classBlock {superclass ts fields nested} : SpellsBody ts fields nested →
      SpellsBlock (.classHead superclass) ts (.classType superclass fields) nested
  | constants {cs constants} : SpellsConstants cs constants →
      SpellsBlock .enumHead cs (.enumType constants) []
  | enumBlock {cs constants gap ts fields nested} : SpellsConstants cs constants →
      SpellsBody ts fields nested →
      SpellsBlock .enumHead (cs ++ .mark gap ";" :: ts) (.enumType constants) nested
  | interfaceBlock {ts fields nested} : SpellsBody ts fields nested →
      SpellsBlock .interfaceHead ts .interfaceType nested
  | annotationBlock {ts fields nested} : SpellsBody ts fields nested →
      SpellsBlock .annotationHead ts .annotationType nested
  | recordBlock {ts fields nested} : SpellsBody ts fields nested →
      SpellsBlock .recordHead ts .recordType nested
/-- Fields and types in any order, with semicolons added where they may stand. -/
inductive SpellsBody : List Tree → List WrittenField → List WrittenType → Prop
  | nil : SpellsBody [] [] []
  | semicolon {gap ts fields nested} : SpellsBody ts fields nested →
      SpellsBody (.mark gap ";" :: ts) fields nested
  | fields {us declared gap ts fields nested} : SpellsFields us declared →
      SpellsBody ts fields nested →
      SpellsBody (us ++ .mark gap ";" :: ts) (declared ++ fields) nested
  | type {us declared ts fields nested} : SpellsDeclaration us declared →
      SpellsBody ts fields nested → SpellsBody (us ++ ts) fields (declared :: nested)
end

-- ---------------------------------------------------------------------------
-- Source units
-- ---------------------------------------------------------------------------

inductive SpellsPackage : List Tree → Option String → Prop
  | none : SpellsPackage [] none
  | some {gap ts names semicolon} : SpellsName ts names → Tight ts →
      SpellsPackage (.word gap "package" :: (ts ++ [.mark semicolon ";"]))
        (some (Text.join "." names))

inductive SpellsImports : List Tree → List Import → Prop
  | nil : SpellsImports [] []
  | single {gap ts names semicolon us imports} : SpellsName ts names → Tight ts →
      SpellsImports us imports →
      SpellsImports (.word gap "import" :: (ts ++ .mark semicolon ";" :: us))
        (.single (Text.join "." names) :: imports)
  | onDemand {gap ts names dot star semicolon us imports} : SpellsName ts names → Tight ts →
      SpellsImports us imports →
      SpellsImports
        (.word gap "import" :: (ts ++ .mark dot "." :: .mark star "*" :: .mark semicolon ";" :: us))
        (.onDemand (Text.join "." names) :: imports)

inductive SpellsUnit : List Tree → SourceUnit → Prop
  | intro {ps package is imports body types} : SpellsPackage ps package →
      SpellsImports is imports → SpellsBody body [] types →
      SpellsUnit (ps ++ (is ++ body)) ⟨package, imports, types⟩

/-- The text is that of a source file that says just what the unit holds. -/
def Spelled (text : String) (unit : SourceUnit) : Prop :=
  ∃ trees, SpellsUnit trees unit ∧ WrittenOut (Tree.tokensOf trees) text.toList

-- ---------------------------------------------------------------------------
-- Grouping the tokens of balanced trees
-- ---------------------------------------------------------------------------

open Java.Tree

theorem allBalanced_iff {ts : List Tree} : AllBalanced ts ↔ ∀ t ∈ ts, t.Balanced := by
  induction ts with
  | nil => simp [AllBalanced]
  | cons t ts ih => simp [AllBalanced, ih]

/-- A closing bracket opens nothing. -/
theorem closerOf?_closer {opening closer : String} (h : closerOf? opening = some closer) :
    closerOf? closer = none ∧ isCloser closer = true := by
  unfold closerOf? at h
  split at h <;> cases h <;> decide

mutual
theorem groupTokens_tokens {t : Tree} (h : t.Balanced) (current : List Tree) (stack : OpenGroups)
    (rest : List Token) :
    groupTokens current stack (t.tokens ++ rest) = groupTokens (t :: current) stack rest := by
  match t with
  | .leaf token =>
    rw [tokens, List.singleton_append]
    by_cases hmark : token.kind = .mark
    · cases stack <;> simp [groupTokens, h hmark]
    · cases stack <;> simp [groupTokens, hmark]
  | .group opening inner closing =>
    obtain ⟨hopening, hinner, gap, text, rfl, hcloser⟩ := h
    obtain ⟨hnone, hcloses⟩ := closerOf?_closer hcloser
    have hopens : groupTokens current stack (opening :: (tokensOf inner ++
        ([⟨gap, .mark, text⟩] ++ rest))) =
        groupTokens [] ((opening, current) :: stack) (tokensOf inner ++
          ([⟨gap, .mark, text⟩] ++ rest)) := by
      cases stack <;> simp [groupTokens, hopening, hcloser]
    rw [tokens, List.cons_append, List.append_assoc, Option.toList_some, hopens,
      groupTokens_tokensOf hinner]
    simp [groupTokens, hnone, hcloses, hcloser]
  | .annotationTree _ => exact h.elim
theorem groupTokens_tokensOf {ts : List Tree} (h : AllBalanced ts) (current : List Tree)
    (stack : OpenGroups) (rest : List Token) :
    groupTokens current stack (tokensOf ts ++ rest) =
      groupTokens (ts.reverse ++ current) stack rest := by
  match ts with
  | [] => rfl
  | t :: ts =>
    rw [tokensOf, List.append_assoc, groupTokens_tokens h.1, groupTokens_tokensOf h.2,
      List.reverse_cons, List.append_assoc, List.singleton_append]
end

theorem parseTrees_tokensOf {ts : List Tree} (h : AllBalanced ts) :
    parseTrees (tokensOf ts) = ts := by
  have hgroup := groupTokens_tokensOf h [] [] []
  rw [List.append_nil, List.append_nil] at hgroup
  rw [parseTrees, hgroup, groupTokens, closeAll, List.reverse_reverse]

-- ---------------------------------------------------------------------------
-- The trees of a spelling
-- ---------------------------------------------------------------------------

def edges : List String := ["@", ";", "=", "-", "default", "package", "import"]

/-- A tree that may stand between the modifiers of a member and its end. -/
structure Tree.Inner (t : Tree) : Prop where
  isLeaf : ∀ text ∈ edges, t.isLeaf text = false
  isGroup : t.isGroup "\x7b" = false

structure Tree.Interior (t : Tree) : Prop extends t.Inner where
  balanced : t.Balanced

theorem IsIdentifier.ne {name other : String} (h : IsIdentifier name)
    (hother : other ∈ keywords ∨ ∀ c ∈ other.toList.head?, isWordStart c = false) :
    name ≠ other := by
  rintro rfl
  rcases hother with hkeyword | hstart
  · exact h.not_keyword hkeyword
  · have hlexeme := h.lexeme
    generalize name.toList = text at hlexeme hstart
    cases hlexeme with
    | word hc => simp [hc] at hstart

theorem IsIdentifier.isLeaf {name other : String} (h : IsIdentifier name) (gap : String)
    (hother : other ∈ keywords ∨ ∀ c ∈ other.toList.head?, isWordStart c = false) :
    (word gap name).isLeaf other = false := by
  simpa [Tree.isLeaf] using h.ne hother

theorem balanced_word {gap text : String} : (word gap text).Balanced := by
  simp [Tree.Balanced]

theorem balanced_round {gap last : String} {inner : List Tree} (h : AllBalanced inner) :
    (round gap inner last).Balanced :=
  ⟨rfl, h, last, ")", rfl, rfl⟩

theorem balanced_curly {gap last : String} {inner : List Tree} (h : AllBalanced inner) :
    (curly gap inner last).Balanced :=
  ⟨rfl, h, last, "\x7d", rfl, rfl⟩

theorem inner_leaf {token : Token} (h : token.text ∉ edges) : (leaf token).Inner where
  isLeaf other hother := by
    have hne : token.text ≠ other := fun heq => h (heq ▸ hother)
    simp [isLeaf, hne]
  isGroup := rfl

theorem not_inner_at (gap : String) : ¬(mark gap "@").Inner := by
  intro h
  have hat := h.isLeaf "@" (by decide)
  simp [isLeaf] at hat

theorem interior_word {gap text : String} (h : text ∉ edges) : (word gap text).Interior :=
  ⟨inner_leaf h, balanced_word⟩

theorem IsIdentifier.interior {name : String} (h : IsIdentifier name) (gap : String) :
    (word gap name).Interior := by
  have hedges : ∀ text ∈ edges,
      text ∈ keywords ∨ ∀ c ∈ text.toList.head?, isWordStart c = false := by decide
  exact interior_word fun hmem => h.ne (hedges name hmem) rfl

theorem interior_mark {gap text : String} (h : text ∈ [".", "<", ">", ",", "?", "*"]) :
    (mark gap text).Interior := by
  have hmarks : ∀ text ∈ [".", "<", ">", ",", "?", "*"],
      text ∉ edges ∧ closerOf? text = none ∧ isCloser text = false := by decide
  obtain ⟨hedge, hbracket⟩ := hmarks text h
  exact ⟨inner_leaf hedge, fun _ => hbracket⟩

theorem interior_square {gap last : String} : (square gap last).Interior :=
  ⟨⟨fun _ _ => rfl, rfl⟩, rfl, trivial, last, "]", rfl, rfl⟩

theorem SpellsName.interior {ts : List Tree} {names : List String} (h : SpellsName ts names) :
    ∀ t ∈ ts, t.Interior := by
  induction h with
  | last h => exact List.forall_mem_singleton.mpr (h.interior _)
  | cons h _ ih =>
    exact List.forall_mem_cons.mpr
      ⟨h.interior _, List.forall_mem_cons.mpr ⟨interior_mark (by decide), ih⟩⟩

mutual
theorem SpellsType.interior {ts : List Tree} {type : TypeExpr} (h : SpellsType ts type) :
    ∀ t ∈ ts, t.Interior := by
  match h with
  | .primitive h =>
    have hedges : ∀ keyword ∈ valueTypes, keyword ∉ edges := by decide
    exact List.forall_mem_singleton.mpr (interior_word (hedges _ h))
  | .named h => exact h.interior
  | .generic h hargs =>
    exact List.forall_mem_append.mpr
      ⟨h.interior, List.forall_mem_cons.mpr ⟨interior_mark (by decide), hargs.interior⟩⟩
  | .array h =>
    exact List.forall_mem_append.mpr ⟨h.interior, List.forall_mem_singleton.mpr interior_square⟩
theorem SpellsArguments.interior {ts : List Tree} {args : List TypeExpr}
    (h : SpellsArguments ts args) : ∀ t ∈ ts, t.Interior := by
  match h with
  | .last h =>
    exact List.forall_mem_append.mpr
      ⟨h.interior, List.forall_mem_singleton.mpr (interior_mark (by decide))⟩
  | .cons h hargs =>
    exact List.forall_mem_append.mpr
      ⟨h.interior, List.forall_mem_cons.mpr ⟨interior_mark (by decide), hargs.interior⟩⟩
theorem SpellsArgument.interior {ts : List Tree} {arg : TypeExpr} (h : SpellsArgument ts arg) :
    ∀ t ∈ ts, t.Interior := by
  match h with
  | .type h => exact h.interior
  | .wildcard => exact List.forall_mem_singleton.mpr (interior_mark (by decide))
  | .bounded hkeyword h =>
    have hedges : ∀ keyword ∈ ["extends", "super"], keyword ∉ edges := by decide
    exact List.forall_mem_cons.mpr ⟨interior_mark (by decide),
      List.forall_mem_cons.mpr ⟨interior_word (hedges _ hkeyword), h.interior⟩⟩
end

theorem forall_mem_squares {P : Tree → Prop} (h : ∀ gap last, P (square gap last))
    (brackets : List (String × String)) :
    ∀ t ∈ brackets.map fun (g, l) => square g l, P t := by
  simpa using fun t g l _ heq => heq ▸ h g l

theorem SpellsDeclarators.interior {base : TypeExpr} {visibility : Visibility} {ts : List Tree}
    {fields : List WrittenField} (h : SpellsDeclarators base visibility ts fields) :
    ∀ t ∈ ts, t.Interior := by
  induction h with
  | last h =>
    exact List.forall_mem_cons.mpr
      ⟨h.interior _, forall_mem_squares (fun _ _ => interior_square) _⟩
  | cons h _ ih =>
    exact List.forall_mem_cons.mpr ⟨h.interior _, List.forall_mem_append.mpr
      ⟨forall_mem_squares (fun _ _ => interior_square) _,
        List.forall_mem_cons.mpr ⟨interior_mark (by decide), ih⟩⟩⟩

theorem SpellsSuperclass.interior {ts : List Tree} {superclass : Option TypeExpr}
    (h : SpellsSuperclass ts superclass) : ∀ t ∈ ts, t.Interior := by
  cases h with
  | none => exact List.forall_mem_nil _
  | some h => exact List.forall_mem_cons.mpr ⟨interior_word (by decide), h.interior⟩

theorem allBalanced_append {ts us : List Tree} :
    AllBalanced (ts ++ us) ↔ AllBalanced ts ∧ AllBalanced us := by
  simp only [allBalanced_iff, List.forall_mem_append]

theorem allBalanced_of_interior {ts : List Tree} (h : ∀ t ∈ ts, t.Interior) : AllBalanced ts :=
  allBalanced_iff.mpr fun t ht => (h t ht).balanced

theorem balanced_mark {gap text : String} (h : text ∈ ["@", "-", ";", ",", ".", "*"]) :
    (mark gap text).Balanced := by
  have hmarks : ∀ text ∈ ["@", "-", ";", ",", ".", "*"],
      closerOf? text = none ∧ isCloser text = false := by decide
  exact fun _ => hmarks text h

theorem SpellsMarker.balanced {ts : List Tree} (h : SpellsMarker ts) : AllBalanced ts := by
  cases h with
  | intro h => exact ⟨balanced_mark (by decide), allBalanced_of_interior h.interior⟩

theorem SpellsModifiers.balanced {ts : List Tree} {words : List String}
    (h : SpellsModifiers ts words) : AllBalanced ts := by
  induction h with
  | nil => trivial
  | word _ _ ih => exact ⟨balanced_word, ih⟩
  | nonSealed _ ih => exact ⟨balanced_word, balanced_mark (by decide), balanced_word, ih⟩
  | marker h _ ih => exact allBalanced_append.mpr ⟨h.balanced, ih⟩
  | arguments h hinner _ ih =>
    exact allBalanced_append.mpr ⟨h.balanced, balanced_round hinner, ih⟩

theorem SpellsFields.balanced {ts : List Tree} {fields : List WrittenField}
    (h : SpellsFields ts fields) : AllBalanced ts := by
  cases h with
  | intro hms _ htype hnames =>
    exact allBalanced_append.mpr ⟨hms.balanced, allBalanced_append.mpr
      ⟨allBalanced_of_interior htype.interior, allBalanced_of_interior hnames.interior⟩⟩

theorem SpellsLiteral.balanced {token : Token} {literal : Argument}
    (h : SpellsLiteral token literal) : (leaf token).Balanced := by
  cases h <;> simp [Tree.Balanced]

theorem SpellsLiterals.balanced {ts : List Tree} {literals : List Argument}
    (h : SpellsLiterals ts literals) : AllBalanced ts := by
  induction h with
  | last h => exact ⟨h.balanced, trivial⟩
  | cons h _ ih => exact ⟨h.balanced, balanced_mark (by decide), ih⟩

theorem SpellsConstant.balanced {ts : List Tree} {constant : EnumConstant}
    (h : SpellsConstant ts constant) : AllBalanced ts := by
  cases h with
  | plain hms _ => exact allBalanced_append.mpr ⟨hms.balanced, balanced_word, trivial⟩
  | noArguments hms _ =>
    exact allBalanced_append.mpr
      ⟨hms.balanced, balanced_word, balanced_round trivial, trivial⟩
  | arguments hms _ h =>
    exact allBalanced_append.mpr
      ⟨hms.balanced, balanced_word, balanced_round h.balanced, trivial⟩

theorem SpellsConstants.balanced {ts : List Tree} {constants : List EnumConstant}
    (h : SpellsConstants ts constants) : AllBalanced ts := by
  induction h with
  | nil => trivial
  | last h => exact h.balanced
  | cons h _ ih => exact allBalanced_append.mpr ⟨h.balanced, balanced_mark (by decide), ih⟩

theorem SpellsHead.balanced {ts : List Tree} {name : String} {head : HeadKind}
    (h : SpellsHead ts name head) : AllBalanced ts := by
  cases h with
  | classHead _ h => exact ⟨balanced_word, balanced_word, allBalanced_of_interior h.interior⟩
  | enumHead | interfaceHead => exact ⟨balanced_word, balanced_word, trivial⟩
  | annotationHead => exact ⟨balanced_mark (by decide), balanced_word, balanced_word, trivial⟩
  | recordHead _ h => exact ⟨balanced_word, balanced_word, balanced_round h, trivial⟩

mutual
theorem SpellsDeclaration.balanced {ts : List Tree} {type : WrittenType}
    (h : SpellsDeclaration ts type) : AllBalanced ts := by
  match h with
  | .intro hms hhead hblock =>
    exact allBalanced_append.mpr ⟨hms.balanced, allBalanced_append.mpr
      ⟨hhead.balanced, balanced_curly hblock.balanced, trivial⟩⟩
theorem SpellsBlock.balanced {head : HeadKind} {ts : List Tree} {kind : WrittenKind}
    {nested : List WrittenType} (h : SpellsBlock head ts kind nested) : AllBalanced ts := by
  match h with
  | .classBlock h | .interfaceBlock h | .annotationBlock h | .recordBlock h => exact h.balanced
  | .constants h => exact h.balanced
  | .enumBlock hconstants h =>
    exact allBalanced_append.mpr ⟨hconstants.balanced, balanced_mark (by decide), h.balanced⟩
theorem SpellsBody.balanced {ts : List Tree} {fields : List WrittenField}
    {nested : List WrittenType} (h : SpellsBody ts fields nested) : AllBalanced ts := by
  match h with
  | .nil => trivial
  | .semicolon h => exact ⟨balanced_mark (by decide), h.balanced⟩
  | .fields hfields h =>
    exact allBalanced_append.mpr ⟨hfields.balanced, balanced_mark (by decide), h.balanced⟩
  | .type htype h => exact allBalanced_append.mpr ⟨htype.balanced, h.balanced⟩
end

theorem SpellsPackage.balanced {ts : List Tree} {package : Option String}
    (h : SpellsPackage ts package) : AllBalanced ts := by
  cases h with
  | none => trivial
  | some h _ =>
    exact ⟨balanced_word, allBalanced_append.mpr
      ⟨allBalanced_of_interior h.interior, balanced_mark (by decide), trivial⟩⟩

theorem SpellsImports.balanced {ts : List Tree} {imports : List Import}
    (h : SpellsImports ts imports) : AllBalanced ts := by
  induction h with
  | nil => trivial
  | single h _ _ ih =>
    exact ⟨balanced_word, allBalanced_append.mpr
      ⟨allBalanced_of_interior h.interior, balanced_mark (by decide), ih⟩⟩
  | onDemand h _ _ ih =>
    exact ⟨balanced_word, allBalanced_append.mpr
      ⟨allBalanced_of_interior h.interior, balanced_mark (by decide), balanced_mark (by decide),
        balanced_mark (by decide), ih⟩⟩

theorem SpellsUnit.balanced {ts : List Tree} {unit : SourceUnit} (h : SpellsUnit ts unit) :
    AllBalanced ts := by
  cases h with
  | intro hpackage himports hbody =>
    exact allBalanced_append.mpr
      ⟨hpackage.balanced, allBalanced_append.mpr ⟨himports.balanced, hbody.balanced⟩⟩

end TypeWeave.Java
