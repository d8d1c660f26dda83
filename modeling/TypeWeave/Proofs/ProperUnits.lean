import TypeWeave.Proofs.SpelledUnits

/-!
# Every proper unit can be spelled

A unit is proper if its names are identifiers, its types are made of the primitive types of values,
of dotted names with arguments and of arrays, and the arguments of its enum constants are literals.
Some text spells it then (`ProperUnit.exists_spelled`), and whatever text does is read as that unit
(`readUnit_spelled`).
-/

namespace TypeWeave.Java

open Java.Tree

-- ---------------------------------------------------------------------------
-- Tokens with a blank in front
-- ---------------------------------------------------------------------------

def StartsBlank (text : List Char) : Prop := ∀ c ∈ text.head?, isSpace c = true

section
variable {text rest : List Char}

theorem StartsBlank.clear (h : StartsBlank rest) {p : Char → Bool}
    (hp : ∀ c, isSpace c = true → p c = false) : Clear p rest :=
  fun c hc => hp c (h c hc)

theorem not_isWordChar_of_isSpace {c : Char} (h : isSpace c = true) : isWordChar c = false := by
  rw [← Bool.not_eq_true]
  intro hword
  have hplain := (plainStart_of_isWordChar hword).1
  rw [h] at hplain
  cases hplain

theorem StartsBlank.contains {chars : List Char} (h : StartsBlank rest)
    (hchars : ∀ c ∈ chars, isSpace c = false) : Clear chars.contains rest := by
  refine h.clear fun c hc => ?_
  rw [List.contains_eq_mem, decide_eq_false_iff_not]
  intro hmem
  rw [hchars c hmem] at hc
  cases hc

theorem StartsBlank.continuesNumber (h : StartsBlank rest) : Clear continuesNumber rest := by
  refine h.clear fun c hc => ?_
  have hpoint : c ≠ '.' := by
    rintro rfl
    revert hc
    decide
  simp [Java.continuesNumber, not_isWordChar_of_isSpace hc, hpoint]

theorem not_isSpace_of_mem_operator :
    ∀ operator ∈ operators, ∀ c ∈ operator.toList, isSpace c = false := by
  decide

/-- An operator that went beyond the text would contain the white space. -/
theorem StartsBlank.operator_le (h : StartsBlank rest) {operator : String}
    (hoperator : operator ∈ operators) (hstarts : operator.toList <+: text ++ rest) :
    operator.toList.length ≤ text.length := by
  by_contra hlong
  cases rest with
  | nil => exact hlong (by simpa using hstarts.length_le)
  | cons c cs =>
    have hwithin : text ++ [c] <+: operator.toList := by
      refine List.prefix_of_prefix_length_le ⟨cs, ?_⟩ hstarts ?_
      · rw [List.append_assoc, List.singleton_append]
      · rw [List.length_append, List.length_singleton]
        omega
    have hspace := not_isSpace_of_mem_operator operator hoperator c (hwithin.subset (by simp))
    rw [h c rfl] at hspace
    cases hspace

/-- No token runs into white space. -/
theorem standsApart_of_startsBlank (kind : TokenKind) (h : StartsBlank rest) :
    StandsApart kind text rest := by
  cases kind with
  | word => exact h.clear fun c hc => not_isWordChar_of_isSpace hc
  | integer | float =>
    exact ⟨h.continuesNumber, .inl ((h.contains (by decide : ∀ c ∈ ['+', '-'], _)).mono fun c hc =>
      by simpa using hc)⟩
  | char => trivial
  | string => exact (h.contains (by decide : ∀ c ∈ ['"'], _)).mono fun c hc => by simpa using hc
  | mark =>
    refine ⟨fun operator hoperator hstarts => h.operator_le hoperator hstarts,
      fun _ => (h.contains (by decide : ∀ c ∈ ['/', '*'], _)).mono fun c hc => by simpa using hc,
      fun _ => h.clear fun c hc => ?_⟩
    have hword := not_isWordChar_of_isSpace hc
    simp only [isWordChar, Bool.or_eq_false_iff] at hword
    exact hword.2

end

/-- The tokens can be written in front of anything that starts with white space. -/
def Printable (tokens : List Token) : Prop :=
  ∀ more rest, WrittenOut more rest → StartsBlank rest →
    ∃ text, WrittenOut (tokens ++ more) text ∧ StartsBlank text

namespace Printable

variable {tokens others : List Token}

theorem nil : Printable [] := fun _ rest h hrest => ⟨rest, h, hrest⟩

theorem append (h : Printable tokens) (hothers : Printable others) :
    Printable (tokens ++ others) := by
  intro more rest hmore hrest
  obtain ⟨text, htext, hblank⟩ := hothers more rest hmore hrest
  rw [List.append_assoc]
  exact h _ text htext hblank

theorem single {kind : TokenKind} {text : String} (h : Lexeme kind text.toList) :
    Printable [⟨" ", kind, text⟩] := by
  intro more rest hmore hrest
  have hgap : Gap " ".toList := .space rfl .nil
  refine ⟨_, .token hgap h (standsApart_of_startsBlank kind hrest) hmore, ?_⟩
  rintro c ⟨⟩
  rfl

theorem cons {kind : TokenKind} {text : String} (h : Lexeme kind text.toList)
    (hothers : Printable others) : Printable (⟨" ", kind, text⟩ :: others) :=
  (single h).append hothers

theorem exists_text (h : Printable tokens) : ∃ text : String, WrittenOut tokens text.toList := by
  obtain ⟨text, htext, -⟩ := h [] [] (.nil (.closed .nil)) (by rintro c ⟨⟩)
  rw [List.append_nil] at htext
  exact ⟨String.ofList text, by rwa [String.toList_ofList]⟩

end Printable

-- ---------------------------------------------------------------------------
-- Names
-- ---------------------------------------------------------------------------

theorem IsIdentifier.exists_start {name : String} (h : IsIdentifier name) :
    ∃ c cs, name.toList = c :: cs ∧ isWordStart c = true := by
  have hlexeme := h.lexeme
  generalize name.toList = text at hlexeme ⊢
  cases hlexeme with
  | word hc => exact ⟨_, _, rfl, hc⟩

/-- A single mark that no operator starts with stands apart from what is neither a comment with it
nor a digit. -/
theorem standsApart_mark {c d : Char} {cs : List Char}
    (hc : ∀ operator ∈ operators, operator.toList.head? ≠ some c) (hslash : c ≠ '/')
    (hd : c = '.' → d.isDigit = false) : StandsApart .mark [c] (d :: cs) := by
  refine ⟨fun operator hoperator hprefix => ?_, fun heq => absurd (by simpa using heq) hslash,
    fun heq => .cons (hd (by simpa using heq))⟩
  obtain ⟨more, hmore⟩ := hprefix
  cases htext : operator.toList with
  | nil => exact Nat.zero_le _
  | cons e es =>
    rw [htext] at hmore
    obtain rfl : e = c := (List.cons.inj hmore).1
    exact absurd (by rw [htext]; rfl) (hc operator hoperator)

theorem not_isDigit_of_isWordStart {c : Char} (h : isWordStart c = true) : c.isDigit = false := by
  rw [← Bool.not_eq_true, Char.isDigit_iff_toNat]
  simp only [isWordStart_iff, Char.reduceToNat] at h ⊢
  omega

/-- A point can be written right in front of a word. -/
theorem WrittenOut.point {tokens : List Token} {c : Char} {cs : List Char}
    (h : WrittenOut tokens (c :: cs)) (hc : isWordStart c = true) :
    WrittenOut (⟨"", .mark, "."⟩ :: tokens) ('.' :: c :: cs) :=
  @WrittenOut.token "" "." .mark _ _ .nil (@Lexeme.mark '.' (by decide))
    (standsApart_mark (by decide) (by decide) fun _ => not_isDigit_of_isWordStart hc) h

theorem Tight.forall_mem {ts : List Tree} (h : Tight ts)
    (hfirst : ∀ t ∈ (tokensOf ts).head?, t.gap = "") : ∀ t ∈ tokensOf ts, t.gap = "" := by
  rw [Tight] at h
  cases htokens : tokensOf ts with
  | nil => exact List.forall_mem_nil _
  | cons token tokens =>
    rw [htokens] at h hfirst
    exact List.forall_mem_cons.mpr ⟨hfirst token rfl, h⟩

/-- A dotted name without gaps inside can be written after any gap. -/
theorem exists_tightName {names : List String} (hne : names ≠ [])
    (h : ∀ name ∈ names, IsIdentifier name) {gap : String} (hgap : Gap gap.toList) :
    ∃ ts, SpellsName ts names ∧ Tight ts ∧ (∀ t ∈ (tokensOf ts).head?, t.gap = gap) ∧
      ∀ more rest, WrittenOut more rest → StartsBlank rest → ∃ c cs,
        isWordStart c = true ∧ WrittenOut (tokensOf ts ++ more) (gap.toList ++ c :: cs) := by
  induction names generalizing gap with
  | nil => exact absurd rfl hne
  | cons name names ih =>
    obtain ⟨hname, hnames⟩ := List.forall_mem_cons.mp h
    obtain ⟨c, cs, htext, hc⟩ := hname.exists_start
    cases names with
    | nil =>
      refine ⟨[word gap name], .last hname, by simp [Tight, tokensOf, tokens], ?_, ?_⟩
      · rintro t ⟨⟩
        rfl
      · intro more rest hmore hrest
        refine ⟨c, cs ++ rest, hc, ?_⟩
        have hword := WrittenOut.token hgap hname.lexeme
          (standsApart_of_startsBlank .word hrest) hmore
        rwa [htext] at hword
    | cons second names =>
      obtain ⟨ts, hts, htight, hfirst, hwrite⟩ :=
        @ih (List.cons_ne_nil _ _) hnames "" .nil
      refine ⟨word gap name :: mark "" "." :: ts, .cons hname hts,
        List.forall_mem_cons.mpr ⟨rfl, htight.forall_mem hfirst⟩, ?_, ?_⟩
      · rintro t ⟨⟩
        rfl
      · intro more rest hmore hrest
        obtain ⟨d, ds, hd, hout⟩ := hwrite more rest hmore hrest
        refine ⟨c, cs ++ '.' :: d :: ds, hc, ?_⟩
        have hword := WrittenOut.token hgap hname.lexeme (.cons (by decide)) (hout.point hd)
        rw [htext] at hword
        exact hword

theorem exists_spellsName {names : List String} (hne : names ≠ [])
    (h : ∀ name ∈ names, IsIdentifier name) :
    ∃ ts, SpellsName ts names ∧ Tight ts ∧ Printable (tokensOf ts) := by
  have hgap : Gap " ".toList := .space rfl .nil
  obtain ⟨ts, hts, htight, -, hwrite⟩ := exists_tightName hne h hgap
  refine ⟨ts, hts, htight, fun more rest hmore hrest => ?_⟩
  obtain ⟨c, cs, -, hout⟩ := hwrite more rest hmore hrest
  refine ⟨_, hout, ?_⟩
  rintro d ⟨⟩
  rfl

-- ---------------------------------------------------------------------------
-- Types
-- ---------------------------------------------------------------------------

def ProperName (names : List String) : Prop := names ≠ [] ∧ ∀ name ∈ names, IsIdentifier name

mutual
/-- A type whose primitive types are those of values and whose wildcards are type arguments. -/
inductive ProperType : TypeExpr → Prop
  | primitive {keyword} : keyword ∈ valueTypes → ProperType (.primitive keyword)
  | named {segments args} : ProperName segments → (∀ arg ∈ args, ProperArgument arg) →
      ProperType (.named segments args)
  | array {element} : ProperType element → ProperType (.array element)
inductive ProperArgument : TypeExpr → Prop
  | type {type} : ProperType type → ProperArgument type
  | wildcard : ProperArgument .wildcard
  | bounded {bound} : ProperType bound → ProperArgument (.bounded bound)
end

theorem lexeme_keyword {text : String} (h : text ∈ keywords ∨ text ∈ valueTypes)
    (hsealed : text ≠ "non-sealed") : Lexeme .word text.toList := by
  have hwords : ∀ text ∈ keywords ++ valueTypes, text ≠ "non-sealed" → IsWord text.toList := by
    decide +kernel
  exact (hwords text (List.mem_append.mpr h) hsealed).lexeme

def marks : List String :=
  [".", ",", ";", "<", ">", "?", "*", "@", "(", ")", "[", "]", "\x7b", "\x7d"]

theorem lexeme_mark {text : String} (h : text ∈ marks) : Lexeme .mark text.toList := by
  have hmarks : ∀ text ∈ marks, ∃ c ∈ text.toList.head?,
      isPunctuation c = true ∧ text.toList.tail = [] := by decide
  obtain ⟨c, hc, hpunctuation, htail⟩ := hmarks text h
  generalize text.toList = cs at hc htail ⊢
  cases cs with
  | nil => cases hc
  | cons d ds =>
    cases hc
    cases htail
    exact .mark hpunctuation

theorem exists_spellsArguments {args : List TypeExpr} (hne : args ≠ [])
    (h : ∀ arg ∈ args, ∃ ts, SpellsArgument ts arg ∧ Printable (tokensOf ts)) :
    ∃ ts, SpellsArguments ts args ∧ Printable (tokensOf ts) := by
  induction args with
  | nil => exact absurd rfl hne
  | cons arg args ih =>
    obtain ⟨⟨ts, hts, hprint⟩, hargs⟩ := List.forall_mem_cons.mp h
    cases args with
    | nil =>
      refine ⟨ts ++ [mark " " ">"], .last hts, ?_⟩
      rw [tokensOf_append]
      exact hprint.append (.single (lexeme_mark (by decide)))
    | cons second args =>
      obtain ⟨us, hus, hrest⟩ := ih (List.cons_ne_nil _ _) hargs
      refine ⟨ts ++ mark " " "," :: us, .cons hts hus, ?_⟩
      rw [tokensOf_append]
      exact hprint.append (.cons (lexeme_mark (by decide)) hrest)

mutual
theorem ProperType.exists_spelling {type : TypeExpr} (h : ProperType type) :
    ∃ ts, SpellsType ts type ∧ Printable (tokensOf ts) := by
  match h with
  | @ProperType.primitive keyword h =>
    have hsealed : keyword ≠ "non-sealed" := by
      rintro rfl
      revert h
      decide
    exact ⟨[word " " keyword], .primitive h, .single (lexeme_keyword (.inr h) hsealed)⟩
  | @ProperType.named segments args hsegments hargs =>
    obtain ⟨ts, hts, -, hprint⟩ := exists_spellsName hsegments.1 hsegments.2
    have hall : ∀ arg ∈ args, ∃ us, SpellsArgument us arg ∧ Printable (tokensOf us) :=
      fun arg harg => (hargs arg harg).exists_spelling
    cases args with
    | nil => exact ⟨ts, .named hts, hprint⟩
    | cons arg args =>
      obtain ⟨us, hus, hlist⟩ := exists_spellsArguments (List.cons_ne_nil arg args) hall
      refine ⟨ts ++ mark " " "<" :: us, .generic hts hus, ?_⟩
      rw [tokensOf_append]
      exact hprint.append (.cons (lexeme_mark (by decide)) hlist)
  | .array h =>
    obtain ⟨ts, hts, hprint⟩ := h.exists_spelling
    refine ⟨ts ++ [square " " " "], .array hts, ?_⟩
    rw [tokensOf_append]
    exact hprint.append (.cons (lexeme_mark (by decide)) (.single (lexeme_mark (by decide))))
theorem ProperArgument.exists_spelling {arg : TypeExpr} (h : ProperArgument arg) :
    ∃ ts, SpellsArgument ts arg ∧ Printable (tokensOf ts) := by
  match h with
  | .type h =>
    obtain ⟨ts, hts, hprint⟩ := h.exists_spelling
    exact ⟨ts, .type hts, hprint⟩
  | .wildcard => exact ⟨[mark " " "?"], .wildcard, .single (lexeme_mark (by decide))⟩
  | .bounded h =>
    obtain ⟨ts, hts, hprint⟩ := h.exists_spelling
    exact ⟨mark " " "?" :: word " " "extends" :: ts, .bounded (by decide) hts,
      .cons (lexeme_mark (by decide)) (.cons (lexeme_keyword (by decide) (by decide)) hprint)⟩
end

-- ---------------------------------------------------------------------------
-- Fields and enum constants
-- ---------------------------------------------------------------------------

structure ProperField (field : WrittenField) : Prop where
  name : IsIdentifier field.name
  type : ProperType field.type

def ProperLiteral (argument : Argument) : Prop := ∃ token, SpellsLiteral token argument

structure ProperConstant (constant : EnumConstant) : Prop where
  name : IsIdentifier constant.name
  arguments : ∀ arguments ∈ constant.arguments, ∀ argument ∈ arguments, ProperLiteral argument

theorem exists_spellsModifiers (visibility : Visibility) :
    ∃ ms, SpellsModifiers ms (accessWords visibility) ∧ Printable (tokensOf ms) := by
  have hword {word : String} (h : word ∈ modifiers) (hkeyword : word ∈ keywords)
      (hsealed : word ≠ "non-sealed") :
      ∃ ms, SpellsModifiers ms [word] ∧ Printable (tokensOf ms) :=
    ⟨[Tree.word " " word], .word h .nil, .single (lexeme_keyword (.inl hkeyword) hsealed)⟩
  cases visibility with
  | packageAccess => exact ⟨[], .nil, .nil⟩
  | publicAccess | protectedAccess | privateAccess =>
    exact hword (by decide) (by decide) (by decide)

theorem ProperField.exists_spelling {field : WrittenField} (h : ProperField field) :
    ∃ ts, SpellsFields ts [field] ∧ Printable (tokensOf ts) := by
  obtain ⟨ms, hms, hmodifiers⟩ := exists_spellsModifiers field.visibility
  obtain ⟨ts, hts, htype⟩ := h.type.exists_spelling
  have haccess : (accessWords field.visibility).filter isAccessWord =
      accessWords field.visibility := by
    cases field.visibility <;> rfl
  have hname : SpellsDeclarators field.type field.visibility [word " " field.name] [field] :=
    @SpellsDeclarators.last _ _ " " _ [] h.name
  refine ⟨ms ++ (ts ++ [word " " field.name]), .intro hms haccess hts hname, ?_⟩
  rw [tokensOf_append, tokensOf_append]
  exact hmodifiers.append (htype.append (.single h.name.lexeme))

theorem SpellsLiteral.exists_printable {token : Token} {literal : Argument}
    (h : SpellsLiteral token literal) :
    ∃ token, SpellsLiteral token literal ∧ Printable [token] := by
  cases h with
  | integer h => exact ⟨_, .integer h, .single h⟩
  | float h => exact ⟨_, .float h, .single h⟩
  | char h => exact ⟨_, .char h, .single h⟩
  | string h => exact ⟨_, .string h, .single h⟩
  | @boolean _ text h =>
    have hwords : ∀ text ∈ ["true", "false"], text ∈ keywords ∧ text ≠ "non-sealed" := by decide
    obtain ⟨hkeyword, hsealed⟩ := hwords text h
    exact ⟨_, .boolean h, .single (lexeme_keyword (.inl hkeyword) hsealed)⟩
  | null => exact ⟨_, .null, .single (lexeme_keyword (.inl (by decide)) (by decide))⟩

theorem exists_spellsLiterals {literals : List Argument} (hne : literals ≠ [])
    (h : ∀ literal ∈ literals, ProperLiteral literal) :
    ∃ ts, SpellsLiterals ts literals ∧ Printable (tokensOf ts) := by
  induction literals with
  | nil => exact absurd rfl hne
  | cons literal literals ih =>
    obtain ⟨⟨_, hliteral⟩, hliterals⟩ := List.forall_mem_cons.mp h
    obtain ⟨token, htoken, hprint⟩ := hliteral.exists_printable
    cases literals with
    | nil => exact ⟨[leaf token], .last htoken, hprint⟩
    | cons second literals =>
      obtain ⟨ts, hts, hrest⟩ := ih (List.cons_ne_nil _ _) hliterals
      exact ⟨leaf token :: mark " " "," :: ts, .cons htoken hts,
        hprint.append (.cons (lexeme_mark (by decide)) hrest)⟩

theorem ProperConstant.exists_spelling {constant : EnumConstant} (h : ProperConstant constant) :
    ∃ ts, SpellsConstant ts constant ∧ Printable (tokensOf ts) := by
  obtain ⟨name, arguments⟩ := constant
  have hopen : Lexeme .mark "(".toList := lexeme_mark (by decide)
  have hclose : Printable [⟨" ", .mark, ")"⟩] := .single (lexeme_mark (by decide))
  match arguments with
  | none => exact ⟨[word " " name], .plain .nil h.name, .single h.name.lexeme⟩
  | some [] =>
    exact ⟨[word " " name, round " " [] " "], .noArguments .nil h.name,
      .cons h.name.lexeme (.cons hopen hclose)⟩
  | some (first :: others) =>
    obtain ⟨ts, hts, hprint⟩ :=
      exists_spellsLiterals (List.cons_ne_nil first others) (h.arguments _ rfl)
    refine ⟨[word " " name, round " " ts " "], .arguments .nil h.name hts, ?_⟩
    have htokens : tokensOf [word " " name, round " " ts " "] =
        ⟨" ", .word, name⟩ :: ⟨" ", .mark, "("⟩ :: (tokensOf ts ++ [⟨" ", .mark, ")"⟩]) := by
      simp [tokensOf, tokens]
    rw [htokens]
    exact .cons h.name.lexeme (.cons hopen (hprint.append hclose))

theorem exists_spellsConstants {constants : List EnumConstant}
    (h : ∀ constant ∈ constants, ProperConstant constant) :
    ∃ ts, SpellsConstants ts constants ∧ Printable (tokensOf ts) := by
  induction constants with
  | nil => exact ⟨[], .nil, .nil⟩
  | cons constant constants ih =>
    obtain ⟨hconstant, hconstants⟩ := List.forall_mem_cons.mp h
    obtain ⟨ts, hts, hprint⟩ := hconstant.exists_spelling
    obtain ⟨us, hus, hrest⟩ := ih hconstants
    refine ⟨ts ++ mark " " "," :: us, .cons hts hus, ?_⟩
    rw [tokensOf_append]
    exact hprint.append (.cons (lexeme_mark (by decide)) hrest)

-- ---------------------------------------------------------------------------
-- Type declarations
-- ---------------------------------------------------------------------------

inductive ProperKind : WrittenKind → Prop
  | classType {superclass fields} : (∀ type ∈ superclass, ProperType type) →
      (∀ field ∈ fields, ProperField field) → ProperKind (.classType superclass fields)
  | enumType {constants} : (∀ constant ∈ constants, ProperConstant constant) →
      ProperKind (.enumType constants)
  | interfaceType : ProperKind .interfaceType
  | annotationType : ProperKind .annotationType
  | recordType : ProperKind .recordType

inductive ProperDeclaration : WrittenType → Prop
  | intro {name kind nested} : IsIdentifier name → ProperKind kind →
      (∀ type ∈ nested, ProperDeclaration type) → ProperDeclaration (.mk name kind nested)

theorem exists_spellsBody {fields : List WrittenField} {nested : List WrittenType}
    (hfields : ∀ field ∈ fields, ProperField field)
    (hnested : ∀ type ∈ nested, ∃ ts, SpellsDeclaration ts type ∧ Printable (tokensOf ts)) :
    ∃ ts, SpellsBody ts fields nested ∧ Printable (tokensOf ts) := by
  induction fields with
  | nil =>
    induction nested with
    | nil => exact ⟨[], .nil, .nil⟩
    | cons type nested ih =>
      obtain ⟨⟨ts, hts, hprint⟩, htypes⟩ := List.forall_mem_cons.mp hnested
      obtain ⟨us, hus, hrest⟩ := ih htypes
      refine ⟨ts ++ us, .type hts hus, ?_⟩
      rw [tokensOf_append]
      exact hprint.append hrest
  | cons field fields ih =>
    obtain ⟨hfield, hothers⟩ := List.forall_mem_cons.mp hfields
    obtain ⟨ts, hts, hprint⟩ := hfield.exists_spelling
    obtain ⟨us, hus, hrest⟩ := ih hothers
    refine ⟨ts ++ mark " " ";" :: us, .fields hts hus, ?_⟩
    rw [tokensOf_append]
    exact hprint.append (.cons (lexeme_mark (by decide)) hrest)

/-- Modifiers may be left out, so a head and a block make a declaration. -/
theorem exists_spellsDeclaration {hs inner : List Tree} {name : String} {head : HeadKind}
    {kind : WrittenKind} {nested : List WrittenType} (hhead : SpellsHead hs name head)
    (hwords : Printable (tokensOf hs)) (hblock : SpellsBlock head inner kind nested)
    (hinner : Printable (tokensOf inner)) :
    ∃ ts, SpellsDeclaration ts (.mk name kind nested) ∧ Printable (tokensOf ts) := by
  refine ⟨[] ++ (hs ++ [curly " " inner " "]), .intro .nil hhead hblock, ?_⟩
  have htokens : tokensOf ([] ++ (hs ++ [curly " " inner " "])) =
      tokensOf hs ++ ⟨" ", .mark, "\x7b"⟩ :: (tokensOf inner ++ [⟨" ", .mark, "\x7d"⟩]) := by
    simp [tokensOf_append, tokensOf, tokens]
  rw [htokens]
  exact hwords.append (.cons (lexeme_mark (by decide))
    (hinner.append (.single (lexeme_mark (by decide)))))

theorem printable_interface : Printable [⟨" ", .mark, "@"⟩, ⟨"", .word, "interface"⟩] := by
  intro more rest hmore hrest
  have hword := @WrittenOut.token "" "interface" .word _ _ .nil
    (lexeme_keyword (.inl (by decide)) (by decide)) (standsApart_of_startsBlank .word hrest) hmore
  have hgap : Gap " ".toList := .space rfl .nil
  have hat := @WrittenOut.token " " "@" .mark _ _ hgap (lexeme_mark (by decide))
    (standsApart_mark (by decide) (by decide) (by decide)) hword
  refine ⟨_, hat, ?_⟩
  rintro c ⟨⟩
  rfl

theorem ProperDeclaration.exists_spelling {type : WrittenType} (h : ProperDeclaration type) :
    ∃ ts, SpellsDeclaration ts type ∧ Printable (tokensOf ts) := by
  match h with
  | @ProperDeclaration.intro name kind nested hname hkind hnested =>
    have hall : ∀ type ∈ nested, ∃ ts, SpellsDeclaration ts type ∧ Printable (tokensOf ts) :=
      fun type htype => (hnested type htype).exists_spelling
    have hwords {keyword : String} (hkeyword : keyword ∈ keywords)
        (hsealed : keyword ≠ "non-sealed") {more : List Token} (hmore : Printable more) :
        Printable (⟨" ", .word, keyword⟩ :: ⟨" ", .word, name⟩ :: more) :=
      .cons (lexeme_keyword (.inl hkeyword) hsealed) (.cons hname.lexeme hmore)
    obtain ⟨ts, hts, hprint⟩ := exists_spellsBody (List.forall_mem_nil _) hall
    cases hkind with
    | @classType superclass fields hsuper hfields =>
      obtain ⟨us, hus, hbody⟩ := exists_spellsBody hfields hall
      cases superclass with
      | none =>
        exact exists_spellsDeclaration (.classHead hname .none)
          (hwords (by decide) (by decide) .nil) (.classBlock hus) hbody
      | some type =>
        obtain ⟨ss, hss, htype⟩ := (hsuper type rfl).exists_spelling
        exact exists_spellsDeclaration (.classHead hname (.some hss))
          (hwords (by decide) (by decide)
            (.cons (lexeme_keyword (.inl (by decide)) (by decide)) htype))
          (.classBlock hus) hbody
    | enumType hconstants =>
      obtain ⟨cs, hcs, hlist⟩ := exists_spellsConstants hconstants
      refine exists_spellsDeclaration (.enumHead hname) (hwords (by decide) (by decide) .nil)
        (@SpellsBlock.enumBlock cs _ " " ts [] nested hcs hts) ?_
      rw [tokensOf_append]
      exact hlist.append (.cons (lexeme_mark (by decide)) hprint)
    | interfaceType =>
      exact exists_spellsDeclaration (.interfaceHead hname)
        (hwords (by decide) (by decide) .nil) (.interfaceBlock hts) hprint
    | annotationType =>
      exact exists_spellsDeclaration (.annotationHead hname)
        (printable_interface.append (.single hname.lexeme)) (.annotationBlock hts) hprint
    | recordType =>
      exact exists_spellsDeclaration (@SpellsHead.recordHead _ _ _ _ [] _ hname trivial)
        (hwords (by decide) (by decide)
          (.cons (lexeme_mark (by decide)) (.single (lexeme_mark (by decide)))))
        (.recordBlock hts) hprint

-- ---------------------------------------------------------------------------
-- Source units
-- ---------------------------------------------------------------------------

inductive ProperImport : Import → Prop
  | single {names} : ProperName names → ProperImport (.single (Text.join "." names))
  | onDemand {names} : ProperName names → ProperImport (.onDemand (Text.join "." names))

structure ProperUnit (unit : SourceUnit) : Prop where
  package : ∀ package ∈ unit.package, ∃ names, ProperName names ∧ package = Text.join "." names
  imports : ∀ imported ∈ unit.imports, ProperImport imported
  types : ∀ type ∈ unit.types, ProperDeclaration type

theorem exists_spellsPackage {package : Option String}
    (h : ∀ name ∈ package, ∃ names, ProperName names ∧ name = Text.join "." names) :
    ∃ ts, SpellsPackage ts package ∧ Printable (tokensOf ts) := by
  cases package with
  | none => exact ⟨[], .none, .nil⟩
  | some package =>
    obtain ⟨names, hnames, rfl⟩ := h package rfl
    obtain ⟨ts, hts, htight, hprint⟩ := exists_spellsName hnames.1 hnames.2
    refine ⟨word " " "package" :: (ts ++ [mark " " ";"]), .some hts htight, ?_⟩
    rw [tokensOf, tokensOf_append]
    exact .cons (lexeme_keyword (.inl (by decide)) (by decide))
      (hprint.append (.single (lexeme_mark (by decide))))

theorem exists_spellsImports {imports : List Import}
    (h : ∀ imported ∈ imports, ProperImport imported) :
    ∃ ts, SpellsImports ts imports ∧ Printable (tokensOf ts) := by
  induction imports with
  | nil => exact ⟨[], .nil, .nil⟩
  | cons imported imports ih =>
    obtain ⟨himported, himports⟩ := List.forall_mem_cons.mp h
    obtain ⟨us, hus, hrest⟩ := ih himports
    have hend : Printable (⟨" ", .mark, ";"⟩ :: tokensOf us) :=
      .cons (lexeme_mark (by decide)) hrest
    cases himported with
    | single hnames =>
      obtain ⟨ts, hts, htight, hprint⟩ := exists_spellsName hnames.1 hnames.2
      refine ⟨word " " "import" :: (ts ++ mark " " ";" :: us), .single hts htight hus, ?_⟩
      rw [tokensOf, tokensOf_append]
      exact .cons (lexeme_keyword (.inl (by decide)) (by decide)) (hprint.append hend)
    | onDemand hnames =>
      obtain ⟨ts, hts, htight, hprint⟩ := exists_spellsName hnames.1 hnames.2
      refine ⟨word " " "import" ::
        (ts ++ mark " " "." :: mark " " "*" :: mark " " ";" :: us), .onDemand hts htight hus, ?_⟩
      rw [tokensOf, tokensOf_append]
      exact .cons (lexeme_keyword (.inl (by decide)) (by decide))
        (hprint.append (.cons (lexeme_mark (by decide)) (.cons (lexeme_mark (by decide)) hend)))

theorem ProperUnit.exists_spelled {unit : SourceUnit} (h : ProperUnit unit) :
    ∃ text, Spelled text unit := by
  obtain ⟨ps, hps, hpackage⟩ := exists_spellsPackage h.package
  obtain ⟨us, hus, himports⟩ := exists_spellsImports h.imports
  obtain ⟨ts, hts, htypes⟩ := exists_spellsBody (List.forall_mem_nil _)
    fun type htype => (h.types type htype).exists_spelling
  have hprint : Printable (tokensOf (ps ++ (us ++ ts))) := by
    rw [tokensOf_append, tokensOf_append]
    exact hpackage.append (himports.append htypes)
  obtain ⟨text, htext⟩ := hprint.exists_text
  exact ⟨text, ps ++ (us ++ ts), .intro hps hus hts, htext⟩

/-- Reading is the inverse of spelling: some text spells a proper unit, and whatever text does is
read as that unit. -/
theorem readUnit_spelled {unit : SourceUnit} (h : ProperUnit unit) :
    (∃ text, Spelled text unit) ∧ ∀ text, Spelled text unit → readUnit text = unit :=
  ⟨h.exists_spelled, fun _ => readUnit_of_spelled⟩

-- ---------------------------------------------------------------------------
-- A sample
-- ---------------------------------------------------------------------------

def sampleUnit : SourceUnit where
  package := some "a.b"
  imports := [.single "a.D", .onDemand "a"]
  types := [.mk "C"
    (.classType (some (.named ["D"] [.bounded (.named ["E"] [])]))
      [⟨"c", .array (.named ["a", "B"] [.array (.primitive "int"), .wildcard]), .protectedAccess⟩,
        ⟨"d", .named ["a", "B"] [.array (.primitive "int"), .wildcard], .protectedAccess⟩])
    [.mk "F" (.enumType [⟨"G", some [.literal .integer "1", .literal .string "\"d\""]⟩,
        ⟨"H", none⟩]) [.mk "I" .recordType []],
      .mk "A" .annotationType []]]

def sampleLines : List String :=
  ["package a.b; /* e */import a.D;import a. *;",
    "\n@A(\"\") abstract class C extends D<? super E> \x7b",
    "\nprotected static a.B<int[], ?> c[], d;",
    " // f\nenum F \x7b @A G(1, \"d\"), H; record I() \x7b\x7d\x7d",
    "\n@interface A \x7b\x7d\n\x7d\n"]

def sampleSource : String := String.join sampleLines

def samplePackage : List Tree :=
  [.word "" "package", .word " " "a", .mark "" ".", .word "" "b", .mark "" ";"]

def sampleImports : List Tree :=
  [.word " /* e */" "import", .word " " "a", .mark "" ".", .word "" "D", .mark "" ";",
    .word "" "import", .word " " "a", .mark "" ".", .mark " " "*", .mark "" ";"]

def sampleModifiers : List Tree :=
  [.mark "\n" "@", .word "" "A", .round "" [.leaf ⟨"", .string, "\"\""⟩] "", .word " " "abstract"]

def sampleHead : List Tree :=
  [.word " " "class", .word " " "C", .word " " "extends", .word " " "D", .mark "" "<",
    .mark "" "?", .word " " "super", .word " " "E", .mark "" ">"]

def sampleFields : List Tree :=
  [.word "\n" "protected", .word " " "static",
    .word " " "a", .mark "" ".", .word "" "B", .mark "" "<", .word "" "int", .square "" "",
    .mark "" ",", .mark " " "?", .mark "" ">",
    .word " " "c", .square "" "", .mark "" ",", .word " " "d"]

def sampleConstants : List Tree :=
  [.mark " " "@", .word "" "A", .word " " "G",
    .round "" [.leaf ⟨"", .integer, "1"⟩, .mark "" ",", .leaf ⟨" ", .string, "\"d\""⟩] "",
    .mark "" ",", .word " " "H"]

def sampleTypes : List Tree :=
  [.word " // f\n" "enum", .word " " "F",
    .curly " " (sampleConstants ++ .mark "" ";" ::
      [.word " " "record", .word " " "I", .round "" [] "", .curly " " [] ""]) "",
    .mark "\n" "@", .word "" "interface", .word " " "A", .curly " " [] ""]

def sampleTrees : List Tree :=
  samplePackage ++ (sampleImports ++ (sampleModifiers ++ (sampleHead ++
    [.curly " " (sampleFields ++ .mark "" ";" :: sampleTypes) "\n"])))

theorem isIdentifier_sample :
    ∀ name ∈ ["a", "b", "c", "d", "A", "B", "C", "D", "E", "F", "G", "H", "I"],
      IsIdentifier name := by
  have hchecks : ∀ name ∈ ["a", "b", "c", "d", "A", "B", "C", "D", "E", "F", "G", "H", "I"],
      IsWord name.toList ∧ (∀ c ∈ name.toList, Text.isBlank c = false) ∧ name ∉ keywords := by
    decide +kernel
  intro name hname
  obtain ⟨hword, hblank, hkeyword⟩ := hchecks name hname
  exact ⟨hword.lexeme, hblank, hkeyword⟩

theorem lexeme_sample_integer : Lexeme .integer "1".toList :=
  .integer (@IntegerText.decimal ['1'] [] ⟨'1', [], rfl, rfl, List.forall_mem_nil _⟩ (by decide))

theorem lexeme_sample_string : Lexeme .string "\"d\"".toList :=
  .string (.char (by decide) (by decide) .close)

theorem properUnit_sample : ProperUnit sampleUnit := by
  have hname (name : String)
      (h : name ∈ ["a", "b", "c", "d", "A", "B", "C", "D", "E", "F", "G", "H", "I"]) :=
    isIdentifier_sample name h
  have hsingle {name : String} (h : IsIdentifier name) : ProperName [name] :=
    ⟨by simp, List.forall_mem_singleton.mpr h⟩
  have hpair {first second : String} (hfirst : IsIdentifier first)
      (hsecond : IsIdentifier second) : ProperName [first, second] :=
    ⟨by simp, List.forall_mem_cons.mpr ⟨hfirst, List.forall_mem_singleton.mpr hsecond⟩⟩
  have htype : ProperType (.named ["a", "B"] [.array (.primitive "int"), .wildcard]) :=
    .named (hpair (hname "a" (by decide)) (hname "B" (by decide))) (List.forall_mem_cons.mpr
      ⟨.type (.array (.primitive (by decide))), List.forall_mem_singleton.mpr .wildcard⟩)
  have hsuper : ProperType (.named ["D"] [.bounded (.named ["E"] [])]) :=
    .named (hsingle (hname "D" (by decide))) (List.forall_mem_singleton.mpr
      (.bounded (.named (hsingle (hname "E" (by decide))) (List.forall_mem_nil _))))
  have hconstants : ∀ constant ∈ [(⟨"G", some [.literal .integer "1", .literal .string "\"d\""]⟩ :
      EnumConstant), ⟨"H", none⟩], ProperConstant constant := by
    refine List.forall_mem_cons.mpr ⟨⟨hname "G" (by decide), ?_⟩,
      List.forall_mem_singleton.mpr ⟨hname "H" (by decide), by rintro _ ⟨⟩⟩⟩
    rintro _ ⟨⟩
    exact List.forall_mem_cons.mpr ⟨⟨⟨"", .integer, "1"⟩, .integer lexeme_sample_integer⟩,
      List.forall_mem_singleton.mpr ⟨⟨"", .string, "\"d\""⟩, .string lexeme_sample_string⟩⟩
  refine ⟨?_, ?_, ?_⟩
  · rintro _ ⟨⟩
    exact ⟨["a", "b"], hpair (hname "a" (by decide)) (hname "b" (by decide)), rfl⟩
  · exact List.forall_mem_cons.mpr
      ⟨@ProperImport.single ["a", "D"] (hpair (hname "a" (by decide)) (hname "D" (by decide))),
        List.forall_mem_singleton.mpr
          (@ProperImport.onDemand ["a"] (hsingle (hname "a" (by decide))))⟩
  · refine List.forall_mem_singleton.mpr
      (.intro (hname "C" (by decide)) (.classType ?_ ?_) (List.forall_mem_cons.mpr
        ⟨.intro (hname "F" (by decide)) (.enumType hconstants) ?_, ?_⟩))
    · rintro _ ⟨⟩
      exact hsuper
    · exact List.forall_mem_cons.mpr ⟨⟨hname "c" (by decide), .array htype⟩,
        List.forall_mem_singleton.mpr ⟨hname "d" (by decide), htype⟩⟩
    · exact List.forall_mem_singleton.mpr
        (.intro (hname "I" (by decide)) .recordType (List.forall_mem_nil _))
    · exact List.forall_mem_singleton.mpr
        (.intro (hname "A" (by decide)) .annotationType (List.forall_mem_nil _))

theorem writtenOut_sample : WrittenOut (tokensOf sampleTrees) sampleSource.toList := by
  have htext : sampleSource.toList = written "\n".toList (tokensOf sampleTrees) :=
    String.toList_join.trans (by decide +kernel)
  have hgap : ∀ gap ∈ ["", " ", "\n", " /* e */", " // f\n"], Gap gap.toList := by
    simp only [List.mem_cons, List.not_mem_nil, or_false]
    rintro gap (rfl | rfl | rfl | rfl | rfl)
    · exact .nil
    · exact .space rfl .nil
    · exact .space rfl .nil
    · exact .space rfl (@Gap.blockComment " e ".toList [] (by decide) .nil)
    · exact .space rfl (@Gap.lineComment " f".toList [] (by decide) .nil)
  have hgaps : ∀ t ∈ tokensOf sampleTrees, t.gap ∈ ["", " ", "\n", " /* e */", " // f\n"] := by
    decide +kernel
  have htexts : ∀ t ∈ tokensOf sampleTrees,
      t.kind = .word ∧ IsWord t.text.toList ∨ t.kind = .mark ∧ t.text ∈ marks ∨
        (t.kind, t.text) ∈ [(.integer, "1"), (.string, "\"d\""), (.string, "\"\"")] := by
    decide +kernel
  rw [htext]
  refine writtenOut_written (.closed (hgap "\n" (by decide))) (fun t ht => hgap _ (hgaps t ht))
    (fun t ht => ?_) (by decide +kernel)
  rcases htexts t ht with ⟨hkind, hword⟩ | ⟨hkind, hmark⟩ | hliteral
  · exact hkind ▸ hword.lexeme
  · exact hkind ▸ lexeme_mark hmark
  · simp only [List.mem_cons, List.not_mem_nil, or_false, Prod.mk.injEq] at hliteral
    obtain ⟨hkind, htext⟩ | ⟨hkind, htext⟩ | ⟨hkind, htext⟩ := hliteral <;> rw [hkind, htext]
    · exact lexeme_sample_integer
    · exact lexeme_sample_string
    · exact .string .close

theorem spellsPackage_sample : SpellsPackage samplePackage (some "a.b") := by
  have hname : SpellsName [word " " "a", mark "" ".", word "" "b"] ["a", "b"] :=
    .cons (isIdentifier_sample "a" (by decide)) (.last (isIdentifier_sample "b" (by decide)))
  exact .some hname (by simp [Tight, tokensOf, tokens])

theorem spellsImports_sample :
    SpellsImports sampleImports [.single "a.D", .onDemand "a"] := by
  have ha := isIdentifier_sample "a" (by decide)
  have hsingle : SpellsName [word " " "a", mark "" ".", word "" "D"] ["a", "D"] :=
    .cons ha (.last (isIdentifier_sample "D" (by decide)))
  have honDemand : SpellsName [word " " "a"] ["a"] := .last ha
  exact .single hsingle (by simp [Tight, tokensOf, tokens])
    (.onDemand honDemand (by simp [Tight, tokensOf, tokens]) .nil)

theorem spellsFields_sample : SpellsFields sampleFields
    [⟨"c", .array (.named ["a", "B"] [.array (.primitive "int"), .wildcard]), .protectedAccess⟩,
      ⟨"d", .named ["a", "B"] [.array (.primitive "int"), .wildcard], .protectedAccess⟩] := by
  have hmodifiers : SpellsModifiers [word "\n" "protected", word " " "static"]
      ["protected", "static"] := .word (by decide) (.word (by decide) .nil)
  have hname : SpellsName [word " " "a", mark "" ".", word "" "B"] ["a", "B"] :=
    .cons (isIdentifier_sample "a" (by decide)) (.last (isIdentifier_sample "B" (by decide)))
  have hint : SpellsType [word "" "int", square "" ""] (.array (.primitive "int")) :=
    @SpellsType.array [word "" "int"] _ _ _ (.primitive (by decide))
  have hargs : SpellsArguments
      [word "" "int", square "" "", mark "" ",", mark " " "?", mark "" ">"]
      [.array (.primitive "int"), .wildcard] :=
    @SpellsArguments.cons [word "" "int", square "" ""] _ _ _ _ (.type hint)
      (@SpellsArguments.last [mark " " "?"] _ _ .wildcard)
  have hdeclarators := @SpellsDeclarators.cons
    (.named ["a", "B"] [.array (.primitive "int"), .wildcard]) .protectedAccess
    " " "c" "" _ _ [("", "")] (isIdentifier_sample "c" (by decide))
    (@SpellsDeclarators.last _ _ " " "d" [] (isIdentifier_sample "d" (by decide)))
  exact .intro hmodifiers (by decide) (.generic hname hargs) hdeclarators

theorem spellsMarker_sample (gap : String) : SpellsMarker [mark gap "@", word "" "A"] :=
  .intro (.last (isIdentifier_sample "A" (by decide))) fun _ => by decide

theorem spellsConstants_sample : SpellsConstants sampleConstants
    [⟨"G", some [.literal .integer "1", .literal .string "\"d\""]⟩, ⟨"H", none⟩] := by
  have hliterals : SpellsLiterals
      [.leaf ⟨"", .integer, "1"⟩, mark "" ",", .leaf ⟨" ", .string, "\"d\""⟩]
      [.literal .integer "1", .literal .string "\"d\""] :=
    .cons (.integer lexeme_sample_integer) (.last (.string lexeme_sample_string))
  have hmodifiers : SpellsModifiers [mark " " "@", word "" "A"] [] :=
    .marker (spellsMarker_sample " ") .nil
  exact .cons (.arguments hmodifiers (isIdentifier_sample "G" (by decide)) hliterals)
    (.last (.plain .nil (isIdentifier_sample "H" (by decide))))

theorem spellsTypes_sample : SpellsBody sampleTypes []
    [.mk "F" (.enumType [⟨"G", some [.literal .integer "1", .literal .string "\"d\""]⟩,
        ⟨"H", none⟩]) [.mk "I" .recordType []],
      .mk "A" .annotationType []] := by
  have hrecord := @SpellsDeclaration.intro [] [] _ _ _ " " _ "" _ _ .nil
    (@SpellsHead.recordHead " " " " "I" "" [] "" (isIdentifier_sample "I" (by decide)) trivial)
    (.recordBlock .nil)
  have henum := @SpellsDeclaration.intro [] [] _ _ _ " " _ "" _ _ .nil
    (@SpellsHead.enumHead " // f\n" " " "F" (isIdentifier_sample "F" (by decide)))
    (@SpellsBlock.enumBlock _ _ "" _ _ _ spellsConstants_sample (.type hrecord .nil))
  have hannotation := @SpellsDeclaration.intro [] [] _ _ _ " " _ "" _ _ .nil
    (@SpellsHead.annotationHead "\n" " " "A" (isIdentifier_sample "A" (by decide)))
    (.annotationBlock .nil)
  exact .type henum (.type hannotation .nil)

theorem spellsUnit_sample : SpellsUnit sampleTrees sampleUnit := by
  have hmodifiers : SpellsModifiers sampleModifiers ["abstract"] :=
    .arguments (spellsMarker_sample "\n") ⟨nofun, trivial⟩ (.word (by decide) .nil)
  have hsuper : SpellsType [word " " "D", mark "" "<", mark "" "?", word " " "super",
      word " " "E", mark "" ">"] (.named ["D"] [.bounded (.named ["E"] [])]) :=
    .generic (.last (isIdentifier_sample "D" (by decide)))
      (@SpellsArguments.last [mark "" "?", word " " "super", word " " "E"] _ _
        (.bounded (by decide) (.named (.last (isIdentifier_sample "E" (by decide))))))
  have hhead : SpellsHead sampleHead "C"
      (.classHead (some (.named ["D"] [.bounded (.named ["E"] [])]))) :=
    .classHead (isIdentifier_sample "C" (by decide)) (.some hsuper)
  have hclass := @SpellsDeclaration.intro _ _ _ _ _ " " _ "\n" _ _ hmodifiers hhead
    (.classBlock (@SpellsBody.fields _ _ "" _ _ _ spellsFields_sample spellsTypes_sample))
  exact @SpellsUnit.intro _ _ _ _ _ _ spellsPackage_sample spellsImports_sample
    (@SpellsBody.type _ _ [] _ _ hclass .nil)

theorem readUnit_spelled_sample : ProperUnit sampleUnit ∧ Spelled sampleSource sampleUnit ∧
    readUnit sampleSource = sampleUnit := by
  have hspelled : Spelled sampleSource sampleUnit :=
    ⟨sampleTrees, spellsUnit_sample, writtenOut_sample⟩
  exact ⟨properUnit_sample, hspelled, (readUnit_spelled properUnit_sample).2 _ hspelled⟩

end TypeWeave.Java
