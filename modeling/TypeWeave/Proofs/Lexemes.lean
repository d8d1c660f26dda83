import Mathlib.Data.List.Find
import TypeWeave.Proofs.Literals

/-!
# Tokens written out

A text is a sequence of tokens written out (`WrittenOut`) if it consists of them in order, each with
its gap in front, and no token runs into what follows it. What a token of some kind is made of is
said by its characters (`Lexeme`). The tokens of such a text are those it was written from
(`tokenize_of_writtenOut`).
-/

namespace TypeWeave.Java

-- ---------------------------------------------------------------------------
-- Tokens
-- ---------------------------------------------------------------------------

def isPunctuation (c : Char) : Bool :=
  !isSpace c && !isWordChar c && c != '"' && c != '\''

/-- The text of a token of this kind. A word does not start with a byte order mark, although that is
a letter to the scanner. -/
inductive Lexeme : TokenKind → List Char → Prop
  | word {c cs} : isWordStart c = true → c.toNat ≠ 0xFEFF → (∀ d ∈ cs, isWordChar d = true) →
      Lexeme .word (c :: cs)
  | integer {text} : IntegerText text → Lexeme .integer text
  | float {text} : FloatText text → Lexeme .float text
  | char {body} : Quoted '\'' body → Lexeme .char ('\'' :: body)
  | string {body} : Quoted '"' body → Lexeme .string ('"' :: body)
  | textBlock {body} : TextBlock .fresh body → Lexeme .string ('"' :: '"' :: '"' :: body)
  | operator {operator} : operator ∈ operators → Lexeme .mark operator.toList
  | mark {c} : isPunctuation c = true → Lexeme .mark [c]

def IsWord (text : List Char) : Prop :=
  (∃ c ∈ text.head?, isWordStart c = true ∧ c.toNat ≠ 0xFEFF) ∧
    ∀ d ∈ text.tail, isWordChar d = true

instance (text : List Char) : Decidable (IsWord text) := inferInstanceAs (Decidable (_ ∧ _))

theorem IsWord.lexeme {text : List Char} (h : IsWord text) : Lexeme .word text := by
  obtain ⟨⟨c, hc, hstart, hmark⟩, hrest⟩ := h
  cases text with
  | nil => cases hc
  | cons d ds =>
    cases hc
    exact .word hstart hmark hrest

/-- The token does not run into the text after it. -/
def StandsApart (kind : TokenKind) (text rest : List Char) : Prop :=
  match kind with
  | .word => Clear isWordChar rest
  | .integer | .float => Clear continuesNumber rest ∧ NoSign text rest
  | .char => True
  | .string => Clear (· = '"') rest
  | .mark =>
    (∀ operator ∈ operators, operator.toList <+: text ++ rest →
      operator.toList.length ≤ text.length) ∧
    (text = ['/'] → Clear (fun c => c = '/' || c = '*') rest) ∧
    (text = ['.'] → Clear Char.isDigit rest)

/-- The text is the tokens in order, with their gaps, and ends in a gap. -/
inductive WrittenOut : List Token → List Char → Prop
  | nil {gap} : LastGap gap → WrittenOut [] gap
  | cons {gap kind text tokens rest} : Gap gap → Lexeme kind text → StandsApart kind text rest →
      WrittenOut tokens rest →
      WrittenOut (⟨String.ofList gap, kind, String.ofList text⟩ :: tokens) (gap ++ (text ++ rest))

theorem WrittenOut.token {gap text : String} {kind : TokenKind} {tokens : List Token}
    {rest : List Char} (hgap : Gap gap.toList) (htext : Lexeme kind text.toList)
    (hapart : StandsApart kind text.toList rest) (h : WrittenOut tokens rest) :
    WrittenOut (⟨gap, kind, text⟩ :: tokens) (gap.toList ++ (text.toList ++ rest)) := by
  have hcons := WrittenOut.cons hgap htext hapart h
  rwa [String.ofList_toList, String.ofList_toList] at hcons

-- Whether given tokens stand apart can be evaluated.

instance (p : Char → Bool) (rest : List Char) : Decidable (Clear p rest) :=
  inferInstanceAs (Decidable (∀ c ∈ rest.head?, p c = false))

instance (text rest : List Char) : Decidable (NoSign text rest) :=
  inferInstanceAs (Decidable (_ ∨ ∀ c ∈ text.getLast?, c ≠ 'e' ∧ c ≠ 'E'))

instance (kind : TokenKind) (text rest : List Char) : Decidable (StandsApart kind text rest) := by
  cases kind <;> unfold StandsApart <;> infer_instance

def written (last : List Char) : List Token → List Char
  | [] => last
  | t :: ts => t.gap.toList ++ (t.text.toList ++ written last ts)

def AllApart (last : List Char) : List Token → Prop
  | [] => True
  | t :: ts => StandsApart t.kind t.text.toList (written last ts) ∧ AllApart last ts

instance decidableAllApart (last : List Char) : (ts : List Token) → Decidable (AllApart last ts)
  | [] => .isTrue trivial
  | _ :: ts => @instDecidableAnd _ _ inferInstance (decidableAllApart last ts)

theorem writtenOut_written {last : List Char} {tokens : List Token} (hlast : LastGap last)
    (hgaps : ∀ t ∈ tokens, Gap t.gap.toList) (htexts : ∀ t ∈ tokens, Lexeme t.kind t.text.toList)
    (hapart : AllApart last tokens) : WrittenOut tokens (written last tokens) := by
  induction tokens with
  | nil => exact .nil hlast
  | cons t ts ih =>
    obtain ⟨hgap, hgaps⟩ := List.forall_mem_cons.mp hgaps
    obtain ⟨htext, htexts⟩ := List.forall_mem_cons.mp htexts
    exact .token hgap htext hapart.1 (ih hgaps htexts hapart.2)

section
variable {c : Char} {cs rest text : List Char}

theorem isSpace_iff : isSpace c = true ↔ c.toNat = 32 ∨ 9 ≤ c.toNat ∧ c.toNat ≤ 13 := by
  simp only [isSpace, Bool.or_eq_true, decide_eq_true_eq, Bool.and_eq_true, ← Char.toNat_inj]
  rfl

theorem isWordStart_iff : isWordStart c = true ↔
    65 ≤ c.toNat ∧ c.toNat ≤ 90 ∨ 97 ≤ c.toNat ∧ c.toNat ≤ 122 ∨ c.toNat = 95 ∨ c.toNat = 36 ∨
      128 ≤ c.toNat := by
  have hupper : c.isUpper = true ↔ 65 ≤ c.toNat ∧ c.toNat ≤ 90 := decide_eq_true_iff
  have hlower : c.isLower = true ↔ 97 ≤ c.toNat ∧ c.toNat ≤ 122 :=
    (Bool.and_eq_true_iff).trans (and_congr decide_eq_true_iff decide_eq_true_iff)
  have halpha : c.isAlpha = (c.isUpper || c.isLower) := rfl
  simp only [isWordStart, halpha, Bool.or_eq_true, hupper, hlower, decide_eq_true_eq,
    ← Char.toNat_inj, or_assoc]
  rfl

/-- The start of a token is no space, and no other token than its own starts with it. -/
theorem plainStart_of_isWordChar (h : isWordChar c = true) :
    isSpace c = false ∧ c ≠ '/' ∧ c ≠ '"' ∧ c ≠ '\'' ∧ c ≠ '.' := by
  refine ⟨?_, ?_, ?_, ?_, ?_⟩
  · rw [← Bool.not_eq_true, isSpace_iff]
    simp only [isWordChar, Bool.or_eq_true, isWordStart_iff, Char.isDigit_iff_toNat,
      Char.reduceToNat] at h
    omega
  all_goals
    rintro rfl
    revert h
    decide

theorem extent_word (h : isWordStart c = true) (hcs : ∀ d ∈ cs, isWordChar d = true)
    (hr : Clear isWordChar rest) : extent c (cs ++ rest) = (some .word, cs.length) := by
  obtain ⟨hspace, hslash, hquote, hapostrophe, hpoint⟩ :=
    plainStart_of_isWordChar (c := c) (by simp [isWordChar, h])
  have hdigit : c.isDigit = false := by
    rw [← Bool.not_eq_true, Char.isDigit_iff_toNat]
    simp only [isWordStart_iff, Char.reduceToNat] at h ⊢
    omega
  simp [extent, hspace, hslash, hquote, hapostrophe, hpoint, hdigit, h,
    takeWhile_append_of_clear hcs hr]

theorem extent_number (h : c.isDigit = true ∨ c = '.' ∧ (cs.head?.any Char.isDigit) = true) :
    extent c cs = (some (if isFloat ((c :: cs).take (numberLength (c :: cs))) then .float
      else .integer), numberLength (c :: cs) - 1) := by
  have hstart : isSpace c = false ∧ c ≠ '/' ∧ c ≠ '"' ∧ c ≠ '\'' := by
    rcases h with h | ⟨rfl, -⟩
    · obtain ⟨hspace, hslash, hquote, hapostrophe, -⟩ :=
        plainStart_of_isWordChar (c := c) (by simp [isWordChar, h])
      exact ⟨hspace, hslash, hquote, hapostrophe⟩
    · decide
  have hnumber : (c.isDigit || (c = '.' && cs.head?.any Char.isDigit)) = true := by
    rcases h with h | ⟨rfl, h⟩ <;> simp [h]
  simp only [extent, hstart, Bool.false_eq_true, if_false, decide_false, Bool.false_and, hnumber,
    if_true]

theorem extent_number_append
    (hstart : c.isDigit = true ∨ c = '.' ∧ (cs ++ rest).head?.any Char.isDigit = true)
    (hlength : numberLength (c :: cs ++ rest) = (c :: cs).length) :
    extent c (cs ++ rest) =
      (some (if isFloat (c :: cs) then .float else .integer), cs.length) := by
  rw [extent_number hstart, ← List.cons_append, hlength, List.take_left]
  rfl

theorem Digits.starts {ds : List Char} (h : Digits Char.isDigit ds) :
    ∃ c cs, ds = c :: cs ∧ c.isDigit = true := by
  obtain ⟨d, more, rfl, hd, -⟩ := h
  exact ⟨d, more, rfl, hd⟩

/-- A number starts with a digit, or with a point and a digit. -/
theorem exists_start_of_integer (h : IntegerText text) :
    ∃ c cs, text = c :: cs ∧ c.isDigit = true := by
  cases h with
  | decimal hds _ =>
    obtain ⟨c, cs, rfl, hc⟩ := hds.starts
    exact ⟨c, _, rfl, hc⟩
  | hexadecimal | binary => exact ⟨'0', _, rfl, rfl⟩

theorem exists_start_of_float (h : FloatText text) : ∃ c cs, text = c :: cs ∧
    (c.isDigit = true ∨ c = '.' ∧ ∃ d ds, cs = d :: ds ∧ d.isDigit = true) := by
  cases h with
  | @decimal whole fraction exponent suffix hwhole hfraction _ _ hdigit _ =>
    rcases hwhole with rfl | hwhole
    · obtain rfl | ⟨ds, rfl, rfl | hds⟩ := hfraction
      · simp at hdigit
      · simp at hdigit
      · obtain ⟨d, more, rfl, hd⟩ := hds.starts
        exact ⟨'.', _, rfl, .inr ⟨rfl, d, _, rfl, hd⟩⟩
    · obtain ⟨c, cs, rfl, hc⟩ := hwhole.starts
      exact ⟨c, _, rfl, .inl hc⟩
  | hexadecimal => exact ⟨'0', _, rfl, .inl rfl⟩

theorem markLength_append (hlonger : ∀ operator ∈ operators, operator.toList <+: text ++ rest →
    operator.toList.length ≤ text.length) : markLength (text ++ rest) = markLength text := by
  have hsame : ∀ operator ∈ operators,
      operator.toList.isPrefixOf (text ++ rest) = operator.toList.isPrefixOf text := by
    intro operator hmem
    rw [Bool.eq_iff_iff, List.isPrefixOf_iff_prefix, List.isPrefixOf_iff_prefix]
    exact ⟨fun h => List.prefix_of_prefix_length_le h (List.prefix_append _ _)
      (hlonger operator hmem h), fun h => h.trans (List.prefix_append _ _)⟩
  rw [markLength, markLength, List.find?_congr hsame]

theorem extent_mark (hc : isPunctuation c = true)
    (hslash : c = '/' → Clear (fun d => d = '/' || d = '*') cs)
    (hpoint : c = '.' → Clear Char.isDigit cs) :
    extent c cs = (some .mark, markLength (c :: cs) - 1) := by
  simp only [isPunctuation, Bool.and_eq_true, Bool.not_eq_true', bne_iff_ne, ne_eq,
    isWordChar, Bool.or_eq_false_iff] at hc
  obtain ⟨⟨⟨hspace, hstart, hdigit⟩, hquote⟩, hapostrophe⟩ := hc
  have hline : ¬(c = '/' ∧ cs.head? = some '/') := fun h => by simpa using hslash h.1 '/' h.2
  have hblock : ¬(c = '/' ∧ cs.head? = some '*') := fun h => by simpa using hslash h.1 '*' h.2
  have hnumber : ¬(c = '.' ∧ cs.head?.any Char.isDigit = true) := by
    rintro ⟨hc, hany⟩
    obtain ⟨d, hd, hdigit⟩ := (Option.any_eq_true _ _).mp hany
    rw [hpoint hc d hd] at hdigit
    cases hdigit
  simp [extent, hspace, hline, hblock, hquote, hapostrophe, hdigit, hnumber, hstart]

/-- No operator is, or starts, anything else. -/
theorem operator_starts : ∀ operator ∈ operators, 2 ≤ operator.toList.length ∧
    (∀ c ∈ operator.toList.head?, isPunctuation c = true ∧ c ≠ '.') ∧
    ¬['/', '/'] <+: operator.toList ∧ ¬['/', '*'] <+: operator.toList ∧
    markLength operator.toList = operator.toList.length := by
  decide +kernel

theorem extent_operator {operator : String} (h : operator ∈ operators)
    (hr : StandsApart .mark operator.toList rest) : ∃ c cs, operator.toList = c :: cs ∧
      extent c (cs ++ rest) = (some .mark, cs.length) := by
  obtain ⟨htwo, hhead, hline, hblock, hlength⟩ := operator_starts operator h
  have hmark := markLength_append hr.1
  generalize operator.toList = text at *
  match text, htwo with
  | c :: d :: ds, _ =>
    obtain ⟨hc, hpoint⟩ := hhead c rfl
    have hclear : c = '/' → Clear (fun d => d = '/' || d = '*') (d :: ds ++ rest) := by
      rintro rfl
      refine .cons ?_
      have hd : d ≠ '/' ∧ d ≠ '*' :=
        ⟨fun h => hline ⟨ds, by rw [h]; rfl⟩, fun h => hblock ⟨ds, by rw [h]; rfl⟩⟩
      simpa using hd
    refine ⟨c, d :: ds, rfl, ?_⟩
    rw [extent_mark hc hclear (fun h => absurd h hpoint), ← List.cons_append, hmark, hlength]
    rfl

/-- Every operator is longer than a single mark. -/
theorem markLength_single (c : Char) : markLength [c] = 1 := by
  have hnone : operators.find? (fun operator => operator.toList.isPrefixOf [c]) = none := by
    rw [List.find?_eq_none]
    intro operator hmem hprefix
    have hle := (List.isPrefixOf_iff_prefix.mp hprefix).length_le
    have htwo := (operator_starts operator hmem).1
    rw [List.length_singleton] at hle
    omega
  rw [markLength, hnone]
  rfl

theorem extent_punctuation (hc : isPunctuation c = true) (hr : StandsApart .mark [c] rest) :
    extent c rest = (some .mark, 0) := by
  have hlength : markLength (c :: rest) = 1 :=
    (markLength_append hr.1).trans (markLength_single c)
  rw [extent_mark hc (fun h => hr.2.1 (by rw [h])) (fun h => hr.2.2 (by rw [h])), hlength]

/-- A token is cut off where it ends. -/
theorem extent_of_lexeme {kind : TokenKind} (h : Lexeme kind text)
    (hr : StandsApart kind text rest) : ∃ c cs, text = c :: cs ∧
      extent c (cs ++ rest) = (some kind, cs.length) := by
  cases h with
  | word hc _ hcs => exact ⟨_, _, rfl, extent_word hc hcs hr⟩
  | integer h =>
    obtain ⟨hlength, hkind⟩ := numberLength_integer h hr.1 hr.2
    obtain ⟨c, cs, rfl, hc⟩ := exists_start_of_integer h
    exact ⟨c, cs, rfl, by simp [extent_number_append (.inl hc) hlength, hkind]⟩
  | float h =>
    obtain ⟨hlength, hkind⟩ := numberLength_float h hr.1
    obtain ⟨c, cs, rfl, hc⟩ := exists_start_of_float h
    have hstart : c.isDigit = true ∨ c = '.' ∧ (cs ++ rest).head?.any Char.isDigit = true := by
      refine hc.imp_right ?_
      rintro ⟨rfl, d, ds, rfl, hd⟩
      exact ⟨rfl, by simp [hd]⟩
    exact ⟨c, cs, rfl, by simp [extent_number_append hstart hlength, hkind]⟩
  | @char body h =>
    have hlength := modesLength_quoted (by decide) h rest
    exact ⟨_, _, rfl, by simp [extent, isSpace, charLength, hlength]⟩
  | @string body h =>
    have hlength := modesLength_quoted (by decide) h rest
    exact ⟨_, _, rfl, by simp [extent, isSpace, stringLength, startsTriple_quoted h hr, hlength]⟩
  | @textBlock body h =>
    have hlength := modesLength_textBlock h rest
    exact ⟨_, _, rfl, by
      simp [extent, isSpace, stringLength, startsTriple, modesLength, Mode.next, hlength]⟩
  | operator h => exact extent_operator h hr
  | mark hc => exact ⟨_, [], rfl, extent_punctuation hc hr⟩

theorem scan_of_lexeme {kind : TokenKind} (h : Lexeme kind text)
    (hr : StandsApart kind text rest) : scan (text ++ rest) = ⟨some kind, text⟩ :: scan rest := by
  obtain ⟨c, cs, rfl, hextent⟩ := extent_of_lexeme h hr
  exact scan_cons_append hextent

theorem attachGaps_of_writtenOut {tokens : List Token} (h : WrittenOut tokens text) :
    attachGaps [] (scan text) = tokens := by
  induction h with
  | nil h => exact attachGaps_lastGap h []
  | cons hgap htoken hrest _ ih =>
    rw [attachGaps_gap hgap, List.nil_append, scan_of_lexeme htoken hrest, attachGaps, ih]

theorem Lexeme.head_ne {kind : TokenKind} (h : Lexeme kind text) :
    ∀ c, text.head? = some c → c.toNat ≠ 0xFEFF := by
  have hdigit {c : Char} (hc : c.isDigit = true) : c.toNat ≠ 0xFEFF := by
    simp only [Char.isDigit_iff_toNat, Char.reduceToNat] at hc
    omega
  have hpunctuation {c : Char} (hc : isPunctuation c = true) : c.toNat ≠ 0xFEFF := by
    have hstart : isWordStart c ≠ true := by simp_all [isPunctuation, isWordChar]
    rw [ne_eq, isWordStart_iff] at hstart
    omega
  intro c hc
  cases h with
  | word _ hne =>
    cases hc
    exact hne
  | integer h =>
    obtain ⟨d, ds, rfl, hd⟩ := exists_start_of_integer h
    cases hc
    exact hdigit hd
  | float h =>
    obtain ⟨d, ds, rfl, hd | ⟨rfl, -⟩⟩ := exists_start_of_float h
    · cases hc
      exact hdigit hd
    · cases hc
      decide
  | char | string | textBlock =>
    cases hc
    decide
  | operator h => exact hpunctuation ((operator_starts _ h).2.1 c hc).1
  | mark h =>
    cases hc
    exact hpunctuation h

theorem Gap.head_ne {gap : List Char} (h : Gap gap) :
    ∀ c, gap.head? = some c → c.toNat ≠ 0xFEFF := by
  intro c hc
  cases h with
  | nil => cases hc
  | space hspace =>
    cases hc
    rw [isSpace_iff] at hspace
    omega
  | lineComment | blockComment =>
    cases hc
    decide

theorem WrittenOut.head_ne {tokens : List Token} (h : WrittenOut tokens text) :
    ∀ c, text.head? = some c → c.toNat ≠ 0xFEFF := by
  intro c hc
  cases h with
  | nil h =>
    cases h with
    | closed h => exact h.head_ne c hc
    | @lineComment gap _ h _ =>
      rw [List.head?_append] at hc
      cases hgap : gap.head? with
      | none =>
        rw [hgap] at hc
        cases hc
        decide
      | some d =>
        rw [hgap] at hc
        cases hc
        exact h.head_ne c hgap
  | @cons gap kind text tokens rest h htoken hrest _ =>
    rw [List.head?_append, List.head?_append] at hc
    cases hgap : gap.head? with
    | some d =>
      rw [hgap] at hc
      cases hc
      exact h.head_ne c hgap
    | none =>
      obtain ⟨d, ds, rfl, -⟩ := extent_of_lexeme htoken hrest
      rw [hgap] at hc
      cases hc
      exact htoken.head_ne c rfl

/-- The tokens of a text are those it was written from. -/
theorem tokenize_of_writtenOut {tokens : List Token} {text : String}
    (h : WrittenOut tokens text.toList) : tokenize text = tokens := by
  have hmark : dropByteOrderMark text.toList = text.toList := by
    have hhead := h.head_ne
    cases htext : text.toList with
    | nil => rfl
    | cons c cs =>
      rw [htext] at hhead
      exact if_neg (hhead c rfl)
  rw [tokenize, hmark, attachGaps_of_writtenOut h]

end

end TypeWeave.Java
