import Mathlib.Data.List.TakeWhile
import TypeWeave.Java.Token

/-!
# How far gaps and literals reach

What white space, a comment, a string and a number are, said by their characters, and that the
scanner takes all of their characters and no others. What comes after a number or a string must not
be a part of it, which is what `Clear` says of the next character.
-/

namespace TypeWeave.Java

section
variable (p : Char → Prop) [DecidablePred p]

-- A statement about the characters of a text is decided along the text. The instance for statements
-- about characters would go through all there are.

instance (priority := 1100) decidableForallText (text : List Char) : Decidable (∀ c ∈ text, p c) :=
  List.decidableBAll p text

instance (priority := 1100) decidableExistsText (text : List Char) : Decidable (∃ c ∈ text, p c) :=
  List.decidableBEx p text

instance (priority := 1100) decidableForallFirst (first : Option Char) :
    Decidable (∀ c ∈ first, p c) :=
  first.decidableForallMem

instance (priority := 1100) decidableExistsFirst (first : Option Char) :
    Decidable (∃ c ∈ first, p c) :=
  first.decidableExistsMem

end

/-- No character with the property comes next. -/
def Clear (p : Char → Bool) (rest : List Char) : Prop := ∀ c, rest.head? = some c → p c = false

theorem Clear.mono {p q : Char → Bool} {rest : List Char} (h : Clear p rest)
    (hq : ∀ c, q c = true → p c = true) : Clear q rest := by
  intro c hc
  cases hqc : q c with
  | false => rfl
  | true => rw [← hq c hqc, h c hc]

theorem Clear.cons {p : Char → Bool} {c : Char} {rest : List Char} (h : p c = false) :
    Clear p (c :: rest) := by
  rintro _ ⟨⟩
  exact h

theorem takeWhile_append_of_clear {p : Char → Bool} {body rest : List Char}
    (h : ∀ c ∈ body, p c = true) (hr : Clear p rest) : (body ++ rest).takeWhile p = body := by
  rw [List.takeWhile_append_of_pos h]
  cases rest with
  | nil => simp
  | cons c cs => simp [hr c rfl]

/-- A line comment reaches to the end of its line, or of the text. -/
theorem takeWhile_line {text rest : List Char} (h : '\n' ∉ text)
    (hr : Clear (· != '\n') rest) : (text ++ rest).takeWhile (· != '\n') = text := by
  refine takeWhile_append_of_clear (fun c hc => ?_) hr
  have hne : c ≠ '\n' := by
    rintro rfl
    exact h hc
  simpa using hne

-- ---------------------------------------------------------------------------
-- Gaps
-- ---------------------------------------------------------------------------

inductive Gap : List Char → Prop
  | nil : Gap []
  | space {c cs} : isSpace c = true → Gap cs → Gap (c :: cs)
  | lineComment {text cs} : '\n' ∉ text → Gap cs → Gap ('/' :: '/' :: (text ++ '\n' :: cs))
  | blockComment {text cs} : ¬['*', '/'] <:+: text → Gap cs →
      Gap ('/' :: '*' :: (text ++ '*' :: '/' :: cs))

/-- A gap at the end of a text, where a comment may end without a line break. -/
inductive LastGap : List Char → Prop
  | closed {gap} : Gap gap → LastGap gap
  | lineComment {gap text} : Gap gap → '\n' ∉ text → LastGap (gap ++ '/' :: '/' :: text)

/-- A piece that reaches just over `body`. -/
theorem scan_cons_append {c : Char} {body rest : List Char} {kind : Option TokenKind}
    (h : extent c (body ++ rest) = (kind, body.length)) :
    scan (c :: (body ++ rest)) = ⟨kind, c :: body⟩ :: scan rest := by
  rw [scan]
  simp [cut, h]

theorem attachGaps_space {c : Char} (h : isSpace c = true) (gap cs : List Char) :
    attachGaps gap (scan (c :: cs)) = attachGaps (gap ++ [c]) (scan cs) := by
  have hextent (d : Char) (ds : List Char) (hd : isSpace d = true) :
      scan (d :: ds) = ⟨none, d :: ds.takeWhile isSpace⟩ :: scan (ds.dropWhile isSpace) := by
    have hsplit : ds.takeWhile isSpace ++ ds.dropWhile isSpace = ds :=
      List.takeWhile_append_dropWhile
    have hextent : extent d (ds.takeWhile isSpace ++ ds.dropWhile isSpace) =
        (none, (ds.takeWhile isSpace).length) := by
      simp [extent, hd, hsplit]
    have hscan := scan_cons_append hextent
    rwa [hsplit] at hscan
  rw [hextent c cs h, attachGaps]
  cases cs with
  | nil => rfl
  | cons d ds =>
    cases hd : isSpace d with
    | false => simp [hd]
    | true => simp [hextent d ds hd, attachGaps, hd]

theorem modesLength_nil (cs : List Char) : modesLength [] cs = 0 := by
  cases cs <;> rfl

theorem modesLength_blockComment {text : List Char} (h : ¬['*', '/'] <:+: text)
    (rest : List Char) :
    modesLength [.blockComment] (text ++ '*' :: '/' :: rest) = text.length + 2 := by
  induction text with
  | nil => simp [modesLength, Mode.next, modesLength_nil]
  | cons c text ih =>
    have hinner : ¬['*', '/'] <:+: text :=
      fun hwithin => h (hwithin.trans (List.suffix_cons c text).isInfix)
    have hopen : ¬(c = '*' ∧ (text ++ '*' :: '/' :: rest).head? = some '/') := by
      rintro ⟨rfl, hhead⟩
      cases text with
      | nil => simp at hhead
      | cons d text =>
        obtain rfl : d = '/' := by simpa using hhead
        exact h ⟨[], text, rfl⟩
    have hnext : Mode.blockComment.next c (text ++ '*' :: '/' :: rest) = [.blockComment] := by
      simpa [Mode.next] using hopen
    rw [List.cons_append, modesLength, hnext, List.append_nil, ih hinner]
    simp

/-- A gap goes to the token after it. -/
theorem attachGaps_gap {gap : List Char} (h : Gap gap) (before rest : List Char) :
    attachGaps before (scan (gap ++ rest)) = attachGaps (before ++ gap) (scan rest) := by
  induction h generalizing before with
  | nil => simp
  | space hc _ ih => rw [List.cons_append, attachGaps_space hc, ih, List.append_assoc]; rfl
  | @lineComment text cs htext _ ih =>
    have hextent : extent '/' ('/' :: text ++ '\n' :: (cs ++ rest)) =
        (none, ('/' :: text).length) := by
      have htake : (text ++ '\n' :: (cs ++ rest)).takeWhile (· != '\n') = text :=
        takeWhile_line htext (.cons (by simp))
      simp [extent, isSpace, htake]
    have hscan := scan_cons_append hextent
    simp only [List.cons_append, List.append_assoc] at hscan ⊢
    rw [hscan, attachGaps, attachGaps_space (by decide), ih]
    simp
  | @blockComment text cs htext _ ih =>
    have hextent : extent '/' (('*' :: (text ++ ['*', '/'])) ++ (cs ++ rest)) =
        (none, ('*' :: (text ++ ['*', '/'])).length) := by
      have hlength := modesLength_blockComment htext (cs ++ rest)
      simp [extent, isSpace, blockCommentLength, modesLength, Mode.next, hlength]
    have hscan := scan_cons_append hextent
    simp only [List.cons_append, List.append_assoc, List.nil_append] at hscan ⊢
    rw [hscan, attachGaps, ih]
    simp

theorem attachGaps_lastGap {gap : List Char} (h : LastGap gap) (before : List Char) :
    attachGaps before (scan gap) = [] := by
  have hclosed {gap : List Char} (h : Gap gap) (before : List Char) :
      attachGaps before (scan gap) = [] := by
    have hgap := attachGaps_gap h before []
    rwa [List.append_nil, scan, attachGaps] at hgap
  cases h with
  | closed h => exact hclosed h before
  | @lineComment gap text h htext =>
    have hextent : extent '/' ('/' :: text ++ []) = (none, ('/' :: text).length) := by
      have htake : (text ++ []).takeWhile (· != '\n') = text :=
        takeWhile_line htext (by rintro _ ⟨⟩)
      rw [List.append_nil] at htake
      simp [extent, isSpace, htake]
    have hscan := scan_cons_append hextent
    rw [List.append_nil] at hscan
    rw [attachGaps_gap h, hscan, attachGaps, scan, attachGaps]

-- ---------------------------------------------------------------------------
-- Characters and strings
-- ---------------------------------------------------------------------------

/-- What follows the opening quote of a string or a character, up to the closing one. A backslash
and a curly bracket would embed an expression in a string. -/
inductive Quoted (quote : Char) : List Char → Prop
  | close : Quoted quote [quote]
  | char {c cs} : c ≠ quote → c ≠ '\\' → Quoted quote cs → Quoted quote (c :: cs)
  | escape {c cs} : c ≠ '\x7b' → Quoted quote cs → Quoted quote ('\\' :: c :: cs)

theorem modesLength_quoted {quote : Char} {body : List Char} (hq : quote ≠ '\\')
    (h : Quoted quote body) (rest : List Char) :
    modesLength [.quoted quote] (body ++ rest) = body.length := by
  induction h with
  | close => simp [modesLength, Mode.next, modesLength_nil]
  | char hquote hslash _ ih => simp [modesLength, Mode.next, hquote, hslash, ih]
  | escape hc _ ih => simp [modesLength, Mode.next, Ne.symm hq, hc, ih]

theorem startsTriple_quoted {body rest : List Char} (h : Quoted '"' body)
    (hr : Clear (· = '"') rest) : startsTriple (body ++ rest) = false := by
  cases h with
  | close =>
    cases rest with
    | nil => rfl
    | cons c rest =>
      have hc : c ≠ '"' := by simpa using hr c rfl
      simp [startsTriple, List.isPrefixOf, Ne.symm hc]
  | char hc => simp [startsTriple, List.isPrefixOf, Ne.symm hc]
  | escape => simp [startsTriple, List.isPrefixOf]

/-- The text after a slash does not open a comment, or one that ends before any quote or
backslash. -/
inductive Harmless : List Char → Prop
  | noComment {cs} : cs ≠ [] → Clear (fun c => c = '/' || c = '*') cs → Harmless cs
  | lineComment {text cs} : '\n' ∉ text → '"' ∉ text → '\\' ∉ text →
      Harmless ('/' :: (text ++ '\n' :: cs))
  | blockComment {text cs} : ¬['*', '/'] <:+: text → '"' ∉ text → '\\' ∉ text →
      Harmless ('*' :: (text ++ '*' :: '/' :: cs))

theorem blockComment?_append {text : List Char} (h : ¬['*', '/'] <:+: text) (rest : List Char) :
    blockComment? (text ++ '*' :: '/' :: rest) = some (text ++ ['*', '/']) := by
  induction text with
  | nil => rfl
  | cons c text ih =>
    have hinner : ¬['*', '/'] <:+: text :=
      fun hwithin => h (hwithin.trans (List.suffix_cons c text).isInfix)
    rw [List.cons_append, blockComment?, ih hinner]
    · rfl
    · rintro more rfl hmore
      cases text with
      | nil => cases hmore
      | cons d text =>
        cases hmore
        exact h ⟨[], text, rfl⟩

theorem hidesQuote_of_harmless {cs : List Char} (h : Harmless cs) (rest : List Char) :
    hidesQuote (cs ++ rest) = false := by
  have hplain {text : List Char} (hquote : '"' ∉ text) (hslash : '\\' ∉ text) :
      (text.any fun c => c = '"' || c = '\\') = false := by
    rw [List.any_eq_false]
    intro c hc
    have hc' : c ≠ '"' ∧ c ≠ '\\' := ⟨fun h => hquote (h ▸ hc), fun h => hslash (h ▸ hc)⟩
    simpa using hc'
  cases h with
  | noComment hne hclear =>
    obtain ⟨c, cs, rfl⟩ := List.exists_cons_of_ne_nil hne
    have hc := hclear c rfl
    simp only [Bool.or_eq_false_iff, decide_eq_false_iff_not] at hc
    simp [hidesQuote, comment?, hc.1, hc.2]
  | @lineComment text cs hline hquote hslash =>
    have htake : (text ++ '\n' :: (cs ++ rest)).takeWhile (· != '\n') = text :=
      takeWhile_line hline (.cons (by simp))
    simpa [hidesQuote, comment?, htake] using hplain hquote hslash
  | @blockComment text cs hclosed hquote hslash =>
    have hcomment := blockComment?_append hclosed (cs ++ rest)
    simpa [hidesQuote, comment?, hcomment] using hplain hquote hslash

def Stretch.after (stretch : Stretch) (c : Char) : Stretch :=
  if stretch = .fresh && !isSpace c then .plain else stretch

/-- What follows the opening quotes of a text block, up to the closing ones. After an escape a new
stretch of the text starts, where nothing may look like a comment with a quote in it. -/
inductive TextBlock : Stretch → List Char → Prop
  | close {stretch} : TextBlock stretch ['"', '"', '"']
  | quote {stretch cs} : ¬['"', '"'] <+: cs → TextBlock .afterQuote cs →
      TextBlock stretch ('"' :: cs)
  | escapedQuote {cs} : TextBlock .afterQuote cs → TextBlock .afterQuote ('\\' :: '"' :: cs)
  | escape {stretch c cs} : c ∉ ['\x7b', 'x'] → isOctalDigit c = false →
      (stretch = .afterQuote → c ≠ '"') →
      (c = 'u' → Clear (fun d => isHexDigit d || d = '\x7b') cs) → TextBlock .fresh cs →
      TextBlock stretch ('\\' :: c :: cs)
  | octal {stretch c ds cs} : isOctalDigit c = true → (∀ d ∈ ds, isOctalDigit d = true) →
      ds.length ≤ 2 → (ds.length < 2 → Clear isOctalDigit cs) → TextBlock .fresh cs →
      TextBlock stretch ('\\' :: c :: (ds ++ cs))
  | unicode {stretch ds cs} : ds.length = 4 → (∀ d ∈ ds, isHexDigit d = true) →
      TextBlock .fresh cs → TextBlock stretch ('\\' :: 'u' :: (ds ++ cs))
  | slash {cs} : Harmless cs → TextBlock .plain cs → TextBlock .fresh ('/' :: cs)
  | char {stretch c cs} : c ≠ '"' → c ≠ '\\' → (stretch = .fresh → c ≠ '/') →
      TextBlock (stretch.after c) cs → TextBlock stretch (c :: cs)

theorem TextBlock.two_le_length {stretch : Stretch} {body : List Char}
    (h : TextBlock stretch body) : 2 ≤ body.length := by
  induction h <;> simp only [List.length_cons, List.length_nil, List.length_append] <;> omega

theorem TextBlock.ne_nil {stretch : Stretch} {body : List Char} (h : TextBlock stretch body) :
    body ≠ [] := by
  rintro rfl
  exact absurd h.two_le_length (by simp)

/-- The characters of an escape are passed over. -/
theorem modesLength_verbatim {ds : List Char} {n : Nat} (h : ds.length = n + 1)
    (outer : List Mode) (rest : List Char) :
    modesLength (.verbatim n :: outer) (ds ++ rest) = n + 1 + modesLength outer rest := by
  induction n generalizing ds with
  | zero =>
    obtain ⟨d, rfl⟩ := List.length_eq_one_iff.mp h
    simp [modesLength, Mode.next, Nat.add_comm]
  | succ n ih =>
    obtain ⟨d, ds, rfl⟩ := List.exists_cons_of_length_eq_add_one h
    rw [List.cons_append, modesLength]
    simp only [Mode.next, List.singleton_append, ih (by simpa using h)]
    omega

theorem Clear.append_of_ne_nil {p : Char → Bool} {cs : List Char} (h : Clear p cs) (hne : cs ≠ [])
    (rest : List Char) : Clear p (cs ++ rest) := by
  obtain ⟨c, cs, rfl⟩ := List.exists_cons_of_ne_nil hne
  exact .cons (h c rfl)

theorem escapeLength_single {c : Char} {cs : List Char} (hc : c ∉ ['\x7b', 'x'])
    (hoctal : isOctalDigit c = false)
    (hu : c = 'u' → Clear (fun d => isHexDigit d || d = '\x7b') cs) :
    escapeLength (c :: cs) = 0 := by
  simp only [List.mem_cons, List.not_mem_nil, or_false, not_or] at hc
  by_cases hc' : c = 'u'
  · subst hc'
    cases cs with
    | nil => simp [escapeLength, hoctal, startsHex, bracedHexLength]
    | cons d cs =>
      have hd := hu rfl d rfl
      simp only [Bool.or_eq_false_iff, decide_eq_false_iff_not] at hd
      simp [escapeLength, hoctal, startsHex, bracedHexLength, hd.1, hd.2]
  · simp [escapeLength, hoctal, hc.2, hc']

theorem escapeLength_octal {c : Char} {ds cs : List Char} (hc : isOctalDigit c = true)
    (hds : ∀ d ∈ ds, isOctalDigit d = true) (hlength : ds.length ≤ 2)
    (hend : ds.length < 2 → Clear isOctalDigit cs) :
    escapeLength (c :: (ds ++ cs)) = ds.length := by
  have hclear : Clear isOctalDigit (cs.take (2 - ds.length)) := by
    intro d hd
    rw [List.head?_take] at hd
    split at hd
    · cases hd
    · exact hend (by omega) d hd
  simp only [escapeLength, hc, if_true, List.take_append, List.take_of_length_le hlength,
    takeWhile_append_of_clear hds hclear]

theorem escapeLength_unicode {ds cs : List Char} (hlength : ds.length = 4)
    (hds : ∀ d ∈ ds, isHexDigit d = true) : escapeLength ('u' :: (ds ++ cs)) = 4 := by
  have hhex : startsHex 4 (ds ++ cs) = true := by
    rw [startsHex, List.take_append_of_le_length (by omega), List.take_of_length_le (by omega)]
    simpa [hlength] using hds
  have hoctal : isOctalDigit 'u' = false := by decide
  simp [escapeLength, hoctal, hhex]

/-- An escape in a text block is passed over, and what follows it is not yet part of a stretch. -/
theorem modesLength_textBlock_escape {stretch : Stretch} {c : Char} {ds cs rest : List Char}
    (hc : c ≠ '\x7b') (hquote : stretch = .afterQuote → c ≠ '"')
    (hlength : escapeLength (c :: (ds ++ (cs ++ rest))) = ds.length)
    (ih : modesLength [.textBlock .fresh] (cs ++ rest) = cs.length) :
    modesLength [.textBlock stretch] ('\\' :: c :: (ds ++ cs) ++ rest) =
      ('\\' :: c :: (ds ++ cs)).length := by
  have hnext : (Mode.textBlock stretch).next '\\' (c :: (ds ++ (cs ++ rest))) =
      [.verbatim ds.length, .textBlock .fresh] := by
    have hquote' : ¬(stretch = .afterQuote ∧ c = '"') := fun h => hquote h.1 h.2
    simp [Mode.next, hc, hquote', hlength]
  have hcount : (c :: ds).length = ds.length + 1 := rfl
  have hverbatim := modesLength_verbatim hcount [.textBlock .fresh] (cs ++ rest)
  simp only [List.cons_append, List.append_assoc] at hverbatim ⊢
  rw [modesLength, hnext, List.append_nil, hverbatim, ih]
  simp only [List.length_cons, List.length_append]
  omega

theorem modesLength_textBlock {stretch : Stretch} {body : List Char} (h : TextBlock stretch body)
    (rest : List Char) : modesLength [.textBlock stretch] (body ++ rest) = body.length := by
  induction h with
  | close => simp [modesLength, Mode.next, startsTriple, modesLength_nil]
  | @quote stretch cs htriple h ih =>
    have hsingle : startsTriple (cs ++ rest) = false := by
      rw [startsTriple, ← Bool.not_eq_true, List.isPrefixOf_iff_prefix]
      exact fun hp => htriple
        (List.prefix_of_prefix_length_le hp (List.prefix_append _ _) h.two_le_length)
    simp [modesLength, Mode.next, hsingle, ih]
  | escapedQuote h ih => simp [modesLength, Mode.next, ih]
  | @escape stretch c cs hc hoctal hquote hu h ih =>
    refine @modesLength_textBlock_escape stretch c [] cs rest (fun heq => hc (by simp [heq]))
      hquote ?_ ih
    exact escapeLength_single hc hoctal fun heq => (hu heq).append_of_ne_nil h.ne_nil rest
  | @octal stretch c ds cs hc hds hlength hend h ih =>
    refine modesLength_textBlock_escape (by rintro rfl; cases hc) (by rintro - rfl; cases hc) ?_ ih
    exact escapeLength_octal hc hds hlength fun hlt => (hend hlt).append_of_ne_nil h.ne_nil rest
  | @unicode stretch ds cs hlength hds h ih =>
    refine modesLength_textBlock_escape (by decide) (fun _ => by decide) ?_ ih
    rw [escapeLength_unicode hlength hds, hlength]
  | slash hharmless h ih =>
    simp [modesLength, Mode.next, hidesQuote_of_harmless hharmless, ih, isSpace]
  | @char stretch c cs hquote hslash hcomment h ih =>
    have hnext : (Mode.textBlock stretch).next c (cs ++ rest) = [.textBlock (stretch.after c)] := by
      have hopen : ¬((stretch = .fresh ∧ c = '/') ∧ hidesQuote (cs ++ rest) = true) :=
        fun h => hcomment h.1.1 h.1.2
      simp [Mode.next, hquote, hslash, hopen, Stretch.after]
    rw [List.cons_append, modesLength, hnext, List.append_nil, ih, List.length_cons]

-- ---------------------------------------------------------------------------
-- Numbers
-- ---------------------------------------------------------------------------

def Digits (isDigit : Char → Bool) (ds : List Char) : Prop :=
  ∃ d more, ds = d :: more ∧ isDigit d = true ∧ ∀ c ∈ more, (isDigit c || c = '_') = true

def OptionalDigits (isDigit : Char → Bool) (ds : List Char) : Prop := ds = [] ∨ Digits isDigit ds

def Fraction (isDigit : Char → Bool) (cs : List Char) : Prop :=
  cs = [] ∨ ∃ ds, cs = '.' :: ds ∧ OptionalDigits isDigit ds

def Exponent (marks : List Char) (cs : List Char) : Prop :=
  ∃ mark sign ds, cs = mark :: (sign ++ ds) ∧ mark ∈ marks ∧ sign ∈ [[], ['+'], ['-']] ∧
    Digits Char.isDigit ds

def longSuffixes : List (List Char) := [[], ['l'], ['L']]

def floatSuffixes : List (List Char) := [[], ['f'], ['F'], ['d'], ['D']]

def isBinaryDigit (c : Char) : Bool := c = '0' || c = '1'

inductive IntegerText : List Char → Prop
  | decimal {ds suffix} : Digits Char.isDigit ds → suffix ∈ longSuffixes →
      IntegerText (ds ++ suffix)
  | hexadecimal {mark ds suffix} : mark ∈ ['x', 'X'] → Digits isHexDigit ds →
      suffix ∈ longSuffixes → IntegerText ('0' :: mark :: (ds ++ suffix))
  | binary {mark ds suffix} : mark ∈ ['b', 'B'] → Digits isBinaryDigit ds →
      suffix ∈ longSuffixes → IntegerText ('0' :: mark :: (ds ++ suffix))

/-- A floating-point number, which has a digit before or after the point. Without an exponent and a
suffix it is one by its point. -/
inductive FloatText : List Char → Prop
  | decimal {whole fraction exponent suffix} : OptionalDigits Char.isDigit whole →
      Fraction Char.isDigit fraction → exponent = [] ∨ Exponent ['e', 'E'] exponent →
      suffix ∈ floatSuffixes → whole ≠ [] ∨ 2 ≤ fraction.length →
      fraction ≠ [] ∨ exponent ≠ [] ∨ suffix ≠ [] →
      FloatText (whole ++ (fraction ++ (exponent ++ suffix)))
  | hexadecimal {mark whole fraction exponent suffix} : mark ∈ ['x', 'X'] →
      OptionalDigits isHexDigit whole → Fraction isHexDigit fraction →
      Exponent ['p', 'P'] exponent → suffix ∈ floatSuffixes → whole ≠ [] ∨ 2 ≤ fraction.length →
      FloatText ('0' :: mark :: (whole ++ (fraction ++ (exponent ++ suffix))))

section
variable {isDigit : Char → Bool} {cs ds rest : List Char}

theorem Clear.append {p : Char → Bool} (h : Clear p cs) (hr : Clear p rest) :
    Clear p (cs ++ rest) := by
  cases cs with
  | nil => exact hr
  | cons c cs => exact .cons (h c rfl)

theorem Clear.nil {p : Char → Bool} : Clear p [] := by
  rintro _ ⟨⟩

theorem OptionalDigits.all (h : OptionalDigits isDigit ds) :
    ∀ c ∈ ds, (isDigit c || c = '_') = true := by
  rcases h with rfl | ⟨d, more, rfl, hd, hmore⟩
  · simp
  · exact List.forall_mem_cons.mpr ⟨by simp [hd], hmore⟩

theorem Digits.mono {isDigit' : Char → Bool} (h : Digits isDigit ds)
    (hdigit : ∀ c, isDigit c = true → isDigit' c = true) : Digits isDigit' ds := by
  obtain ⟨d, more, rfl, hd, hmore⟩ := h
  refine ⟨d, more, rfl, hdigit d hd, fun c hc => ?_⟩
  have hc := hmore c hc
  simp only [Bool.or_eq_true] at hc ⊢
  exact hc.imp_left (hdigit c)

theorem digitsLength_append (h : OptionalDigits isDigit ds)
    (hr : Clear (fun c => isDigit c || c = '_') rest) :
    digitsLength isDigit (ds ++ rest) = ds.length := by
  rw [digitsLength, takeWhile_append_of_clear h.all hr]

theorem pointLength_append (h : Fraction isDigit cs)
    (hr : Clear (fun c => isDigit c || c = '_') rest) (hpoint : Clear (· = '.') rest) :
    pointLength isDigit (cs ++ rest) = cs.length := by
  rcases h with rfl | ⟨ds, rfl, hds⟩
  · cases rest with
    | nil => rfl
    | cons c rest =>
      have hc : c ≠ '.' := by simpa using hpoint c rfl
      simp [pointLength, hc]
  · simp [pointLength, digitsLength_append hds hr]

theorem exponentLength_append {marks : List Char} (h : Exponent marks cs)
    (hr : Clear (fun c => Char.isDigit c || c = '_') rest) :
    exponentLength marks (cs ++ rest) = cs.length := by
  obtain ⟨mark, sign, ds, rfl, hmark, hsign, hds⟩ := h
  have hlength : digitsLength Char.isDigit (ds ++ rest) = ds.length :=
    digitsLength_append (.inr hds) hr
  obtain ⟨d, more, rfl, hd, -⟩ := hds
  rw [List.cons_append] at hlength
  have hplus : '+'.isDigit = false := by decide
  have hminus : '-'.isDigit = false := by decide
  simp only [List.mem_cons, List.not_mem_nil, or_false] at hsign
  rcases hsign with rfl | rfl | rfl
  · simp [exponentLength, hmark, hd, hlength]
  · simp [exponentLength, signedLength, hmark, hd, hlength, hplus]
  · simp [exponentLength, signedLength, hmark, hd, hlength, hminus]

theorem exponentLength_of_clear {marks : List Char} (h : Clear marks.contains rest) :
    exponentLength marks rest = 0 := by
  cases rest with
  | nil => rfl
  | cons c rest =>
    have hc : c ∉ marks := by simpa using h c rfl
    simp [exponentLength, hc]

theorem suffixLength_append {suffixes suffix : List Char}
    (h : suffix = [] ∨ ∃ c ∈ suffixes, suffix = [c]) (hr : Clear suffixes.contains rest) :
    suffixLength suffixes (suffix ++ rest) = suffix.length := by
  rcases h with rfl | ⟨c, hc, rfl⟩
  · cases rest with
    | nil => rfl
    | cons c rest =>
      have hc : c ∉ suffixes := by simpa using hr c rfl
      simp [suffixLength, hc]
  · simp [suffixLength, hc]

-- Where the parts of a number start.

theorem Fraction.clear {p : Char → Bool} (h : Fraction isDigit cs) (hp : p '.' = false) :
    Clear p cs := by
  rcases h with rfl | ⟨ds, rfl, -⟩
  · exact .nil
  · exact .cons hp

theorem Exponent.clear {p : Char → Bool} {marks : List Char} (h : Exponent marks cs)
    (hp : ∀ mark ∈ marks, p mark = false) : Clear p cs := by
  obtain ⟨mark, sign, ds, rfl, hmark, -, -⟩ := h
  exact .cons (hp mark hmark)

theorem clear_exponent {p : Char → Bool} (h : cs = [] ∨ Exponent ['e', 'E'] cs) (he : p 'e' = false)
    (hE : p 'E' = false) : Clear p cs := by
  rcases h with rfl | h
  · exact .nil
  · exact h.clear (by simp [he, hE])

theorem clear_suffix {p : Char → Bool} {suffix : List Char} {suffixes : List (List Char)}
    (h : suffix ∈ suffixes) (hp : ∀ s ∈ suffixes, ∀ c ∈ s, p c = false) : Clear p suffix := by
  cases suffix with
  | nil => exact .nil
  | cons c cs => exact .cons (hp _ h c List.mem_cons_self)

theorem suffix_cases : ∀ suffix ∈ longSuffixes ++ floatSuffixes,
    suffix = [] ∨ ∃ c ∈ "fFdDlL".toList, suffix = [c] := by
  decide

def continuesNumber (c : Char) : Bool := isWordChar c || c = '.'

theorem Clear.digit (h : Clear continuesNumber rest) :
    Clear (fun c => Char.isDigit c || c = '_') rest := by
  refine h.mono fun c hc => ?_
  simp only [Bool.or_eq_true, decide_eq_true_eq] at hc
  rcases hc with hc | rfl
  · simp [continuesNumber, isWordChar, hc]
  · decide

theorem isHexDigit_cases {c : Char} (h : isHexDigit c = true) :
    c.isDigit = true ∨ c ∈ "abcdefABCDEF".toList := by
  simpa [isHexDigit] using h

theorem isWordChar_of_isHexDigit {c : Char} (h : (isHexDigit c || c = '_') = true) :
    isWordChar c = true := by
  have hletters : ∀ c ∈ "abcdefABCDEF".toList, isWordChar c = true := by decide
  simp only [Bool.or_eq_true, decide_eq_true_eq] at h
  rcases h with h | rfl
  · rcases isHexDigit_cases h with h | h
    · simp [isWordChar, h]
    · exact hletters c h
  · decide

theorem Clear.hexDigit (h : Clear continuesNumber rest) :
    Clear (fun c => isHexDigit c || c = '_') rest :=
  h.mono fun c hc => by simp [continuesNumber, isWordChar_of_isHexDigit hc]

theorem Clear.point (h : Clear continuesNumber rest) : Clear (· = '.') rest :=
  h.mono fun c hc => by simp_all [continuesNumber]

theorem Clear.contains {chars : List Char} (h : Clear continuesNumber rest)
    (hchars : ∀ c ∈ chars, continuesNumber c = true) : Clear chars.contains rest :=
  h.mono fun c hc => hchars c (by simpa using hc)

theorem decimalLength_append {whole fraction exponent suffix : List Char}
    (hwhole : OptionalDigits Char.isDigit whole) (hfraction : Fraction Char.isDigit fraction)
    (hexponent : exponent = [] ∨ Exponent ['e', 'E'] exponent)
    (hsuffix : suffix ∈ longSuffixes ++ floatSuffixes) (hr : Clear continuesNumber rest) :
    decimalLength (whole ++ (fraction ++ (exponent ++ (suffix ++ rest)))) =
      whole.length + fraction.length + exponent.length + suffix.length := by
  have hdigits : Clear (fun c => Char.isDigit c || c = '_') (exponent ++ (suffix ++ rest)) :=
    (clear_exponent hexponent (by decide) (by decide)).append
      ((clear_suffix hsuffix (by decide)).append hr.digit)
  have hpoint : Clear (· = '.') (exponent ++ (suffix ++ rest)) :=
    (clear_exponent hexponent (by decide) (by decide)).append
      ((clear_suffix hsuffix (by decide)).append hr.point)
  have hwholeLength := digitsLength_append hwhole ((hfraction.clear (by decide)).append hdigits)
  have hpointLength := pointLength_append hfraction hdigits hpoint
  have hexponentLength : exponentLength ['e', 'E', 'p', 'P'] (exponent ++ (suffix ++ rest)) =
      exponent.length := by
    rcases hexponent with rfl | ⟨mark, sign, ds, rfl, hmark, hsign, hds⟩
    · exact exponentLength_of_clear
        ((clear_suffix hsuffix (by decide)).append (hr.contains (by decide)))
    · refine exponentLength_append ⟨mark, sign, ds, rfl, ?_, hsign, hds⟩
        ((clear_suffix hsuffix (by decide)).append hr.digit)
      exact List.mem_append_left ['p', 'P'] hmark
  have hsuffixLength : suffixLength "fFdDlL".toList (suffix ++ rest) = suffix.length := by
    exact suffixLength_append (suffix_cases suffix hsuffix) (hr.contains (by decide))
  simp only [decimalLength, hwholeLength, List.drop_left, hpointLength, ← List.drop_drop,
    hexponentLength, hsuffixLength]

theorem signedLength_of_clear (h : Clear (fun c => c = '+' || c = '-') rest) :
    signedLength rest = 0 := by
  cases rest with
  | nil => rfl
  | cons c rest =>
    have hc := h c rfl
    simp [signedLength, hc]

theorem endsInMark_eq_false {digits : List Char}
    (h : ∀ c, digits.getLast? = some c → c ≠ 'e' ∧ c ≠ 'E') :
    endsInMark digits.reverse = false := by
  rw [← List.head?_reverse] at h
  unfold endsInMark
  split
  · next heq => simp [h _ (by rw [heq]; rfl)]
  · next heq => simp [h _ (by rw [heq]; rfl)]
  · rfl

/-- No sign comes next that would make an exponent of the digit `e`. -/
def NoSign (text rest : List Char) : Prop :=
  Clear (fun c => c = '+' || c = '-') rest ∨
    ∀ c, text.getLast? = some c → c ≠ 'e' ∧ c ≠ 'E'

theorem hexLength_integer {suffix : List Char} (hds : Digits isHexDigit ds)
    (hsuffix : suffix ∈ longSuffixes) (hr : Clear continuesNumber rest)
    (hsign : NoSign (ds ++ suffix) rest) :
    hexLength (ds ++ (suffix ++ rest)) = ds.length + suffix.length := by
  have hdigits : Clear (fun c => isHexDigit c || c = '_') (suffix ++ rest) :=
    (clear_suffix hsuffix (by decide)).append hr.hexDigit
  have hpoint : Clear (· = '.') (suffix ++ rest) :=
    (clear_suffix hsuffix (by decide)).append hr.point
  have hwholeLength := digitsLength_append (.inr hds) hdigits
  have hpointLength : pointLength isHexDigit (suffix ++ rest) = 0 :=
    pointLength_append (.inl rfl) hdigits hpoint
  have hmark : (endsInMark ds.reverse && decide (0 < signedLength (suffix ++ rest))) = false := by
    rw [Bool.and_eq_false_iff]
    by_cases hempty : suffix = []
    · subst hempty
      rw [List.append_nil] at hsign
      rcases hsign with hsign | hsign
      · exact .inr (by simp [signedLength_of_clear hsign])
      · exact .inl (endsInMark_eq_false hsign)
    · have hclear : Clear (fun c => c = '+' || c = '-') suffix := clear_suffix hsuffix (by decide)
      exact .inr (by simp [signedLength_of_clear (hclear.append_of_ne_nil hempty rest)])
  have hexponentLength : exponentLength ['p', 'P'] (suffix ++ rest) = 0 :=
    exponentLength_of_clear ((clear_suffix hsuffix (by decide)).append (hr.contains (by decide)))
  have hsuffixLength := suffixLength_append (suffix_cases suffix (List.mem_append_left _ hsuffix))
    (hr.contains (by decide))
  simp only [hexLength, hwholeLength, List.drop_left, hpointLength, Nat.add_zero, List.take_left,
    hmark, Bool.false_eq_true, if_false, hexponentLength, List.drop_zero, hsuffixLength]

theorem hexLength_float {whole fraction exponent suffix : List Char}
    (hwhole : OptionalDigits isHexDigit whole) (hfraction : Fraction isHexDigit fraction)
    (hexponent : Exponent ['p', 'P'] exponent) (hsuffix : suffix ∈ floatSuffixes)
    (hr : Clear continuesNumber rest) :
    hexLength (whole ++ (fraction ++ (exponent ++ (suffix ++ rest)))) =
      whole.length + fraction.length + exponent.length + suffix.length := by
  have hexp {p : Char → Bool} (hp : ∀ mark ∈ ['p', 'P'], p mark = false) :
      Clear p (exponent ++ (suffix ++ rest)) := by
    refine (hexponent.clear hp).append_of_ne_nil ?_ _
    obtain ⟨mark, sign, ds, rfl, -⟩ := hexponent
    simp
  have hdigits : Clear (fun c => isHexDigit c || c = '_') (exponent ++ (suffix ++ rest)) :=
    hexp (by decide)
  have hwholeLength := digitsLength_append hwhole ((hfraction.clear (by decide)).append hdigits)
  have hpointLength := pointLength_append hfraction hdigits (hexp (by decide))
  have hsignedLength : signedLength (exponent ++ (suffix ++ rest)) = 0 :=
    signedLength_of_clear (hexp (by decide))
  have hexponentLength := exponentLength_append hexponent
    ((clear_suffix (p := fun c => Char.isDigit c || c = '_') hsuffix (by decide)).append hr.digit)
  have hsuffixLength := suffixLength_append (suffix_cases suffix (List.mem_append_right _ hsuffix))
    (hr.contains (by decide))
  simp only [hexLength, hwholeLength, List.drop_left, hpointLength, ← List.drop_drop,
    hsignedLength, Nat.lt_irrefl, decide_false, Bool.and_false, Bool.false_eq_true, if_false,
    hexponentLength, hsuffixLength]

/-- A number that does not start with the mark of a base. -/
theorem numberLength_of_clear {c : Char}
    (h : Clear ['x', 'X', 'b', 'B', 'o', 'O'].contains cs) :
    numberLength (c :: cs) = decimalLength (c :: cs) := by
  unfold numberLength
  split
  · next mark more heq =>
    cases heq
    have hmark : mark ∉ ['x', 'X', 'b', 'B', 'o', 'O'] := by simpa using h mark rfl
    simp only [List.mem_cons, List.not_mem_nil, or_false, not_or] at hmark
    simp [hmark]
  · rfl

theorem toLower_of_isDigit {c : Char} (h : (c.isDigit || c = '_') = true) : c.toLower = c := by
  simp only [Bool.or_eq_true, decide_eq_true_eq] at h
  rcases h with h | rfl
  · simp only [Char.isDigit, ge_iff_le, Bool.and_eq_true, decide_eq_true_eq] at h
    refine dif_neg fun hupper => ?_
    exact absurd (UInt32.le_trans hupper.1 h.2) (by decide)
  · rfl

theorem isFloat_of_clear {c : Char} (h : Clear (fun d => ['x', 'b'].contains d.toLower) cs) :
    isFloat (c :: cs) = (c :: cs).any fun d => ['.', 'e', 'p', 'f', 'd'].contains d.toLower := by
  have hbase (base : Char) (hbase : base ∈ ['x', 'b']) (digits : List Char) :
      (c :: cs).map Char.toLower ≠ '0' :: base :: digits := by
    intro heq
    cases cs with
    | nil => simp at heq
    | cons d ds =>
      have hd : d.toLower = base := by simp_all
      have hclear : ['x', 'b'].contains d.toLower = false := h d rfl
      rw [hd] at hclear
      simp [hbase] at hclear
  unfold isFloat
  split
  · next heq => exact absurd heq (hbase 'x' (by simp) _)
  · next heq => exact absurd heq (hbase 'b' (by simp) _)
  · simp [Function.comp_def, Bool.or_assoc]

theorem isFloat_hexadecimal {mark : Char} (h : mark ∈ ['x', 'X']) :
    isFloat ('0' :: mark :: cs) = cs.any fun d => ['.', 'p', '+', '-'].contains d.toLower := by
  simp only [List.mem_cons, List.not_mem_nil, or_false] at h
  rcases h with rfl | rfl <;> simp [isFloat, Function.comp_def, Bool.or_assoc]

theorem isFloat_binary {mark : Char} (h : mark ∈ ['b', 'B']) :
    isFloat ('0' :: mark :: cs) = false := by
  simp only [List.mem_cons, List.not_mem_nil, or_false] at h
  rcases h with rfl | rfl <;> simp [isFloat]

theorem contains_of_isDigit {chars : List Char}
    (hchars : ∀ c ∈ chars, (c.isDigit || c = '_') = false) {c : Char}
    (h : (c.isDigit || c = '_') = true) : chars.contains c = false := by
  cases hc : chars.contains c with
  | false => rfl
  | true => rw [← hchars c (by simpa using hc), h]

theorem contains_toLower_of_isDigit {chars : List Char}
    (hchars : ∀ c ∈ chars, (c.isDigit || c = '_') = false) {c : Char}
    (h : (c.isDigit || c = '_') = true) : chars.contains c.toLower = false := by
  rw [toLower_of_isDigit h]
  exact contains_of_isDigit hchars h

theorem contains_toLower_of_isHexDigit {c : Char} (h : (isHexDigit c || c = '_') = true) :
    ['.', 'p', '+', '-'].contains c.toLower = false := by
  have hletters : ∀ c ∈ "abcdefABCDEF".toList, ['.', 'p', '+', '-'].contains c.toLower = false := by
    decide
  simp only [Bool.or_eq_true, decide_eq_true_eq] at h
  rcases h with h | rfl
  · rcases isHexDigit_cases h with h | h
    · exact contains_toLower_of_isDigit (by decide) (by simp [h])
    · exact hletters c h
  · decide

theorem clear_of_all {p : Char → Bool} (h : ∀ c ∈ cs, p c = false) : Clear p cs := by
  cases cs with
  | nil => exact .nil
  | cons c cs => exact .cons (h c List.mem_cons_self)

/-- The marks of a base, of which none is in a decimal number. -/
theorem clear_base {more tail : List Char} {p : Char → Bool}
    (h : ∀ c ∈ more, (Char.isDigit c || c = '_') = true)
    (hp : ∀ c, (Char.isDigit c || c = '_') = true → p c = false) (htail : Clear p tail) :
    Clear p (more ++ tail) :=
  (clear_of_all fun c hc => hp c (h c hc)).append htail

section
variable {c mark : Char} {more tail whole fraction exponent suffix : List Char}

theorem numberLength_of_digits (hmore : ∀ d ∈ more, (Char.isDigit d || d = '_') = true)
    (htail : Clear ['x', 'X', 'b', 'B', 'o', 'O'].contains tail) (hr : Clear continuesNumber rest) :
    numberLength (c :: (more ++ tail) ++ rest) = decimalLength (c :: (more ++ tail) ++ rest) := by
  rw [List.cons_append, List.append_assoc]
  exact numberLength_of_clear (clear_base hmore (fun d => contains_of_isDigit (by decide))
    (htail.append (hr.contains (by decide))))

theorem isFloat_of_digits (hmore : ∀ d ∈ more, (Char.isDigit d || d = '_') = true)
    (htail : Clear (fun d => ['x', 'b'].contains d.toLower) tail) :
    isFloat (c :: (more ++ tail)) =
      (c :: (more ++ tail)).any fun d => ['.', 'e', 'p', 'f', 'd'].contains d.toLower :=
  isFloat_of_clear (clear_base hmore (fun d => contains_toLower_of_isDigit (by decide)) htail)

-- ---------------------------------------------------------------------------
-- Integers
-- ---------------------------------------------------------------------------

theorem numberLength_decimalInteger (hds : Digits Char.isDigit ds) (hsuffix : suffix ∈ longSuffixes)
    (hr : Clear continuesNumber rest) :
    numberLength (ds ++ suffix ++ rest) = (ds ++ suffix).length ∧
      isFloat (ds ++ suffix) = false := by
  have hlength : decimalLength (ds ++ (suffix ++ rest)) = ds.length + suffix.length := by
    simpa using decimalLength_append (.inr hds) (.inl rfl) (.inl rfl)
      (List.mem_append_left _ hsuffix) hr
  have hnone : (ds.any fun c => ['.', 'e', 'p', 'f', 'd'].contains c.toLower) = false :=
    List.any_eq_false.mpr fun c hc => by
      rw [contains_toLower_of_isDigit (by decide) (OptionalDigits.all (.inr hds) c hc)]
      simp
  have hsuffixNone : ∀ suffix ∈ longSuffixes,
      (suffix.any fun c => ['.', 'e', 'p', 'f', 'd'].contains c.toLower) = false := by
    decide
  obtain ⟨d, more, rfl, hd, hmore⟩ := hds
  constructor
  · rw [List.cons_append, numberLength_of_digits hmore (clear_suffix hsuffix (by decide)) hr,
      ← List.cons_append, List.append_assoc, hlength, List.length_append]
  · rw [List.cons_append, isFloat_of_digits hmore (clear_suffix hsuffix (by decide)),
      ← List.cons_append, List.any_append, hnone, hsuffixNone suffix hsuffix]
    rfl

theorem numberLength_hexInteger (hmark : mark ∈ ['x', 'X']) (hds : Digits isHexDigit ds)
    (hsuffix : suffix ∈ longSuffixes) (hr : Clear continuesNumber rest)
    (hsign : NoSign ('0' :: mark :: (ds ++ suffix)) rest) :
    numberLength ('0' :: mark :: (ds ++ suffix) ++ rest) = (ds ++ suffix).length + 2 ∧
      isFloat ('0' :: mark :: (ds ++ suffix)) = false := by
  have hsign' : NoSign (ds ++ suffix) rest := by
    refine hsign.imp_right fun hlast c hc => hlast c ?_
    rw [List.getLast?_cons_cons, List.getLast?_cons, hc]
    rfl
  have hlength := hexLength_integer hds hsuffix hr hsign'
  have hnone : (ds.any fun c => ['.', 'p', '+', '-'].contains c.toLower) = false :=
    List.any_eq_false.mpr fun c hc => by
      rw [contains_toLower_of_isHexDigit (OptionalDigits.all (.inr hds) c hc)]
      simp
  have hsuffixNone : ∀ suffix ∈ longSuffixes,
      (suffix.any fun c => ['.', 'p', '+', '-'].contains c.toLower) = false := by
    decide
  constructor
  · simp only [List.mem_cons, List.not_mem_nil, or_false] at hmark
    simp [numberLength, hmark, hlength]
  · rw [isFloat_hexadecimal hmark, List.any_append, hnone, hsuffixNone suffix hsuffix]
    rfl

theorem isDigit_of_isBinaryDigit (h : isBinaryDigit c = true) : c.isDigit = true := by
  simp only [isBinaryDigit, Bool.or_eq_true, decide_eq_true_eq] at h
  rcases h with rfl | rfl <;> decide

theorem numberLength_binary (hmark : mark ∈ ['b', 'B']) (hds : Digits isBinaryDigit ds)
    (hsuffix : suffix ∈ longSuffixes) (hr : Clear continuesNumber rest) :
    numberLength ('0' :: mark :: (ds ++ suffix) ++ rest) = (ds ++ suffix).length + 2 := by
  have hdigits : Digits Char.isDigit ds := hds.mono fun _ => isDigit_of_isBinaryDigit
  have hlength : digitsLength Char.isDigit (ds ++ (suffix ++ rest)) = ds.length :=
    digitsLength_append (.inr hdigits) ((clear_suffix hsuffix (by decide)).append hr.digit)
  have hsuffixes : ∀ suffix ∈ longSuffixes, suffix = [] ∨ ∃ c ∈ ['l', 'L'], suffix = [c] := by
    decide
  have hsuffixLength := suffixLength_append (hsuffixes suffix hsuffix)
    (hr.contains (by decide : ∀ c ∈ ['l', 'L'], continuesNumber c = true))
  simp only [List.mem_cons, List.not_mem_nil, or_false] at hmark
  rcases hmark with rfl | rfl
  · simp [numberLength, hlength, hsuffixLength]
    omega
  · simp [numberLength, hlength, hsuffixLength]
    omega

theorem numberLength_integer {text : List Char} (h : IntegerText text)
    (hr : Clear continuesNumber rest) (hsign : NoSign text rest) :
    numberLength (text ++ rest) = text.length ∧ isFloat text = false := by
  cases h with
  | decimal hds hsuffix => exact numberLength_decimalInteger hds hsuffix hr
  | hexadecimal hmark hds hsuffix => exact numberLength_hexInteger hmark hds hsuffix hr hsign
  | binary hmark hds hsuffix =>
    exact ⟨numberLength_binary hmark hds hsuffix hr, isFloat_binary hmark⟩

-- ---------------------------------------------------------------------------
-- Floating-point numbers
-- ---------------------------------------------------------------------------

/-- A decimal number starts with a character that digits follow; what stands behind them is no
digit. -/
theorem exists_digits_of_decimal (suffix : List Char)
    (hwhole : OptionalDigits Char.isDigit whole)
    (hfraction : Fraction Char.isDigit fraction)
    (hexponent : exponent = [] ∨ Exponent ['e', 'E'] exponent)
    (hdigit : whole ≠ [] ∨ 2 ≤ fraction.length) :
    ∃ c more tail, whole ++ (fraction ++ (exponent ++ suffix)) = c :: (more ++ tail) ∧
      (∀ d ∈ more, (Char.isDigit d || d = '_') = true) ∧
      ∀ p : Char → Bool, p '.' = false → p 'e' = false → p 'E' = false →
        Clear p suffix → Clear p tail := by
  rcases hwhole with rfl | ⟨d, more, rfl, -, hmore⟩
  · obtain rfl | ⟨ds, rfl, hds⟩ := hfraction
    · simp at hdigit
    · exact ⟨'.', ds, exponent ++ suffix, rfl, hds.all,
        fun p _ he hE hs => (clear_exponent hexponent he hE).append hs⟩
  · exact ⟨d, more, fraction ++ (exponent ++ suffix), rfl, hmore, fun p hpoint he hE hs =>
      (hfraction.clear hpoint).append ((clear_exponent hexponent he hE).append hs)⟩

/-- The point, the mark of an exponent, or the suffix says that a number is no integer. -/
theorem any_floatMark (whole : List Char) (hfraction : Fraction Char.isDigit fraction)
    (hexponent : exponent = [] ∨ Exponent ['e', 'E'] exponent) (hsuffix : suffix ∈ floatSuffixes)
    (hfloat : fraction ≠ [] ∨ exponent ≠ [] ∨ suffix ≠ []) :
    ((whole ++ (fraction ++ (exponent ++ suffix))).any fun c =>
      ['.', 'e', 'p', 'f', 'd'].contains c.toLower) = true := by
  have hsuffixSome : ∀ suffix ∈ floatSuffixes, suffix ≠ [] →
      ∃ c ∈ suffix, ['.', 'e', 'p', 'f', 'd'].contains c.toLower = true := by
    decide
  rw [List.any_eq_true]
  rcases hfloat with hfloat | hfloat | hfloat
  · obtain ⟨ds, rfl, -⟩ := hfraction.resolve_left hfloat
    exact ⟨'.', by simp, by decide⟩
  · obtain ⟨mark, sign, ds, rfl, hmark, -⟩ := hexponent.resolve_left hfloat
    refine ⟨mark, by simp, ?_⟩
    simp only [List.mem_cons, List.not_mem_nil, or_false] at hmark
    rcases hmark with rfl | rfl <;> decide
  · obtain ⟨c, hc, hcontains⟩ := hsuffixSome suffix hsuffix hfloat
    exact ⟨c, by simp [hc], hcontains⟩

theorem numberLength_decimalFloat (hwhole : OptionalDigits Char.isDigit whole)
    (hfraction : Fraction Char.isDigit fraction)
    (hexponent : exponent = [] ∨ Exponent ['e', 'E'] exponent) (hsuffix : suffix ∈ floatSuffixes)
    (hdigit : whole ≠ [] ∨ 2 ≤ fraction.length)
    (hfloat : fraction ≠ [] ∨ exponent ≠ [] ∨ suffix ≠ []) (hr : Clear continuesNumber rest) :
    numberLength (whole ++ (fraction ++ (exponent ++ suffix)) ++ rest) =
        (whole ++ (fraction ++ (exponent ++ suffix))).length ∧
      isFloat (whole ++ (fraction ++ (exponent ++ suffix))) = true := by
  have hlength :=
    decimalLength_append hwhole hfraction hexponent (List.mem_append_right _ hsuffix) hr
  have hany := any_floatMark whole hfraction hexponent hsuffix hfloat
  obtain ⟨c, more, tail, htext, hmore, htail⟩ :=
    exists_digits_of_decimal suffix hwhole hfraction hexponent hdigit
  constructor
  · rw [htext, numberLength_of_digits hmore (htail _ rfl rfl rfl (clear_suffix hsuffix (by decide)))
      hr, ← htext]
    simp only [List.append_assoc, hlength, List.length_append, Nat.add_assoc]
  · rw [htext, isFloat_of_digits hmore (htail _ rfl rfl rfl (clear_suffix hsuffix (by decide))),
      ← htext, hany]

theorem numberLength_hexFloat (hmark : mark ∈ ['x', 'X']) (hwhole : OptionalDigits isHexDigit whole)
    (hfraction : Fraction isHexDigit fraction) (hexponent : Exponent ['p', 'P'] exponent)
    (hsuffix : suffix ∈ floatSuffixes) (hr : Clear continuesNumber rest) :
    numberLength ('0' :: mark :: (whole ++ (fraction ++ (exponent ++ suffix))) ++ rest) =
        (whole ++ (fraction ++ (exponent ++ suffix))).length + 2 ∧
      isFloat ('0' :: mark :: (whole ++ (fraction ++ (exponent ++ suffix)))) = true := by
  have hlength := hexLength_float hwhole hfraction hexponent hsuffix hr
  constructor
  · simp only [List.mem_cons, List.not_mem_nil, or_false] at hmark
    simp [numberLength, hmark, hlength]
    omega
  · obtain ⟨point, sign, ds, rfl, hpoint, -⟩ := hexponent
    rw [isFloat_hexadecimal hmark, List.any_eq_true]
    refine ⟨point, by simp, ?_⟩
    simp only [List.mem_cons, List.not_mem_nil, or_false] at hpoint
    rcases hpoint with rfl | rfl <;> decide

theorem numberLength_float {text : List Char} (h : FloatText text)
    (hr : Clear continuesNumber rest) :
    numberLength (text ++ rest) = text.length ∧ isFloat text = true := by
  cases h with
  | decimal hwhole hfraction hexponent hsuffix hdigit hfloat =>
    exact numberLength_decimalFloat hwhole hfraction hexponent hsuffix hdigit hfloat hr
  | hexadecimal hmark hwhole hfraction hexponent hsuffix _ =>
    exact numberLength_hexFloat hmark hwhole hfraction hexponent hsuffix hr

end

end

end TypeWeave.Java
