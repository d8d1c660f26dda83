import Mathlib.Data.List.Forall2
import TypeWeave.Json

/-!
# JSON texts

The grammar of JSON for documents of strings, lists and records, with any blanks between the parts
and any escapes in strings (`Json.Spells`). A reader accepts the texts of this grammar and no
others (`Json.parse?_eq_some_iff`), so a text stands for one document at most. What is printed for a
document is one of its texts (`Json.isText_pretty`).
-/

namespace TypeWeave.Json

-- ---------------------------------------------------------------------------
-- Grammar
-- ---------------------------------------------------------------------------

def isGap (c : Char) : Bool := [' ', '\t', '\n', '\r'].contains c

def IsGap (cs : List Char) : Prop := ∀ c ∈ cs, isGap c = true

def shortEscapes : List (Char × Char) := [
  ('"', '"'), ('\\', '\\'), ('/', '/'), ('b', '\x08'), ('f', '\x0c'), ('n', '\n'), ('r', '\r'),
  ('t', '\t')]

def hexValue? (c : Char) : Option Nat :=
  if '0' ≤ c ∧ c ≤ '9' then some (c.toNat - 48)
  else if 'a' ≤ c ∧ c ≤ 'f' then some (c.toNat - 87)
  else if 'A' ≤ c ∧ c ≤ 'F' then some (c.toNat - 55)
  else none

/-- An escape with the four hexadecimal digits of a code unit. -/
inductive SpellsUnit : Nat → List Char → Prop
  | digits {a b c d p q r s} : hexValue? a = some p → hexValue? b = some q →
      hexValue? c = some r → hexValue? d = some s →
      SpellsUnit (((p * 16 + q) * 16 + r) * 16 + s) ['\\', 'u', a, b, c, d]

def surrogateValue (high low : Nat) : Nat := 0x10000 + (high - 0xD800) * 0x400 + (low - 0xDC00)

inductive SpellsChar : Char → List Char → Prop
  | plain {c} : c ≠ '"' → c ≠ '\\' → 0x20 ≤ c.toNat → SpellsChar c [c]
  | short {letter c} : shortEscapes.lookup letter = some c → SpellsChar c ['\\', letter]
  | unit {c cs} : SpellsUnit c.toNat cs → SpellsChar c cs
  | surrogates {c high low cs ds} : SpellsUnit high cs → SpellsUnit low ds →
      0xD800 ≤ high → high ≤ 0xDBFF → 0xDC00 ≤ low → low ≤ 0xDFFF →
      c.toNat = surrogateValue high low → SpellsChar c (cs ++ ds)

inductive SpellsChars : List Char → List Char → Prop
  | nil : SpellsChars [] []
  | cons {c text cs ds} : SpellsChar c cs → SpellsChars text ds →
      SpellsChars (c :: text) (cs ++ ds)

inductive SpellsString : String → List Char → Prop
  | quoted {text cs} : SpellsChars text.toList cs → SpellsString text ('"' :: (cs ++ ['"']))

section
variable {α : Type}

inductive SpellsSeries (spells : α → List Char → Prop) : List α → List Char → Prop
  | last {a gap cs gap'} : IsGap gap → spells a cs → IsGap gap' →
      SpellsSeries spells [a] (gap ++ (cs ++ gap'))
  | cons {a as gap cs gap' ds} : IsGap gap → spells a cs → IsGap gap' →
      SpellsSeries spells as ds → SpellsSeries spells (a :: as) (gap ++ (cs ++ (gap' ++ ',' :: ds)))

inductive SpellsEntries (spells : α → List Char → Prop) : List α → List Char → Prop
  | empty {gap} : IsGap gap → SpellsEntries spells [] gap
  | series {as cs} : SpellsSeries spells as cs → SpellsEntries spells as cs

end

inductive SpellsField (spells : Json → List Char → Prop) : String × Json → List Char → Prop
  | field {key value cs gap gap' ds} : SpellsString key cs → IsGap gap → IsGap gap' →
      spells value ds → SpellsField spells (key, value) (cs ++ (gap ++ ':' :: (gap' ++ ds)))

inductive Spells : Json → List Char → Prop
  | null : Spells .null ['n', 'u', 'l', 'l']
  | str {text cs} : SpellsString text cs → Spells (.str text) cs
  | arr {items cs} : SpellsEntries Spells items cs → Spells (.arr items) ('[' :: (cs ++ [']']))
  | obj {fields cs} : SpellsEntries (SpellsField Spells) fields cs →
      Spells (.obj fields) ('\x7b' :: (cs ++ ['\x7d']))

/-- The document has this text, with blanks around it. -/
def IsText (j : Json) (text : String) : Prop :=
  ∃ gap cs gap', IsGap gap ∧ Spells j cs ∧ IsGap gap' ∧ text.toList = gap ++ (cs ++ gap')

-- ---------------------------------------------------------------------------
-- Reader
-- ---------------------------------------------------------------------------

def skipGap (cs : List Char) : List Char := cs.dropWhile isGap

def readUnit : List Char → Option (Nat × List Char)
  | '\\' :: 'u' :: a :: b :: c :: d :: rest =>
    match hexValue? a, hexValue? b, hexValue? c, hexValue? d with
    | some p, some q, some r, some s => some (((p * 16 + q) * 16 + r) * 16 + s, rest)
    | _, _, _, _ => none
  | _ => none

/-- A character that is spelled by one or two code units, of which the first has been read. -/
def readUnits (n : Nat) (rest : List Char) : Option (Char × List Char) :=
  if n.isValidChar then some (Char.ofNat n, rest)
  else
    match readUnit rest with
    | some (low, rest) =>
      if n ≤ 0xDBFF ∧ 0xDC00 ≤ low ∧ low ≤ 0xDFFF then
        some (Char.ofNat (surrogateValue n low), rest)
      else none
    | none => none

def readChar (cs : List Char) : Option (Char × List Char) :=
  match readUnit cs with
  | some (n, rest) => readUnits n rest
  | none =>
    match cs with
    | '\\' :: letter :: rest => (shortEscapes.lookup letter).map fun c => (c, rest)
    | c :: rest => if c = '"' ∨ c = '\\' ∨ c.toNat < 0x20 then none else some (c, rest)
    | [] => none

def readChars : Nat → List Char → Option (List Char × List Char)
  | 0, _ => none
  | fuel + 1, cs =>
    if cs.head? = some '"' then some ([], cs.tail)
    else
      (readChar cs).bind fun (c, rest) =>
        (readChars fuel rest).map fun (text, rest) => (c :: text, rest)

def readString (fuel : Nat) : List Char → Option (String × List Char)
  | '"' :: rest => (readChars fuel rest).map fun (text, rest) => (String.ofList text, rest)
  | _ => none

section
variable {α : Type} (reader : List Char → Option (α × List Char)) (closing : Char)

def readSeries : Nat → List Char → Option (List α × List Char)
  | 0, _ => none
  | fuel + 1, cs =>
    match reader cs with
    | none => none
    | some (a, rest) =>
      match skipGap rest with
      | [] => none
      | c :: rest =>
        if c = ',' then (readSeries fuel rest).map fun (as, rest) => (a :: as, rest)
        else if c = closing then some ([a], rest)
        else none

def readEntries (fuel : Nat) (cs : List Char) : Option (List α × List Char) :=
  match skipGap cs with
  | [] => none
  | c :: rest => if c = closing then some ([], rest) else readSeries reader closing fuel cs

end

def readField (reader : List Char → Option (Json × List Char)) (fuel : Nat) (cs : List Char) :
    Option ((String × Json) × List Char) :=
  match readString fuel (skipGap cs) with
  | none => none
  | some (key, rest) =>
    match skipGap rest with
    | ':' :: rest => (reader rest).map fun (value, rest) => ((key, value), rest)
    | _ => none

def read : Nat → List Char → Option (Json × List Char)
  | 0, _ => none
  | fuel + 1, cs =>
    match skipGap cs with
    | 'n' :: 'u' :: 'l' :: 'l' :: rest => some (.null, rest)
    | '[' :: rest =>
      (readEntries (read fuel) ']' fuel rest).map fun (items, rest) => (.arr items, rest)
    | '\x7b' :: rest =>
      (readEntries (readField (read fuel) fuel) '\x7d' fuel rest).map fun (fields, rest) =>
        (.obj fields, rest)
    | cs => (readString fuel cs).map fun (text, rest) => (.str text, rest)

def parse? (text : String) : Option Json :=
  match read (text.toList.length + 1) text.toList with
  | some (j, rest) => if rest.all isGap then some j else none
  | none => none

section
variable {α : Type} {cs rest gap : List Char} {c : Char} {n fuel : Nat}

theorem isGap_nil : IsGap [] := fun _ h => nomatch h

theorem skipGap_append (h : IsGap gap) (cs : List Char) : skipGap (gap ++ cs) = skipGap cs :=
  List.dropWhile_append_of_pos h

theorem skipGap_cons (h : isGap c = false) (cs : List Char) : skipGap (c :: cs) = c :: cs := by
  simp [skipGap, h]

theorem exists_gap (cs : List Char) : ∃ gap, IsGap gap ∧ cs = gap ++ skipGap cs :=
  ⟨cs.takeWhile isGap, List.all_eq_true.mp List.all_takeWhile,
    List.takeWhile_append_dropWhile.symm⟩

-- ---------------------------------------------------------------------------
-- Strings
-- ---------------------------------------------------------------------------

theorem SpellsUnit.read_append (h : SpellsUnit n cs) (rest : List Char) :
    readUnit (cs ++ rest) = some (n, rest) := by
  cases h with
  | digits ha hb hc hd => simp [readUnit, ha, hb, hc, hd]

theorem spellsUnit_of_readUnit (h : readUnit cs = some (n, rest)) :
    ∃ used, SpellsUnit n used ∧ cs = used ++ rest := by
  unfold readUnit at h
  split at h
  · split at h
    · next ha hb hc hd =>
      cases h
      exact ⟨_, .digits ha hb hc hd, rfl⟩
    · cases h
  · cases h

theorem readUnit_eq_none (h : ∀ d ∈ cs.head?, d ≠ '\\') : readUnit cs = none := by
  unfold readUnit
  split
  · exact absurd rfl (h _ rfl)
  · rfl

theorem SpellsChar.read_append (h : SpellsChar c cs) (rest : List Char) :
    readChar (cs ++ rest) = some (c, rest) := by
  cases h with
  | plain hquote hbackslash hcontrol =>
    have hunit : readUnit (c :: rest) = none := by
      refine readUnit_eq_none fun d hd => ?_
      cases hd
      exact hbackslash
    simp [readChar, hunit, hquote, hbackslash, Nat.not_lt.mpr hcontrol]
  | @short letter _ hletter =>
    have hne : letter ≠ 'u' := by
      rintro rfl
      cases hletter
    have hunit : readUnit ('\\' :: letter :: rest) = none := by simp [readUnit, hne]
    simp [readChar, hunit, hletter]
  | unit hunit =>
    have hvalid : c.toNat.isValidChar := c.valid
    simp [readChar, hunit.read_append, readUnits, hvalid]
  | @surrogates _ high low cs ds hhigh hlow h₁ h₂ h₃ h₄ hc =>
    have hinvalid : ¬ high.isValidChar := by
      unfold Nat.isValidChar
      omega
    rw [List.append_assoc]
    simp [readChar, hhigh.read_append, hlow.read_append, readUnits, hinvalid, h₂, h₃, h₄, ← hc]

theorem toNat_ofNat_of_isValidChar (h : n.isValidChar) : (Char.ofNat n).toNat = n := by
  rw [Char.ofNat, dif_pos h]
  rfl

theorem spellsChar_of_readUnits {used : List Char} (hunit : SpellsUnit n used)
    (h : readUnits n cs = some (c, rest)) :
    ∃ more, SpellsChar c (used ++ more) ∧ cs = more ++ rest := by
  unfold readUnits at h
  split at h
  · next hvalid =>
    cases h
    have hn := toNat_ofNat_of_isValidChar hvalid
    exact ⟨[], by simpa using SpellsChar.unit (hn.symm ▸ hunit), rfl⟩
  · next hinvalid =>
    split at h
    · next low rest' hlow =>
      split at h
      · next hrange =>
        rw [Option.some.injEq, Prod.mk.injEq] at h
        obtain ⟨rfl, rfl⟩ := h
        obtain ⟨more, hmore, rfl⟩ := spellsUnit_of_readUnit hlow
        have hhigh : 0xD800 ≤ n := by
          unfold Nat.isValidChar at hinvalid
          omega
        have hpair : (surrogateValue n low).isValidChar := by
          unfold surrogateValue Nat.isValidChar
          omega
        exact ⟨more, .surrogates hunit hmore hhigh hrange.1 hrange.2.1 hrange.2.2
          (toNat_ofNat_of_isValidChar hpair), rfl⟩
      · cases h
    · cases h

theorem spellsChar_of_readChar (h : readChar cs = some (c, rest)) :
    ∃ used, SpellsChar c used ∧ cs = used ++ rest := by
  unfold readChar at h
  split at h
  · next n behind hunit =>
    obtain ⟨used, hused, rfl⟩ := spellsUnit_of_readUnit hunit
    obtain ⟨more, hmore, rfl⟩ := spellsChar_of_readUnits hused h
    exact ⟨used ++ more, hmore, (List.append_assoc ..).symm⟩
  · split at h
    · next letter behind _ =>
      obtain ⟨d, hd, heq⟩ := Option.map_eq_some_iff.mp h
      cases heq
      exact ⟨_, .short hd, rfl⟩
    · split at h
      · cases h
      · next hplain =>
        cases h
        simp only [not_or, Nat.not_lt] at hplain
        exact ⟨_, .plain hplain.1 hplain.2.1 hplain.2.2, rfl⟩
    · cases h

theorem SpellsChar.head_ne (h : SpellsChar c cs) (rest : List Char) :
    (cs ++ rest).head? ≠ some '"' := by
  intro hquote
  have hread := h.read_append rest
  obtain ⟨ds, hds⟩ := List.head?_eq_some_iff.mp hquote
  rw [hds] at hread
  cases hread

theorem SpellsChar.length_pos (h : SpellsChar c cs) : 0 < cs.length := by
  refine List.length_pos_iff.mpr ?_
  rintro rfl
  cases h.read_append []

theorem SpellsChars.read_append {text : List Char} (h : SpellsChars text cs)
    (hfuel : cs.length < fuel) (rest : List Char) :
    readChars fuel (cs ++ '"' :: rest) = some (text, rest) := by
  induction h generalizing fuel with
  | nil =>
    obtain ⟨fuel, rfl⟩ := Nat.exists_eq_add_of_le' (Nat.one_le_of_lt hfuel)
    rfl
  | @cons c text cs ds hc _ ih =>
    have hlength := hc.length_pos
    rw [List.length_append] at hfuel
    obtain ⟨fuel, rfl⟩ := Nat.exists_eq_add_of_le' (show 1 ≤ fuel by omega)
    rw [List.append_assoc, readChars, if_neg (hc.head_ne _), hc.read_append]
    simp [ih (show ds.length < fuel by omega)]

theorem spellsChars_of_readChars {text : List Char} (h : readChars fuel cs = some (text, rest)) :
    ∃ used, SpellsChars text used ∧ cs = used ++ '"' :: rest := by
  induction fuel generalizing cs text with
  | zero => cases h
  | succ fuel ih =>
    rw [readChars] at h
    split at h
    · next hquote =>
      cases h
      obtain ⟨ds, rfl⟩ := List.head?_eq_some_iff.mp hquote
      exact ⟨[], .nil, rfl⟩
    · obtain ⟨⟨c, behind⟩, hc, hmap⟩ := Option.bind_eq_some_iff.mp h
      obtain ⟨⟨more, _⟩, hmore, heq⟩ := Option.map_eq_some_iff.mp hmap
      cases heq
      obtain ⟨used, hused, rfl⟩ := spellsChar_of_readChar hc
      obtain ⟨used', hused', rfl⟩ := ih hmore
      exact ⟨used ++ used', .cons hused hused', (List.append_assoc ..).symm⟩

theorem SpellsString.read_append {text : String} (h : SpellsString text cs)
    (hfuel : cs.length ≤ fuel) (rest : List Char) :
    readString fuel (cs ++ rest) = some (text, rest) := by
  cases h with
  | @quoted cs h =>
    simp only [List.length_cons, List.length_append] at hfuel
    have hread := h.read_append (show cs.length < fuel by omega) rest
    simp [readString, hread]

theorem spellsString_of_readString {text : String} (h : readString fuel cs = some (text, rest)) :
    ∃ used, SpellsString text used ∧ cs = used ++ rest := by
  unfold readString at h
  split at h
  · obtain ⟨⟨chars, _⟩, hchars, heq⟩ := Option.map_eq_some_iff.mp h
    cases heq
    obtain ⟨used, hused, rfl⟩ := spellsChars_of_readChars hchars
    exact ⟨'"' :: (used ++ ['"']), .quoted (by simpa using hused), by simp⟩
  · cases h

-- ---------------------------------------------------------------------------
-- Lists and records
-- ---------------------------------------------------------------------------

/-- The reader takes every text that `spells` allows, if it is not too long, off any text, and the
blanks in front of it. -/
def Reads (spells : α → List Char → Prop) (reader : List Char → Option (α × List Char))
    (bound : Nat) : Prop :=
  ∀ a gap cs rest, IsGap gap → spells a cs → gap.length + cs.length < bound →
    reader (gap ++ (cs ++ rest)) = some (a, rest)

/-- What the reader takes off a text is allowed by `spells`, apart from the blanks in front. -/
def Sound (spells : α → List Char → Prop) (reader : List Char → Option (α × List Char)) : Prop :=
  ∀ cs a rest, reader cs = some (a, rest) →
    ∃ gap used, IsGap gap ∧ spells a used ∧ cs = gap ++ (used ++ rest)

def openings : List Char := ['n', '"', '[', '\x7b']

theorem isGap_of_mem_openings (h : c ∈ openings) : isGap c = false := by
  have hall : ∀ c ∈ openings, isGap c = false := by simp [openings, isGap]
  exact hall c h

def Starts (spells : α → List Char → Prop) : Prop :=
  ∀ a cs, spells a cs → ∃ c ∈ openings, ∃ ds, cs = c :: ds

section
variable {spells : α → List Char → Prop} {reader : List Char → Option (α × List Char)}
  {closing : Char} {as : List α} {bound : Nat}

theorem SpellsSeries.starts (h : SpellsSeries spells as cs) (hstarts : Starts spells) :
    ∃ gap, IsGap gap ∧ ∃ c ∈ openings, ∃ ds, cs = gap ++ c :: ds := by
  cases h with
  | last hgap ha | cons hgap ha =>
    obtain ⟨c, hc, ds, rfl⟩ := hstarts _ _ ha
    exact ⟨_, hgap, c, hc, _, rfl⟩

theorem SpellsSeries.read_append (h : SpellsSeries spells as cs)
    (hreads : Reads spells reader bound) (hclosing : isGap closing = false ∧ closing ≠ ',')
    (hbound : cs.length < bound) (hfuel : cs.length < fuel) (rest : List Char) :
    readSeries reader closing fuel (cs ++ closing :: rest) = some (as, rest) := by
  induction h generalizing fuel with
  | @last a gap cs gap' hgap ha hgap' =>
    simp only [List.length_append] at hbound hfuel
    obtain ⟨fuel, rfl⟩ := Nat.exists_eq_add_of_le' (show 1 ≤ fuel by omega)
    have hread := hreads a gap cs (gap' ++ closing :: rest) hgap ha (by omega)
    rw [List.append_assoc, List.append_assoc, readSeries, hread]
    simp only [skipGap_append hgap', skipGap_cons hclosing.1, hclosing.2, if_false, if_true]
  | @cons a as gap cs gap' ds hgap ha hgap' _ ih =>
    simp only [List.length_append, List.length_cons] at hbound hfuel
    obtain ⟨fuel, rfl⟩ := Nat.exists_eq_add_of_le' (show 1 ≤ fuel by omega)
    have hread := hreads a gap cs (gap' ++ ',' :: (ds ++ closing :: rest)) hgap ha (by omega)
    have hmore := ih (by omega) (show ds.length < fuel by omega)
    have hcomma : isGap ',' = false := rfl
    rw [List.append_assoc, List.append_assoc, List.append_assoc, List.cons_append, readSeries,
      hread]
    simp only [skipGap_append hgap', skipGap_cons hcomma, if_true, hmore, Option.map_some]

theorem spellsSeries_of_readSeries (hsound : Sound spells reader)
    (h : readSeries reader closing fuel cs = some (as, rest)) :
    ∃ used, SpellsSeries spells as used ∧ cs = used ++ closing :: rest := by
  induction fuel generalizing cs as with
  | zero => cases h
  | succ fuel ih =>
    rw [readSeries] at h
    split at h
    · cases h
    · next a behind ha =>
      obtain ⟨gap, used, hgap, hused, rfl⟩ := hsound _ _ _ ha
      obtain ⟨gap', hgap', hbehind⟩ := exists_gap behind
      split at h
      · cases h
      · next c more hskip =>
        rw [hskip] at hbehind
        subst hbehind
        split at h
        · next hcomma =>
          subst hcomma
          obtain ⟨⟨as', _⟩, has, heq⟩ := Option.map_eq_some_iff.mp h
          cases heq
          obtain ⟨used', hused', rfl⟩ := ih has
          exact ⟨_, .cons hgap hused hgap' hused', by simp⟩
        · split at h
          · next hclosing =>
            cases h
            subst hclosing
            exact ⟨_, .last hgap hused hgap', by simp⟩
          · cases h

theorem SpellsEntries.read_append (h : SpellsEntries spells as cs)
    (hreads : Reads spells reader bound) (hstarts : Starts spells)
    (hclosing : closing ∈ [']', '\x7d']) (hbound : cs.length < bound) (hfuel : cs.length < fuel)
    (rest : List Char) :
    readEntries reader closing fuel (cs ++ closing :: rest) = some (as, rest) := by
  have hcloses : ∀ c ∈ [']', '\x7d'], (isGap c = false ∧ c ≠ ',') ∧ c ∉ openings := by
    simp [isGap, openings]
  obtain ⟨hplain, hopening⟩ := hcloses closing hclosing
  cases h with
  | empty hgap => simp only [readEntries, skipGap_append hgap, skipGap_cons hplain.1, if_true]
  | series h =>
    have hread := h.read_append hreads hplain hbound hfuel rest
    obtain ⟨gap, hgap, c, hc, ds, rfl⟩ := h.starts hstarts
    have hne : c ≠ closing := by
      rintro rfl
      exact hopening hc
    rw [readEntries, List.append_assoc, List.cons_append, skipGap_append hgap,
      skipGap_cons (isGap_of_mem_openings hc)]
    rw [List.append_assoc, List.cons_append] at hread
    simp only [if_neg hne, hread]

theorem spellsEntries_of_readEntries (hsound : Sound spells reader)
    (h : readEntries reader closing fuel cs = some (as, rest)) :
    ∃ used, SpellsEntries spells as used ∧ cs = used ++ closing :: rest := by
  unfold readEntries at h
  split at h
  · cases h
  · next c more hskip =>
    split at h
    · next hc =>
      cases h
      subst hc
      obtain ⟨gap, hgap, hcs⟩ := exists_gap cs
      exact ⟨gap, .empty hgap, by rw [hcs, hskip]⟩
    · obtain ⟨used, hused, rfl⟩ := spellsSeries_of_readSeries hsound h
      exact ⟨used, .series hused, rfl⟩

end

section
variable {reader : List Char → Option (Json × List Char)}

theorem starts_spellsString : Starts SpellsString := by
  rintro text _ ⟨h⟩
  exact ⟨'"', by decide, _, rfl⟩

theorem starts_spells : Starts Spells := by
  rintro j cs (_ | h | _ | _)
  · exact ⟨'n', by decide, _, rfl⟩
  · exact starts_spellsString _ _ h
  · exact ⟨'[', by decide, _, rfl⟩
  · exact ⟨'\x7b', by decide, _, rfl⟩

theorem starts_spellsField : Starts (SpellsField Spells) := by
  rintro field _ ⟨h, -, -, -⟩
  obtain ⟨c, hc, ds, rfl⟩ := starts_spellsString _ _ h
  exact ⟨c, hc, _, rfl⟩

theorem skipGap_string {text : String} (hgap : IsGap gap) (h : SpellsString text cs) :
    skipGap (gap ++ (cs ++ rest)) = cs ++ rest := by
  cases h with
  | quoted _ => rw [skipGap_append hgap, List.cons_append, skipGap_cons rfl]

theorem reads_readField (hreads : Reads Spells reader fuel) :
    Reads (SpellsField Spells) (readField reader fuel) fuel := by
  rintro _ gap _ rest hgap (@⟨key, value, cs, gap₁, gap₂, ds, hkey, hgap₁, hgap₂, hvalue⟩) hbound
  simp only [List.length_append, List.length_cons] at hbound
  have hread := hreads value gap₂ ds rest hgap₂ hvalue (by omega)
  have hcolon : isGap ':' = false := rfl
  rw [readField, List.append_assoc, skipGap_string hgap hkey, hkey.read_append (by omega)]
  simp only [List.append_assoc, List.cons_append, skipGap_append hgap₁, skipGap_cons hcolon, hread,
    Option.map_some]

theorem sound_readField (hsound : Sound Spells reader) :
    Sound (SpellsField Spells) (readField reader fuel) := by
  intro cs field rest h
  unfold readField at h
  split at h
  · cases h
  · next key behind hkey =>
    split at h
    · next more hskip =>
      obtain ⟨⟨value, _⟩, hvalue, heq⟩ := Option.map_eq_some_iff.mp h
      cases heq
      obtain ⟨gap, hgap, hcs⟩ := exists_gap cs
      obtain ⟨used, hused, hskipped⟩ := spellsString_of_readString hkey
      obtain ⟨gap₁, hgap₁, hbehind⟩ := exists_gap behind
      obtain ⟨gap₂, ds, hgap₂, hds, rfl⟩ := hsound _ _ _ hvalue
      refine ⟨gap, _, hgap, .field hused hgap₁ hgap₂ hds, ?_⟩
      rw [hcs, hskipped, hbehind, hskip]
      simp
    · cases h

end

-- ---------------------------------------------------------------------------
-- Documents
-- ---------------------------------------------------------------------------

theorem reads_read (fuel : Nat) : Reads Spells (read fuel) fuel := by
  induction fuel with
  | zero => exact fun _ _ _ _ _ _ hbound => absurd hbound (Nat.not_lt_zero _)
  | succ fuel ih =>
    rintro j gap cs rest hgap h hbound
    have hskip : skipGap (gap ++ (cs ++ rest)) = cs ++ rest := by
      obtain ⟨c, hc, ds, rfl⟩ := starts_spells _ _ h
      rw [skipGap_append hgap, List.cons_append, skipGap_cons (isGap_of_mem_openings hc)]
    rw [read, hskip]
    cases h with
    | null => rfl
    | str h =>
      have hread := h.read_append (show cs.length ≤ fuel by omega) rest
      cases h with
      | quoted h => simpa using hread
    | @arr items cs h =>
      simp only [List.length_append, List.length_cons] at hbound
      have hclosing : ']' ∈ [']', '\x7d'] := by decide
      have hread := h.read_append ih starts_spells hclosing (by omega)
        (show cs.length < fuel by omega) rest
      simp [hread]
    | @obj fields cs h =>
      simp only [List.length_append, List.length_cons] at hbound
      have hclosing : '\x7d' ∈ [']', '\x7d'] := by decide
      have hread := h.read_append (reads_readField ih) starts_spellsField hclosing (by omega)
        (show cs.length < fuel by omega) rest
      simp [hread]

theorem sound_read (fuel : Nat) : Sound Spells (read fuel) := by
  induction fuel with
  | zero => exact fun _ _ _ h => nomatch h
  | succ fuel ih =>
    intro cs j rest h
    obtain ⟨gap, hgap, hcs⟩ := exists_gap cs
    rw [read] at h
    split at h
    · next hskip =>
      cases h
      exact ⟨gap, _, hgap, .null, by rw [hcs, hskip]; rfl⟩
    · next hskip =>
      obtain ⟨⟨items, _⟩, hitems, heq⟩ := Option.map_eq_some_iff.mp h
      cases heq
      obtain ⟨used, hused, rfl⟩ := spellsEntries_of_readEntries ih hitems
      exact ⟨gap, _, hgap, .arr hused, by rw [hcs, hskip]; simp⟩
    · next hskip =>
      obtain ⟨⟨fields, _⟩, hfields, heq⟩ := Option.map_eq_some_iff.mp h
      cases heq
      obtain ⟨used, hused, rfl⟩ := spellsEntries_of_readEntries (sound_readField ih) hfields
      exact ⟨gap, _, hgap, .obj hused, by rw [hcs, hskip]; simp⟩
    · obtain ⟨⟨text, _⟩, htext, heq⟩ := Option.map_eq_some_iff.mp h
      cases heq
      obtain ⟨used, hused, hskipped⟩ := spellsString_of_readString htext
      exact ⟨gap, used, hgap, .str hused, by rw [hcs, hskipped]⟩

theorem parse?_eq_some_iff {text : String} {j : Json} : parse? text = some j ↔ IsText j text := by
  unfold parse?
  constructor
  · intro h
    split at h
    · next rest hread =>
      obtain ⟨gap, used, hgap, hused, htext⟩ := sound_read _ _ _ _ hread
      split at h
      · next hrest =>
        cases h
        exact ⟨gap, used, rest, hgap, hused, List.all_eq_true.mp hrest, htext⟩
      · cases h
    · cases h
  · rintro ⟨gap, cs, gap', hgap, hspells, hgap', htext⟩
    have hlength : gap.length + cs.length < text.toList.length + 1 := by
      simp only [htext, List.length_append]
      omega
    have hread := reads_read _ j gap cs gap' hgap hspells hlength
    rw [← htext] at hread
    simp [hread, List.all_eq_true.mpr hgap']

end

-- ---------------------------------------------------------------------------
-- Printed documents
-- ---------------------------------------------------------------------------

theorem hexValue?_hexDigit : ∀ n < 16, hexValue? (hexDigit n) = some n := by decide

theorem spellsChar_escapeChar (c : Char) : SpellsChar c (escapeChar c) := by
  have short (letter d : Char) (hd : c.toNat = d.toNat)
      (hletter : shortEscapes.lookup letter = some d) : SpellsChar c ['\\', letter] :=
    .short (hletter.trans (congrArg some (Char.toNat_inj.mp hd).symm))
  unfold escapeChar
  split
  · next h => exact short '"' '"' (congrArg Char.toNat h) rfl
  split
  · next h => exact short '\\' '\\' (congrArg Char.toNat h) rfl
  split
  · next h => exact short 'b' '\x08' h rfl
  split
  · next h => exact short 't' '\t' h rfl
  split
  · next h => exact short 'n' '\n' h rfl
  split
  · next h => exact short 'f' '\x0c' h rfl
  split
  · next h => exact short 'r' '\r' h rfl
  split
  · next hcontrol =>
    have hzero : hexValue? '0' = some 0 := rfl
    have hunit := SpellsUnit.digits hzero hzero (hexValue?_hexDigit (c.toNat / 16) (by omega))
      (hexValue?_hexDigit (c.toNat % 16) (by omega))
    have hvalue : ((0 * 16 + 0) * 16 + c.toNat / 16) * 16 + c.toNat % 16 = c.toNat := by omega
    rw [hvalue] at hunit
    exact .unit hunit
  · next hquote hbackslash _ _ _ _ _ hcontrol =>
    exact .plain hquote hbackslash (Nat.not_lt.mp hcontrol)

theorem spellsChars_flatMap (text : List Char) : SpellsChars text (text.flatMap escapeChar) := by
  induction text with
  | nil => exact .nil
  | cons c text ih => exact .cons (spellsChar_escapeChar c) ih

theorem spellsString_quoted (text : String) : SpellsString text (quoted text).toList := by
  rw [quoted, String.toList_ofList]
  exact .quoted (spellsChars_flatMap text.toList)

theorem isGap_indentation (depth : Nat) : IsGap ('\n' :: (indentation depth).toList) := by
  refine List.forall_mem_cons.mpr ⟨rfl, fun c hc => ?_⟩
  rw [indentation, String.toList_ofList] at hc
  rw [List.eq_of_mem_replicate hc]
  rfl

section
variable {α : Type} {spells : α → List Char → Prop} {as : List α} {entries : List String}

theorem spellsSeries_lines (h : List.Forall₂ (fun a e => spells a e.toList) as entries)
    (hne : as ≠ []) (depth : Nat) {gap : List Char} (hgap : IsGap gap) :
    SpellsSeries spells as ('\n' ::
      ((Text.join ",\n" (entries.map fun e => indentation depth ++ e)).toList ++ gap)) := by
  have hline := isGap_indentation depth
  induction h with
  | nil => exact absurd rfl hne
  | @cons a e as entries ha has ih =>
    cases has with
    | nil => simpa [Text.join] using SpellsSeries.last hline ha hgap
    | @cons b e' as entries hb has =>
      simpa [Text.join] using SpellsSeries.cons hline ha isGap_nil (ih (List.cons_ne_nil b as))

theorem spellsEntries_block (h : List.Forall₂ (fun a e => spells a e.toList) as entries)
    (opening closing : String) (depth : Nat) :
    ∃ cs, SpellsEntries spells as cs ∧
      (block opening closing depth entries).toList = opening.toList ++ (cs ++ closing.toList) := by
  cases h with
  | nil => exact ⟨[], .empty isGap_nil, by simp [block]⟩
  | @cons a e as entries ha has =>
    have hseries := spellsSeries_lines (.cons ha has) (List.cons_ne_nil a as) (depth + 1)
      (isGap_indentation depth)
    exact ⟨_, .series hseries, by simp [block]⟩

end

mutual
theorem spells_render (j : Json) (depth : Nat) : Spells j (render depth j).toList := by
  cases j with
  | null => simpa [render] using Spells.null
  | str text => exact .str (spellsString_quoted text)
  | arr items =>
    obtain ⟨cs, hcs, htext⟩ :=
      spellsEntries_block (forall₂_renderItems items (depth + 1)) "[" "]" depth
    rw [render, htext]
    exact .arr hcs
  | obj fields =>
    obtain ⟨cs, hcs, htext⟩ :=
      spellsEntries_block (forall₂_renderFields fields (depth + 1)) "\x7b" "\x7d" depth
    rw [render, htext]
    exact .obj hcs
theorem forall₂_renderItems (items : List Json) (depth : Nat) :
    List.Forall₂ (fun j e => Spells j e.toList) items (renderItems depth items) := by
  cases items with
  | nil => exact .nil
  | cons j items => exact .cons (spells_render j depth) (forall₂_renderItems items depth)
theorem forall₂_renderFields (fields : List (String × Json)) (depth : Nat) :
    List.Forall₂ (fun f e => SpellsField Spells f e.toList) fields (renderFields depth fields) := by
  cases fields with
  | nil => exact .nil
  | cons field fields =>
    obtain ⟨key, value⟩ := field
    refine .cons ?_ (forall₂_renderFields fields depth)
    have hspace : IsGap [' '] := by simp [IsGap, isGap]
    have hvalue := spells_render value depth
    simpa using SpellsField.field (spellsString_quoted key) isGap_nil hspace hvalue
end

theorem isText_pretty (j : Json) : IsText j j.pretty :=
  ⟨[], j.pretty.toList, [], isGap_nil, spells_render j 0, isGap_nil, by simp⟩

theorem IsText.append {j : Json} {text gap : String} (h : IsText j text) (hgap : IsGap gap.toList) :
    IsText j (text ++ gap) := by
  obtain ⟨before, cs, after, hbefore, hspells, hafter, htext⟩ := h
  refine ⟨before, cs, after ++ gap.toList, hbefore, hspells, ?_, by simp [htext]⟩
  exact List.forall_mem_append.mpr ⟨hafter, hgap⟩

end TypeWeave.Json
