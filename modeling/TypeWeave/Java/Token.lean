import TypeWeave.Java.Literal

/-!
# Tokens

Java source text cut into tokens and the gaps between them. A gap is white space and comments; every
token keeps the gap in front of it, so that any stretch of source can be written out again. Cutting
loses nothing: the pieces of a text joined are the text (`flatMap_text_scan`).

An operator is one token, except that a `>` always stands alone, since it may close type arguments.
-/

namespace TypeWeave.Java

inductive TokenKind where
  | word
  | integer
  | float
  | char
  | string
  | mark
  deriving Repr, DecidableEq

/-- A stretch of source text: a token, or a gap if it has no kind. -/
structure Piece where
  kind : Option TokenKind
  text : List Char
  deriving Repr, DecidableEq

structure Token where
  gap : String
  kind : TokenKind
  text : String
  deriving Repr, DecidableEq

def isWordStart (c : Char) : Bool := c.isAlpha || c = '_' || c = '$' || 0x80 ≤ c.toNat

def isWordChar (c : Char) : Bool := isWordStart c || c.isDigit

/-- Operators of more than one character, each in front of those it starts with. -/
def operators : List String :=
  ["<<=", "<<", "<=", "::", "->", "++", "--", "==", "!=", "&&", "||", "+=", "-=", "*=", "/=", "%=",
    "&=", "|=", "^="]

def markLength (cs : List Char) : Nat :=
  ((operators.find? fun operator => operator.toList.isPrefixOf cs).map String.length).getD 1

/-- The kind of the first piece of the text `c :: cs`, and how many characters of `cs` belong to
it. -/
def extent (c : Char) (cs : List Char) : Option TokenKind × Nat :=
  if isSpace c then (none, (cs.takeWhile isSpace).length)
  else if c = '/' && cs.head? = some '/' then (none, (cs.takeWhile (· != '\n')).length)
  else if c = '/' && cs.head? = some '*' then (none, blockCommentLength cs)
  else if c = '"' then (some .string, stringLength cs)
  else if c = '\'' then (some .char, charLength cs)
  else if c.isDigit || (c = '.' && cs.head?.any Char.isDigit) then
    let length := numberLength (c :: cs)
    (some (if isFloat ((c :: cs).take length) then .float else .integer), length - 1)
  else if isWordStart c then (some .word, (cs.takeWhile isWordChar).length)
  else (some .mark, markLength (c :: cs) - 1)

def cut (c : Char) (cs : List Char) : Piece × List Char :=
  (⟨(extent c cs).1, c :: cs.take (extent c cs).2⟩, cs.drop (extent c cs).2)

/-- Cutting loses nothing. -/
theorem cut_append (c : Char) (cs : List Char) : (cut c cs).1.text ++ (cut c cs).2 = c :: cs :=
  congrArg (c :: ·) (List.take_append_drop _ cs)

theorem length_cut_lt (c : Char) (cs : List Char) : (cut c cs).2.length < (c :: cs).length := by
  simp only [cut, List.length_drop, List.length_cons]
  omega

def scan : List Char → List Piece
  | [] => []
  | c :: cs => (cut c cs).1 :: scan (cut c cs).2
termination_by cs => cs.length
decreasing_by exact length_cut_lt c cs

theorem flatMap_text_scan (cs : List Char) : (scan cs).flatMap Piece.text = cs := by
  fun_induction scan cs with
  | case1 => rfl
  | case2 c cs ih => rw [List.flatMap_cons, ih, cut_append]

def attachGaps (gap : List Char) : List Piece → List Token
  | [] => []
  | piece :: rest =>
    match piece.kind with
    | none => attachGaps (gap ++ piece.text) rest
    | some kind => ⟨String.ofList gap, kind, String.ofList piece.text⟩ :: attachGaps [] rest

def dropByteOrderMark : List Char → List Char
  | [] => []
  | c :: cs => if c.toNat = 0xFEFF then cs else c :: cs

def tokenize (text : String) : List Token :=
  attachGaps [] (scan (dropByteOrderMark text.toList))

end TypeWeave.Java
