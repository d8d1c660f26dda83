/-!
# White space, literals and comments

How far a literal or a comment reaches, as a number of characters. A string is measured with a stack
of modes, because it may hold embedded expressions, which may hold strings in turn.
-/

namespace TypeWeave.Java

def isSpace (c : Char) : Bool := c = ' ' || ('\t' ≤ c && c ≤ '\r')

/-- A stretch of a text block without quotes and escapes. -/
inductive Stretch where
  /-- Only white space so far, so that a comment may follow. -/
  | fresh
  | plain
  /-- After a quote. An escaped quote belongs to the same stretch. -/
  | afterQuote
  deriving Repr, DecidableEq

inductive Mode where
  /-- A character to be kept as it is, with so many after it. -/
  | verbatim (further : Nat)
  /-- A string or a character literal with this quote at its end. -/
  | quoted (quote : Char)
  | textBlock (stretch : Stretch)
  /-- An embedded expression with so many curly brackets open in it. -/
  | embedded (depth : Nat)
  | lineComment
  | blockComment
  deriving Repr, DecidableEq

def blockComment? : List Char → Option (List Char)
  | '*' :: '/' :: _ => some ['*', '/']
  | c :: cs => (blockComment? cs).map (c :: ·)
  | [] => none

def comment? : List Char → Option (List Char)
  | '/' :: cs => some (cs.takeWhile (· != '\n'))
  | '*' :: cs => blockComment? cs
  | _ => none

/-- Whether a slash in front of these characters opens a comment that holds a quote or a
backslash. -/
def hidesQuote (cs : List Char) : Bool :=
  (comment? cs).any fun text => text.any fun c => c = '"' || c = '\\'

def startsTriple (cs : List Char) : Bool := ['"', '"'].isPrefixOf cs

def isOctalDigit (c : Char) : Bool := "01234567".toList.contains c

def isHexDigit (c : Char) : Bool := c.isDigit || "abcdefABCDEF".toList.contains c

def startsHex (n : Nat) (cs : List Char) : Bool :=
  (cs.take n).length = n && (cs.take n).all isHexDigit

def bracedHexLength : List Char → Nat
  | '\x7b' :: cs =>
    let digits := (cs.takeWhile isHexDigit).length
    if 0 < digits && (cs.drop digits).head? = some '\x7d' then digits + 2 else 0
  | _ => 0

/-- How many characters belong to an escape after its backslash and the character behind that. -/
def escapeLength : List Char → Nat
  | [] => 0
  | c :: cs =>
    if isOctalDigit c then ((cs.take 2).takeWhile isOctalDigit).length
    else if c = 'x' && startsHex 2 cs then 2
    else if c = 'u' then if startsHex 4 cs then 4 else bracedHexLength cs
    else 0

/-- The modes that take the place of a mode after the character `c`, in front of the text `cs`. -/
def Mode.next (mode : Mode) (c : Char) (cs : List Char) : List Mode :=
  match mode with
  | verbatim 0 => []
  | verbatim (n + 1) => [verbatim n]
  | quoted quote =>
    if c = quote then []
    else if c = '\\' then
      if quote = '"' && cs.head? = some '\x7b' then [verbatim 0, embedded 0, quoted quote]
      else [verbatim 0, quoted quote]
    else [quoted quote]
  | textBlock stretch =>
    if c = '"' then if startsTriple cs then [verbatim 1] else [textBlock .afterQuote]
    else if c = '\\' then
      if cs.head? = some '\x7b' then [verbatim 0, embedded 0, textBlock .fresh]
      else if stretch = .afterQuote && cs.head? = some '"' then [verbatim 0, textBlock .afterQuote]
      else [verbatim (escapeLength cs), textBlock .fresh]
    -- Any other slash in a text block is an ordinary character.
    else if stretch = .fresh && c = '/' && hidesQuote cs then
      if cs.head? = some '/' then [lineComment, textBlock .fresh]
      else [verbatim 0, blockComment, textBlock .fresh]
    else [textBlock (if stretch = .fresh && !isSpace c then .plain else stretch)]
  | embedded depth =>
    if c = '"' then
      if startsTriple cs then [verbatim 1, textBlock .fresh, embedded depth]
      else [quoted c, embedded depth]
    else if c = '\'' then [quoted c, embedded depth]
    else if c = '/' && cs.head? = some '/' then [lineComment, embedded depth]
    else if c = '/' && cs.head? = some '*' then [verbatim 0, blockComment, embedded depth]
    else if c = '\x7b' then [embedded (depth + 1)]
    else if c = '\x7d' then if depth = 0 then [] else [embedded (depth - 1)]
    else [embedded depth]
  | lineComment => if c = '\n' then [] else [lineComment]
  | blockComment => if c = '*' && cs.head? = some '/' then [verbatim 0] else [blockComment]

/-- How many characters the modes take up, innermost first, until all of them have ended. -/
def modesLength (modes : List Mode) (cs : List Char) : Nat :=
  match cs, modes with
  | [], _ => 0
  | _ :: _, [] => 0
  | c :: cs, mode :: outer => modesLength (mode.next c cs ++ outer) cs + 1

/-- The length of a string literal or text block after its first quote. -/
def stringLength (cs : List Char) : Nat :=
  if startsTriple cs then modesLength [.verbatim 1, .textBlock .fresh] cs
  else modesLength [.quoted '"'] cs

def charLength (cs : List Char) : Nat := modesLength [.quoted '\''] cs

def blockCommentLength (cs : List Char) : Nat := modesLength [.verbatim 0, .blockComment] cs

def digitsLength (isDigit : Char → Bool) (cs : List Char) : Nat :=
  (cs.takeWhile fun c => isDigit c || c = '_').length

def signedLength : List Char → Nat
  | sign :: cs =>
    if (sign = '+' || sign = '-') && cs.head?.any Char.isDigit then
      digitsLength Char.isDigit cs + 1
    else 0
  | [] => 0

def exponentLength (marks : List Char) : List Char → Nat
  | mark :: cs =>
    let digits :=
      if cs.head?.any Char.isDigit then digitsLength Char.isDigit cs else signedLength cs
    if marks.contains mark && 0 < digits then digits + 1 else 0
  | [] => 0

def suffixLength (suffixes : List Char) (cs : List Char) : Nat :=
  if cs.head?.any suffixes.contains then 1 else 0

def pointLength (isDigit : Char → Bool) (cs : List Char) : Nat :=
  if cs.head? = some '.' then digitsLength isDigit (cs.drop 1) + 1 else 0

def decimalLength (cs : List Char) : Nat :=
  let whole := digitsLength Char.isDigit cs
  let mantissa := whole + pointLength Char.isDigit (cs.drop whole)
  let length := mantissa + exponentLength ['e', 'E', 'p', 'P'] (cs.drop mantissa)
  length + suffixLength "fFdDlL".toList (cs.drop length)

/-- Whether the last hexadecimal digit can be read as the mark of an exponent instead: an `e` after
another digit, or after the point of a number with a whole part. The digits come last first. -/
def endsInMark : List Char → Bool
  | mark :: '.' :: whole => (mark = 'e' || mark = 'E') && !whole.isEmpty
  | mark :: digit :: _ => (mark = 'e' || mark = 'E') && isHexDigit digit
  | _ => false

def hexLength (cs : List Char) : Nat :=
  let whole := digitsLength isHexDigit cs
  let mantissa := whole + pointLength isHexDigit (cs.drop whole)
  let rest := cs.drop mantissa
  let exponent :=
    if endsInMark (cs.take mantissa).reverse && 0 < signedLength rest then signedLength rest
    else exponentLength ['p', 'P'] rest
  mantissa + exponent + suffixLength "fFdDlL".toList (rest.drop exponent)

def numberLength : List Char → Nat
  | '0' :: mark :: cs =>
    if mark = 'x' || mark = 'X' then hexLength cs + 2
    else if mark = 'b' || mark = 'B' || mark = 'o' || mark = 'O' then
      let whole := digitsLength Char.isDigit cs
      whole + 2 + suffixLength ['l', 'L'] (cs.drop whole)
    else decimalLength ('0' :: mark :: cs)
  | cs => decimalLength cs

def isFloat (number : List Char) : Bool :=
  match number.map Char.toLower with
  | '0' :: 'x' :: digits => digits.any fun c => c = '.' || c = 'p' || c = '+' || c = '-'
  | '0' :: 'b' :: _ => false
  | digits => digits.any fun c => c = '.' || c = 'e' || c = 'p' || c = 'f' || c = 'd'

end TypeWeave.Java
