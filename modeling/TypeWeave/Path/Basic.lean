import TypeWeave.Text.Pieces

/-!
# Paths

A path is kept as it was written; what it means is its list of components. Repeated slashes, a
trailing slash and every `.` but a leading one leave no component behind, so paths of different
spelling can have the same components. Two paths are compared by their components.
-/

namespace TypeWeave

open Text (pieces joinChars)

inductive Component where
  | root
  | current
  | parent
  | normal (name : String)
  deriving Repr, DecidableEq

namespace Component

def text : Component → String
  | root => "/"
  | current => "."
  | parent => ".."
  | normal name => name

def ofPiece? (piece : List Char) : Option Component :=
  if piece = [] || piece = ['.'] then none
  else if piece = ['.', '.'] then some parent
  else some (normal (String.ofList piece))

def isRelative : Component → Bool
  | normal _ | parent => true
  | root | current => false

/-- The root comes first, then `.`, then `..`, then the names in the order of their characters. -/
def orderKey : Component → List Nat
  | root => [0]
  | current => [1]
  | parent => [2]
  | normal name => 3 :: name.toList.map Char.toNat

end Component

structure Path where
  text : String
  deriving Repr, DecidableEq

namespace Path

def chars (p : Path) : List Char := p.text.toList

def ofChars (cs : List Char) : Path := ⟨String.ofList cs⟩

def isAbsolute (p : Path) : Bool := p.chars.head? = some '/'

/-- A leading `/` or `.` component, and the text after it. -/
def cutAnchor : List Char → List Char × List Char
  | '/' :: cs => (['/'], cs)
  | ['.'] => (['.'], [])
  | '.' :: '/' :: cs => (['.'], '/' :: cs)
  | cs => ([], cs)

def anchorComponents (anchor : List Char) : List Component :=
  if anchor = ['/'] then [.root] else if anchor = ['.'] then [.current] else []

def components (p : Path) : List Component :=
  let (anchor, body) := cutAnchor p.chars
  anchorComponents anchor ++ (pieces '/' body).filterMap Component.ofPiece?

def order (p q : Path) : Ordering :=
  List.compareLex (List.compareLex compare) (p.components.map Component.orderKey)
    (q.components.map Component.orderKey)

def join (p q : Path) : Path :=
  if q.isAbsolute then q
  else if p.text = "" || p.chars.getLast? = some '/' then ⟨p.text ++ q.text⟩
  else ⟨p.text ++ "/" ++ q.text⟩

/-- The pieces without those at the end that leave no component. -/
def dropIdle (ps : List (List Char)) : List (List Char) :=
  (ps.reverse.dropWhile fun p => p = [] || p = ['.']).reverse

/-- The anchor of the path, the pieces before its last component, and that component's piece; the
piece is absent when the path has no component after its anchor. -/
def cutLast (p : Path) : List Char × List (List Char) × Option (List Char) :=
  let (anchor, body) := cutAnchor p.chars
  let ps := dropIdle (pieces '/' body)
  (anchor, ps.dropLast, ps.getLast?)

/-- The path without its last component; `/` and the empty path have no parent. -/
def parent? (p : Path) : Option Path :=
  match p.cutLast with
  | (anchor, before, some _) => some (ofChars (anchor ++ joinChars ['/'] (dropIdle before)))
  | (anchor, _, none) => if anchor = ['.'] then some ⟨""⟩ else none

def fileName? (p : Path) : Option (List Char) :=
  match p.cutLast with
  | (_, _, some name) => if name = ['.', '.'] then none else some name
  | (_, _, none) => none

def cutExtension (name : List Char) : List Char × Option (List Char) :=
  match name.reverse.dropWhile (· != '.') with
  -- No dot at all, or none but the one in front.
  | [] | ['.'] => (name, none)
  | _ :: stem => (stem.reverse, some (name.reverse.takeWhile (· != '.')).reverse)

def stem? (p : Path) : Option (List Char) := p.fileName?.map (cutExtension · |>.1)

def extension? (p : Path) : Option (List Char) := p.fileName?.bind (cutExtension · |>.2)

def uptoStem (p : Path) : Path :=
  match p.cutLast with
  | (anchor, before, some name) =>
    if name = ['.', '.'] then p
    else ofChars (anchor ++ joinChars ['/'] (before ++ [(cutExtension name).1]))
  | (_, _, none) => p

/-- The path with the extension of its file name removed: as many characters as the extension has
are taken off the end, then whatever follows the stem. -/
def dropExtension (p : Path) : Path :=
  match p.extension? with
  | some ext => (ofChars (p.chars.take (p.chars.length - ext.length))).uptoStem
  | none => p

def ancestorsUpTo : Nat → Path → List Path
  | 0, _ => []
  | n + 1, p =>
    if p.text = "" then []
    else
      match p.parent? with
      | some q => p :: ancestorsUpTo n q
      | none => [p]

/-- The path and its parents, longest first, without the empty path. Every parent is shorter than
the path, so the length of the text bounds their number. -/
def ancestors (p : Path) : List Path := p.ancestorsUpTo (p.chars.length + 1)

end Path

end TypeWeave
