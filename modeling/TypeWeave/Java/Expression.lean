import TypeWeave.Java.TypeExpr

/-!
# Lists of expressions

Where the commas are that separate expressions, or the declarators of a field declaration. A comma
between type arguments separates nothing, so the angle brackets have to be told from the operators
of the same form: the reader goes through an expression operand by operand and knows at each place
whether a type may stand there.

The one place where both readings of `<` can be right is after `instanceof`. Both are then followed,
and in the end the list is read in the way that finds more in it: every type with arguments counts,
and every class literal counts more.
-/

namespace TypeWeave.Java

inductive Expected where
  | operand
  /-- A selector, arguments, an operator, or the end. -/
  | primary
  /-- As after a primary, and after a cast also an operand. -/
  | bracketed
  /-- An operator or the end. -/
  | complete
  /-- A member's name, after a dot. -/
  | selector
  /-- A method's name, after a double colon. -/
  | reference
  /-- The name of a variable that is declared. -/
  | declarator
  /-- Square brackets or an initial value of that variable, or the end. -/
  | declared
  deriving Repr, DecidableEq

def Expected.isEnd : Expected → Bool
  | primary | bracketed | complete | declared => true
  | operand | selector | reference | declarator => false

/-- A way to read a tree: what is expected after it and after so many further trees, which make up a
type with it, and how much is found in them. -/
structure Reading where
  expected : Expected
  further : Nat
  found : Nat
  deriving Repr, DecidableEq

def Reading.plain (expected : Expected) : Reading := ⟨expected, 0, 0⟩

def lengthBefore (ts rest : List Tree) : Nat := ts.length - rest.length

def unaryOperators : List String := ["+", "-", "!", "~", "++", "--"]

/-- Operators between operands, and the two marks of a conditional. Those that start with `>` are
left out, because they are several tokens. -/
def binaryOperators : List String :=
  ["+", "-", "*", "/", "%", "&", "|", "^", "<<", "<", "<=", "==", "!=", "&&", "||", "?", ":"]

def bindingOperators : List String :=
  ["=", "+=", "-=", "*=", "/=", "%=", "&=", "|=", "^=", "<<=", "->"]

/-- How many trees after a `>` belong to the same operator, and whether that is an assignment. -/
def angleOperator (ts : List Tree) : Nat × Bool :=
  let angles := ((ts.take 2).takeWhile (·.continuesWith ">")).length
  if (ts.drop angles).head?.any (·.continuesWith "=") then (angles + 1, 0 < angles)
  else (angles, false)

def argumentsWeight : Nat := 10

def literalWeight : Nat := 17

def foundIn (ts : List Tree) : Nat :=
  argumentsWeight * (Tree.tokensOf (dropAnnotations ts)).countP (·.text == "<")

def Reading.upTo (expected : Expected) (ts rest : List Tree) : Reading :=
  let further := lengthBefore ts rest
  ⟨expected, further, foundIn (ts.take further)⟩

/-- What follows the type that is created after `new`, with type arguments of its own in front. -/
def afterCreated (ts : List Tree) : List Tree :=
  let bare := ts.dropWhile Tree.isAnnotationTree
  ((TypeExpr.parse? ((TypeExpr.afterArgs? bare).getD bare)).map (·.2)).getD ts

def namesRecord (type : List Tree) : Bool :=
  type.length = 1 || type.getLast?.any (·.isLeaf ">")

mutual
/-- Whether the trees are components of a record pattern with commas between them: underscores,
types with a name, and patterns. Here and below `fuel` bounds the number of nested readings. -/
def isComponents (fuel : Nat) (ts : List Tree) : Bool :=
  match fuel with
  | 0 => false
  | fuel + 1 =>
    if ts.head?.any (·.isLeaf "_") then isComponentsEnd fuel (ts.drop 1)
    else
      match TypeExpr.parse? ts with
      | some (_, .group opening inner closing :: rest) =>
        opening.text == "(" &&
          namesRecord (ts.take (lengthBefore ts (.group opening inner closing :: rest))) &&
          (inner.isEmpty || isComponents fuel (gatherAnnotations inner)) &&
          isComponentsEnd fuel rest
      | some (_, .leaf name :: rest) => name.kind = .word && isComponentsEnd fuel rest
      | _ => false
def isComponentsEnd (fuel : Nat) (ts : List Tree) : Bool :=
  match fuel, ts with
  | _, [] => true
  | 0, _ => false
  | fuel + 1, t :: ts => t.isLeaf "," && isComponents fuel ts
end

def isPattern (inner : List Tree) : Bool :=
  -- At most two readings start at one token.
  inner.isEmpty ||
    isComponents (2 * (Tree.tokensOf inner).length + 2) (gatherAnnotations inner)

/-- Words that cannot be the name after a tested type, because they can follow a whole test. -/
def testFollowers : List String := ["instanceof", "when"]

def testReadings (ts : List Tree) : List Reading :=
  let bare := if ts.head?.any (·.isLeaf "final") then ts.drop 1 else ts
  (TypeExpr.rests bare).filterMap fun rest =>
    match rest with
    | .group opening inner _ :: after =>
      if opening.text == "(" && isPattern inner then some (.upTo .complete ts after) else none
    | .leaf name :: after =>
      if name.kind = .word && !testFollowers.contains name.text then
        some (.upTo .complete ts after)
      else some (.upTo .complete ts rest)
    | _ => some (.upTo .complete ts rest)

def readWord (t : Tree) (ts : List Tree) : Reading :=
  match TypeExpr.afterHead? (t :: ts) with
  | none => .plain .primary
  | some rest =>
    let head := Reading.upTo .primary ts rest
    if rest.head?.any (·.isLeaf "::") then head
    else { head with found := head.found + literalWeight }

def readOperand (t : Tree) (ts : List Tree) : List Reading :=
  match t with
  | .annotationTree _ => [.plain .operand]
  | .group opening _ _ =>
    if opening.text == "(" then [.plain .bracketed]
    else if opening.text == "\x7b" then [.plain .primary]
    else []
  | .leaf token =>
    match token.kind with
    | .word =>
      if token.text == "new" then [.upTo .primary ts (afterCreated ts)] else [readWord t ts]
    | .mark => if unaryOperators.contains token.text then [.plain .operand] else []
    | _ => [.plain .primary]

def readOperator (t : Tree) (ts : List Tree) : List Reading :=
  match t with
  | .leaf token =>
    if token.text == "instanceof" then testReadings ts
    else if token.text == "++" || token.text == "--" then [.plain .complete]
    else if token.text == ">" then
      match angleOperator ts with
      | (further, false) => [⟨.operand, further, 0⟩]
      | (_, true) => []
    else if binaryOperators.contains token.text then [.plain .operand]
    else []
  | _ => []

def readAfterPrimary (t : Tree) (ts : List Tree) : List Reading :=
  match t with
  | .leaf token =>
    if token.text == "." then [.plain .selector]
    else if token.text == "::" then [.plain .reference]
    else if bindingOperators.contains token.text then [.plain .operand]
    else if token.text == ">" then [⟨.operand, (angleOperator ts).1, 0⟩]
    else readOperator t ts
  | _ => [.plain .primary]

def readName (expected : Expected) (t : Tree) (ts : List Tree) : List Reading :=
  match t with
  | .leaf token =>
    if token.text == "<" then
      ((TypeExpr.afterArgs? (t :: ts)).map fun rest => .upTo expected ts rest).toList
    else if token.text == "new" && expected = .selector then
      [.upTo .primary ts (afterCreated ts)]
    else if token.kind = .word || token.kind = .string then [.plain .primary]
    else []
  | _ => []

def readAfterDeclared (t : Tree) : List Reading :=
  if t.isDimension || t.isAnnotationTree then [.plain .declared]
  else if t.isLeaf "=" then [.plain .operand]
  else []

def Expected.readings (expected : Expected) (t : Tree) (ts : List Tree) : List Reading :=
  match expected with
  | operand => readOperand t ts
  | primary => readAfterPrimary t ts
  | complete => readOperator t ts
  | selector | reference => readName expected t ts
  | declarator => if t.word?.isSome then [.plain .declared] else []
  | declared => readAfterDeclared t
  | bracketed =>
    if t.isAnnotationTree then [.plain .operand]
    else if t.isGroup "(" || t.isLeaf "++" || t.isLeaf "--" then [.plain .bracketed]
    else
      match readAfterPrimary t ts with
      | [] => readOperand t ts
      | found => found

structure Course where
  /-- The entries that are complete, last first. -/
  complete : List (List Tree)
  /-- The trees of the current entry, last first. -/
  current : List Tree
  expected : Expected
  /-- How many more trees are taken as they are. -/
  further : Nat
  /-- How much has been found. -/
  found : Nat

namespace Course

def meets (course other : Course) : Bool :=
  course.expected = other.expected && course.further = other.further

def extend (first : Expected) (course : Course) (t : Tree) (ts : List Tree) : List Course :=
  match course.further with
  | n + 1 => [{ course with current := t :: course.current, further := n }]
  | 0 =>
    if t.isLeaf "," then
      if course.expected.isEnd then
        [⟨course.current.reverse :: course.complete, [], first, 0, course.found⟩]
      else []
    else
      (course.expected.readings t ts).map fun reading =>
        ⟨course.complete, t :: course.current, reading.expected, reading.further,
          course.found + reading.found⟩

/-- Adds a course unless one that goes on alike has found at least as much. If it is added, it takes
the place of those that go on alike. -/
def add (courses : List Course) (course : Course) : List Course :=
  if courses.any fun other => other.meets course && course.found ≤ other.found then courses
  else courses.filter (fun other => !other.meets course) ++ [course]

def best? (courses : List Course) : Option (List (List Tree)) :=
  let ended := courses.filter fun course => course.further = 0 && course.expected.isEnd
  let best := ended.foldl (fun best course =>
    if best.any fun other => course.found ≤ other.found then best else some course) none
  best.map fun course => (course.current.reverse :: course.complete).reverse

def follow (first : Expected) (courses : List Course) : List Tree → Option (List (List Tree))
  | [] => best? courses
  | t :: ts =>
    let extended := courses.flatMap fun course => course.extend first t ts
    follow first (extended.foldl add []) ts

end Course

/-- Cuts trees at the commas between entries, each of which starts with what `first` says. -/
def entries? (first : Expected) (ts : List Tree) : Option (List (List Tree)) :=
  Course.follow first [⟨[], [], first, 0, 0⟩] ts

def betweenCommas (entry : List Tree) : List Tree → List (List Tree)
  | [] => [entry.reverse]
  | t :: ts =>
    if t.isLeaf "," then entry.reverse :: betweenCommas [] ts else betweenCommas (t :: entry) ts

/-- The expressions of a list; an empty list has none. What is no such list is cut at every
comma. -/
def expressions (ts : List Tree) : List (List Tree) :=
  if ts.isEmpty then [] else (entries? .operand ts).getD (betweenCommas [] ts)

end TypeWeave.Java
