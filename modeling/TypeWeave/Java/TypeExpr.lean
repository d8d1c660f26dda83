import TypeWeave.Java.Tree

/-!
# Type expressions

Types as they are written in a source file, before any name is resolved.
-/

namespace TypeWeave.Java

inductive TypeExpr where
  /-- `int`, `boolean`, `void` and their like. -/
  | primitive (keyword : String)
  /-- A dotted name with the type arguments of its last segment that has any. -/
  | named (segments : List String) (args : List TypeExpr)
  | array (element : TypeExpr)
  /-- `?` -/
  | wildcard
  /-- `? extends T` or `? super T`. -/
  | bounded (bound : TypeExpr)
  deriving Repr

namespace TypeExpr

def primitives : List String :=
  ["byte", "short", "int", "long", "char", "float", "double", "boolean", "void"]

def nestArray (element : TypeExpr) : Nat → TypeExpr
  | 0 => element
  | n + 1 => array (element.nestArray n)

/-- Counts the pairs of square brackets in front, each of which may have annotations before it; also
what follows them. -/
def dimensions : List Tree → Nat × List Tree
  | [] => (0, [])
  | t :: ts =>
    if t.isDimension then
      let (count, rest) := dimensions ts
      (count + 1, rest)
    else if t.isAnnotationTree then
      match dimensions ts with
      | (0, _) => (0, t :: ts)
      | (count + 1, rest) => (count + 1, rest)
    else (0, t :: ts)

def withDimensions (element : TypeExpr) (ts : List Tree) : TypeExpr × List Tree :=
  (element.nestArray (dimensions ts).1, (dimensions ts).2)

def segment? : List Tree → Option (String × List Tree)
  | dot :: ts =>
    match ts.dropWhile Tree.isAnnotationTree with
    | name :: rest => if dot.isLeaf "." then name.word?.map (·, rest) else none
    | [] => none
  | [] => none

mutual
/-- Reads a type. Here and below `fuel` bounds the number of nested readings. -/
def read (fuel : Nat) (ts : List Tree) : Option (TypeExpr × List Tree) :=
  match fuel, ts.dropWhile Tree.isAnnotationTree with
  | fuel + 1, .leaf t :: rest =>
    if t.kind != .word then none
    else if primitives.contains t.text then some (withDimensions (primitive t.text) rest)
    else
      let (type, rest) := readSegments fuel [t.text] [] rest
      some (withDimensions type rest)
  | _, _ => none
def readSegments (fuel : Nat) (segments : List String) (args : List TypeExpr) (ts : List Tree) :
    TypeExpr × List Tree :=
  match fuel with
  | 0 => (named segments args, ts)
  | fuel + 1 =>
    let (args, ts) := (readArgs? fuel ts).getD (args, ts)
    match segment? ts with
    | some (name, rest) => readSegments fuel (segments ++ [name]) args rest
    | none => (named segments args, ts)
def readArgs? (fuel : Nat) (ts : List Tree) : Option (List TypeExpr × List Tree) :=
  match fuel, ts with
  | fuel + 1, opening :: next :: rest =>
    if !opening.isLeaf "<" then none
    else if next.isLeaf ">" then some ([], rest)
    else readArgList? fuel (next :: rest)
  | _, _ => none
def readArgList? (fuel : Nat) (ts : List Tree) : Option (List TypeExpr × List Tree) :=
  match fuel with
  | 0 => none
  | fuel + 1 =>
    match readArg? fuel ts with
    | some (arg, next :: rest) =>
      if next.isLeaf ">" then some ([arg], rest)
      else if next.isLeaf "," then
        match readArgList? fuel rest with
        | some (args, rest) => some (arg :: args, rest)
        | none => none
      else none
    | _ => none
def readArg? (fuel : Nat) (ts : List Tree) : Option (TypeExpr × List Tree) :=
  match fuel, ts.dropWhile Tree.isAnnotationTree with
  | fuel + 1, t :: rest =>
    if !t.isLeaf "?" then read fuel (t :: rest)
    else
      match rest with
      | [] => some (wildcard, [])
      | next :: bound =>
        if next.isLeaf "extends" || next.isLeaf "super" then
          match read fuel bound with
          | some (bound, rest) => some (bounded bound, rest)
          | none => none
        else some (wildcard, rest)
  | _, _ => none
end

/-- Enough fuel to read any type in so many trees: at most four readings start at one tree. -/
def fuelFor (ts : List Tree) : Nat := 4 * ts.length + 4

def parse? (ts : List Tree) : Option (TypeExpr × List Tree) := read (fuelFor ts) ts

def afterArgs? (ts : List Tree) : Option (List Tree) := (readArgs? (fuelFor ts) ts).map (·.2)

/-- What may follow a type of which a segment has just been read, the longest type first: a `<`
opens type arguments or is the next operator, a dot is part of the name or follows the type. -/
def restsAfter : Nat → List Tree → List (List Tree)
  | 0, _ => []
  | fuel + 1, ts =>
    let further (ts : List Tree) : List (List Tree) :=
      ((segment? ts).map fun (_, rest) => restsAfter fuel rest).getD [] ++ [(dimensions ts).2]
    ((afterArgs? ts).map further).getD [] ++ further ts

def rests (ts : List Tree) : List (List Tree) :=
  match ts.dropWhile Tree.isAnnotationTree with
  | t :: rest =>
    match t.word? with
    | none => []
    | some word =>
      if primitives.contains word then [(dimensions rest).2] else restsAfter (fuelFor ts) rest
  | [] => []

def endsHead : List Tree → Bool
  | first :: rest =>
    first.isLeaf "::" || (first.isLeaf "." && rest.head?.any (·.isLeaf "class"))
  | [] => false

def extendsType (t : Tree) : Bool :=
  t.isLeaf "." || t.isLeaf "<" || t.isLeaf "::" || t.isDimension || t.isAnnotationTree

/-- What follows the type at the front of the trees if that is the head of a method reference or of
a class literal: `Map<K, V>::new`, `int[].class`. -/
def afterHead? (ts : List Tree) : Option (List Tree) :=
  if (ts.drop 1).head?.any extendsType then (rests ts).find? endsHead else none

end TypeExpr

end TypeWeave.Java
