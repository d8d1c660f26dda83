import TypeWeave.Java.Declarator
import TypeWeave.Text.Blank

/-!
# Bodies

The members of a body, and the source unit of a whole file. A member reaches to the next semicolon
or to the end of the next block, whichever comes first, where the block of an initial value or of
an element's default value is not the end of the member.
-/

namespace TypeWeave.Java

inductive BodyKind where
  /-- An annotation type, whose elements may have default values and may be of a type that is named
  `record`. -/
  | annotationBody
  /-- Any other type, or the source file. -/
  | ordinaryBody
  deriving Repr, DecidableEq

/-- Whether a block after these trees, last first, does not end the member: it belongs to an initial
value, or to the default value of an annotation's element. -/
def isOpen (kind : BodyKind) (member : List Tree) : Bool :=
  member.any (·.isLeaf "=") ||
    (kind = .annotationBody &&
      (member.dropWhile fun t => !t.isLeaf "default").any (·.isGroup "("))

/-- Cuts trees into members. `member` holds the trees of the current member, last first. -/
def cutMembers (kind : BodyKind) (member : List Tree) : List Tree → List (List Tree)
  | [] => if member.isEmpty then [] else [member.reverse]
  | t :: ts =>
    if t.isLeaf ";" then member.reverse :: cutMembers kind [] ts
    else if t.isGroup "\x7b" && !isOpen kind member then
      (t :: member).reverse :: cutMembers kind [] ts
    else cutMembers kind (t :: member) ts

def members (kind : BodyKind) (ts : List Tree) : List (List Tree) :=
  cutMembers kind [] (gatherAnnotations ts)

def afterTypeParameters (depth : Nat) : List Tree → List Tree
  | [] => []
  | t :: ts =>
    if t.isLeaf "<" then afterTypeParameters (depth + 1) ts
    else if depth = 0 then t :: ts
    else if t.isLeaf ">" then
      if depth = 1 then ts else afterTypeParameters (depth - 1) ts
    else afterTypeParameters depth ts

def superclass? (ts : List Tree) : Option TypeExpr :=
  match afterTypeParameters 0 ts with
  | t :: rest => if t.isLeaf "extends" then (TypeExpr.parse? rest).map (·.1) else none
  | [] => none

structure Header where
  name : String
  kind : WrittenKind
  /-- The part of the body that holds nested types. -/
  body : List Tree

def bodyOf (member : List Tree) : List Tree :=
  match member.getLast? with
  | some (.group opening inner _) => if opening.text == "\x7b" then inner else []
  | _ => []

/-- Whether a record is declared by `record`, a name and these trees. Among the elements of an
annotation type that is so only if a block follows which is no default value. -/
def declaresRecord (kind : BodyKind) (rest : List Tree) : Bool :=
  rest.head?.any (fun t => t.isGroup "(" || t.isLeaf "<") &&
    (kind = .ordinaryBody ||
      (rest.getLast?.any (·.isGroup "\x7b") && !rest.any (·.isLeaf "default")))

def headerOf? (kind : BodyKind) (keyword : String) (name : String) (rest body : List Tree) :
    Option Header :=
  match keyword with
  | "class" =>
    let fields := (members .ordinaryBody body).flatMap readFields
    some ⟨name, .classType (superclass? rest) fields, body⟩
  | "interface" => some ⟨name, .interfaceType, body⟩
  | "enum" => some ⟨name, .enumType (readConstants body), (cutSemicolon body).2⟩
  | "record" => if declaresRecord kind rest then some ⟨name, .recordType, body⟩ else none
  | _ => none

def readHeader? (kind : BodyKind) (member : List Tree) : Option Header :=
  match (cutModifiers member).2 with
  | first :: rest =>
    match annotationKeyword? first with
    | some name =>
      -- The name may follow the keyword without a gap.
      let name? := if name == "" then rest.head?.bind Tree.word? else some name
      name?.map fun name => ⟨name, .annotationType, bodyOf member⟩
    | none =>
      match first.word?, rest with
      | some keyword, second :: rest =>
        second.word?.bind fun name => headerOf? kind keyword name rest (bodyOf member)
      | _, _ => none
  | [] => none

def WrittenKind.bodyKind : WrittenKind → BodyKind
  | annotationType => .annotationBody
  | _ => .ordinaryBody

/-- The types declared among the trees of a body. The first argument bounds how deep they nest. -/
def readTypes : Nat → BodyKind → List Tree → List WrittenType
  | 0, _, _ => []
  | depth + 1, kind, ts =>
    (members kind ts).filterMap fun member =>
      (readHeader? kind member).map fun header =>
        .mk header.name header.kind (readTypes depth header.kind.bodyKind header.body)

def dottedName (ts : List Tree) : String := Text.squeeze (sourceText (Tree.tokensOf ts))

def isDotted : List Tree → Bool
  | [name] => name.word?.isSome
  | name :: dot :: rest => name.word?.isSome && dot.isLeaf "." && isDotted rest
  | [] => false

/-- The package a member names. After more than one annotation a member such as `package a` declares
a variable instead; with a dot in the name it cannot. -/
def readPackage? (member : List Tree) : Option String :=
  match dropAnnotations member with
  | keyword :: name =>
    if keyword.isLeaf "package" && isDotted name &&
        (member.countP Tree.isAnnotationTree ≤ 1 || 1 < name.length) then
      some (dottedName name)
    else none
  | [] => none

def readImport? (member : List Tree) : Option Import :=
  match member with
  | keyword :: name =>
    -- Static imports name no types.
    if !keyword.isLeaf "import" || name.isEmpty || name.head?.any (·.isLeaf "static") then none
    else if name.getLast?.any (·.isLeaf "*") then
      some (.onDemand (dottedName (name.dropLast.dropLast)))
    else some (.single (dottedName name))
  | [] => none

def readUnit (text : String) : SourceUnit :=
  let tokens := tokenize text
  let trees := parseTrees tokens
  let members := members .ordinaryBody trees
  { package := (members.filterMap readPackage?).getLast?
    imports := members.filterMap readImport?
    -- Types cannot nest deeper than there are tokens.
    types := readTypes (tokens.length + 1) .ordinaryBody trees }

end TypeWeave.Java
