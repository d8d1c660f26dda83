import TypeWeave.Java.SourceUnit
import TypeWeave.Java.Expression
import TypeWeave.Java.Modifier

/-!
# Fields and enum constants

Declarations that consist of entries separated by commas: the names a field declaration introduces,
with their initial values, and the constants of an enum, with their arguments.
-/

namespace TypeWeave.Java

def readDeclarator? (type : TypeExpr) (visibility : Visibility) : List Tree → Option WrittenField
  | [] => none
  | t :: ts => t.word?.map fun name => ⟨name, type.nestArray (TypeExpr.dimensions ts).1, visibility⟩

/-- The fields a member declares: none unless it is a type followed by nothing but declarators. -/
def readFields (member : List Tree) : List WrittenField :=
  let (words, rest) := cutModifiers member
  match TypeExpr.parse? rest with
  | none => []
  | some (type, declarators) =>
    match entries? .declarator declarators with
    | none => []
    | some list => list.filterMap (readDeclarator? type (visibilityOf words))

def literalKind? (t : Token) : Option LiteralKind :=
  match t.kind with
  | .integer => some .integer
  | .float => some .float
  | .char => some .char
  | .string => some .string
  | .word =>
    if t.text == "true" || t.text == "false" then some .boolean
    else if t.text == "null" then some .null
    else none
  | .mark => none

/-- An argument: a literal if it is nothing else, otherwise its source text. -/
def readArgument : List Tree → Argument
  | [.leaf t] =>
    match literalKind? t with
    | some kind => .literal kind t.text
    | none => .other t.text
  | ts => .other (sourceText (Tree.tokensOf ts))

def readArguments? : List Tree → Option (List Argument)
  | .group opening inner _ :: _ =>
    if opening.text == "(" then some ((expressions (gatherAnnotations inner)).map readArgument)
    else none
  | _ => none

def readConstant? (entry : List Tree) : Option EnumConstant :=
  match (cutModifiers entry).2 with
  | [] => none
  | name :: rest => name.word?.map fun name => ⟨name, readArguments? rest⟩

def cutSemicolon (ts : List Tree) : List Tree × List Tree :=
  (ts.takeWhile fun t => !t.isLeaf ";", (ts.dropWhile fun t => !t.isLeaf ";").drop 1)

def readConstants (body : List Tree) : List EnumConstant :=
  let list := dropAnnotations (gatherAnnotations (cutSemicolon body).1)
  (betweenCommas [] list).filterMap readConstant?

end TypeWeave.Java
