import TypeWeave.Java.Body
import TypeWeave.Model

/-!
# Name resolution

From source units to a model. First every declaration gets its qualified name; then the names in
type expressions are resolved against all of them, so that references may point in any direction.

A simple name is looked up in the enclosing types from the inside out, then among the imports of
single types, in the package, among the imports of whole packages, and last in `java.lang`. A dotted
name is resolved through its first segment.
-/

namespace TypeWeave.Java

/-- The names of `java.lang` that are in scope everywhere. -/
def languageNames : List String :=
  ["Boolean", "Byte", "Character", "Class", "Double", "Enum", "Float", "Integer", "Long", "Number",
    "Object", "Short", "String", "Void"]

/-- The names an import of all of `java.util` brings into scope. -/
def utilityNames : List String :=
  ["ArrayList", "Collection", "Date", "HashMap", "HashSet", "LinkedHashMap", "LinkedHashSet",
    "LinkedList", "List", "Map", "Optional", "Set", "SortedMap", "SortedSet", "TreeMap", "TreeSet",
    "UUID"]

structure SourceFile where
  location : SourceLocation
  unit : SourceUnit
  deriving Repr

def qualify (package : Option String) (name : String) : String :=
  match package with
  | some package => if package = "" then name else package ++ "." ++ name
  | none => name

structure Unresolved where
  qualified : String
  file : SourceFile
  /-- Qualified names of the declaration itself and of the types around it, innermost first. -/
  scope : List String
  type : WrittenType
  deriving Repr

mutual
def collect (file : SourceFile) (outer : List String) (qualified : String) :
    WrittenType → List Unresolved
  | .mk name kind nested =>
    ⟨qualified, file, qualified :: outer, .mk name kind nested⟩ ::
      collectNested file (qualified :: outer) qualified nested
def collectNested (file : SourceFile) (outer : List String) (qualified : String) :
    List WrittenType → List Unresolved
  | [] => []
  | type :: rest =>
    collect file outer (qualified ++ "." ++ type.name) type ++
      collectNested file outer qualified rest
end

def SourceFile.unresolved (file : SourceFile) : List Unresolved :=
  file.unit.types.flatMap fun type => collect file [] (qualify file.unit.package type.name) type

abbrev Names := List String

namespace Names

/-- The index of the last declaration of a name. -/
def index? (names : Names) (qualified : String) : Option Nat :=
  lastIndex? (· == qualified) names

def declares (names : Names) (qualified : String) : Bool := names.contains qualified

end Names

/-- A name in the scope of enclosing types: one of them, or a member of one of them. -/
def inScope? (names : Names) (name : String) : List String → Option String
  | [] => none
  | enclosing :: outer =>
    if simpleName enclosing = name then some enclosing
    else if names.declares (enclosing ++ "." ++ name) then some (enclosing ++ "." ++ name)
    else inScope? names name outer

def Import.single? (name : String) : Import → Option String
  | single path => if simpleName path = name then some path else none
  | onDemand _ => none

def Import.member? (names : Names) (name : String) : Import → Option String
  | single _ => none
  | onDemand package =>
    let candidate := qualify (some package) name
    if names.declares candidate || (package = "java.util" && utilityNames.contains name) then
      some candidate
    else none

def inPackage? (names : Names) (package : Option String) (name : String) : Option String :=
  if names.declares (qualify package name) then some (qualify package name) else none

def inLanguage? (name : String) : Option String :=
  if languageNames.contains name then some ("java.lang." ++ name) else none

def resolveSimple? (names : Names) (unit : SourceUnit) (scope : List String) (name : String) :
    Option String :=
  inScope? names name scope <|>
  unit.imports.findSome? (Import.single? name) <|>
  inPackage? names unit.package name <|>
  unit.imports.findSome? (Import.member? names name) <|>
  inLanguage? name

/-- The qualified name of a written name. What cannot be resolved is taken as it is written. -/
def resolveSegments (names : Names) (unit : SourceUnit) (scope : List String) :
    List String → String
  | [] => ""
  | [name] => (resolveSimple? names unit scope name).getD name
  | first :: rest =>
    match resolveSimple? names unit scope first with
    | some head => head ++ "." ++ Text.join "." rest
    | none => Text.join "." (first :: rest)

mutual
def resolveType (names : Names) (unit : SourceUnit) (scope : List String) : TypeExpr → TypeRef
  | .primitive keyword => .builtin keyword
  | .array element => .array (resolveType names unit scope element)
  | .wildcard => .wildcard
  | .bounded bound => .bounded (resolveType names unit scope bound)
  | .named segments args =>
    let qualified := resolveSegments names unit scope segments
    .named qualified (simpleName qualified) (resolveTypes names unit scope args)
      (names.index? qualified)
def resolveTypes (names : Names) (unit : SourceUnit) (scope : List String) :
    List TypeExpr → List TypeRef
  | [] => []
  | type :: types => resolveType names unit scope type :: resolveTypes names unit scope types
end

namespace Unresolved

def resolve (names : Names) (p : Unresolved) : TypeExpr → TypeRef :=
  resolveType names p.file.unit p.scope

def kind (names : Names) (p : Unresolved) : DeclKind :=
  match p.type.kind with
  | .classType superclass fields => .classType {
      superclass := superclass.map (p.resolve names)
      fields := fields.map fun f => ⟨f.name, p.resolve names f.type, f.visibility⟩ }
  | .enumType constants => .enumType constants
  | .interfaceType => .interfaceType
  | .annotationType => .annotationType
  | .recordType => .recordType

def declaration (names : Names) (p : Unresolved) : Declaration where
  qualified := p.qualified
  simple := p.type.name
  location := p.file.location
  kind := p.kind names

end Unresolved

/-- The model of a list of source files: files in order, each type followed by its nested types. -/
def buildModel (files : List SourceFile) : Model :=
  let unresolved := files.flatMap SourceFile.unresolved
  let names := unresolved.map (·.qualified)
  ⟨unresolved.map (·.declaration names)⟩

def modelOfTexts (sources : List (SourceLocation × String)) : Model :=
  buildModel (sources.map fun (location, text) => ⟨location, readUnit text⟩)

end TypeWeave.Java
