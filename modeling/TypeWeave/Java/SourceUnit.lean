import TypeWeave.Declaration
import TypeWeave.Java.TypeExpr

/-!
# Source units

What one source file declares: its package, its imports and its types, with every type expression
still as it is written. Types nest; only what is declared directly in a body counts, so that local
and anonymous classes are not declarations.
-/

namespace TypeWeave.Java

/-- An import of one type, or of all types of a package. -/
inductive Import where
  | single (name : String)
  | onDemand (package : String)
  deriving Repr, DecidableEq

structure WrittenField where
  name : String
  type : TypeExpr
  visibility : Visibility := .packageAccess
  deriving Repr

inductive WrittenKind where
  | classType (superclass : Option TypeExpr) (fields : List WrittenField)
  | enumType (constants : List EnumConstant)
  | interfaceType
  | annotationType
  | recordType
  deriving Repr

/-- A type declaration as written, with the types declared in its body. -/
inductive WrittenType where
  | mk (name : String) (kind : WrittenKind) (nested : List WrittenType)
  deriving Repr

namespace WrittenType

def name : WrittenType → String
  | mk name _ _ => name

def kind : WrittenType → WrittenKind
  | mk _ kind _ => kind

def nested : WrittenType → List WrittenType
  | mk _ _ nested => nested

end WrittenType

structure SourceUnit where
  package : Option String := none
  imports : List Import := []
  types : List WrittenType := []
  deriving Repr

end TypeWeave.Java
