import TypeWeave.Path.Basic
import TypeWeave.TypeRef

/-!
# Declarations

The type declarations of a source tree. Only classes and enums carry a data shape; interfaces,
annotation types and records are known by name.
-/

namespace TypeWeave

/-- Where a declaration lives: the source root it was found under, and its file. -/
structure SourceLocation where
  root : Path
  file : Path
  deriving Repr, DecidableEq

namespace SourceLocation

def stem (l : SourceLocation) : String := String.ofList (l.file.stem?.getD [])

def directory (l : SourceLocation) : Path := l.file.parent?.getD ⟨""⟩

end SourceLocation

inductive Visibility where
  | publicAccess
  | protectedAccess
  | packageAccess
  | privateAccess
  deriving Repr, DecidableEq

structure FieldDecl where
  name : String
  type : TypeRef
  visibility : Visibility := .packageAccess
  deriving Repr

inductive LiteralKind where
  | boolean
  | integer
  | float
  | char
  | string
  | null
  deriving Repr, DecidableEq

inductive Argument where
  | literal (kind : LiteralKind) (text : String)
  | other (text : String)
  deriving Repr, DecidableEq

/-- An enum constant. A constant written without parentheses has no argument list. -/
structure EnumConstant where
  name : String
  arguments : Option (List Argument) := none
  deriving Repr, DecidableEq

structure ClassShape where
  superclass : Option TypeRef := none
  fields : List FieldDecl := []
  deriving Repr

inductive DeclKind where
  | classType (shape : ClassShape)
  | enumType (constants : List EnumConstant)
  | interfaceType
  | annotationType
  | recordType
  deriving Repr

namespace DeclKind

def label : DeclKind → String
  | classType _ => "class"
  | enumType _ => "enum"
  | interfaceType => "interface"
  | annotationType => "annotation"
  | recordType => "record"

/-- Classes and enums have output; the other kinds are only known. -/
def hasShape : DeclKind → Bool
  | classType _ | enumType _ => true
  | interfaceType | annotationType | recordType => false

end DeclKind

structure Declaration where
  qualified : String
  simple : String
  location : SourceLocation
  kind : DeclKind
  deriving Repr

end TypeWeave
