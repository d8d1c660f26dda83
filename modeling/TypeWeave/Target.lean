import TypeWeave.Path.Basic

/-!
# Target declarations

The declarations of the output: an interface for every class and an enum for every enum. They carry
what is printed, where it goes, and the qualified names an interface refers to.
-/

namespace TypeWeave

structure TargetField where
  name : String
  type : String
  deriving Repr, DecidableEq

structure TargetInterface where
  name : String
  qualified : String
  output : Option Path := none
  /-- The simple name of the superclass. -/
  supertype : Option String := none
  fields : List TargetField := []
  /-- Qualified names of the declarations the class refers to, each once. -/
  imports : List String := []
  deriving Repr, DecidableEq

/-- A member of an enum. Without a literal its value is derived from its name. -/
structure TargetMember where
  name : String
  value : Option String := none
  deriving Repr, DecidableEq

structure TargetEnum where
  name : String
  qualified : String
  output : Option Path := none
  values : List TargetMember := []
  deriving Repr, DecidableEq

inductive TargetDecl where
  | ofInterface (decl : TargetInterface)
  | ofEnum (decl : TargetEnum)
  deriving Repr, DecidableEq

namespace TargetDecl

def name : TargetDecl → String
  | ofInterface d => d.name
  | ofEnum d => d.name

def qualified : TargetDecl → String
  | ofInterface d => d.qualified
  | ofEnum d => d.qualified

/-- The output file; absent when the run has no layout. -/
def output : TargetDecl → Option Path
  | ofInterface d => d.output
  | ofEnum d => d.output

def imports : TargetDecl → List String
  | ofInterface d => d.imports
  | ofEnum _ => []

end TargetDecl

end TypeWeave
