import TypeWeave.Text.Pieces

/-!
# Type references

A type as it is written where it is used: the type of a field, a superclass, a type argument. A
named reference carries the index of its declaration when the source tree has one.
-/

namespace TypeWeave

def simpleName (qualified : String) : String := Text.afterLast '.' qualified

inductive TypeRef where
  /-- A simple or parameterized reference such as `int`, `String` or `Map<K, V>`. -/
  | named (qualified simple : String) (args : List TypeRef) (decl : Option Nat)
  /-- `T[]`; nested arrays nest this shape. -/
  | array (element : TypeRef)
  /-- A wildcard `?` without a bound. -/
  | wildcard
  /-- A wildcard with a bound, above or below. -/
  | bounded (bound : TypeRef)
  deriving Repr

namespace TypeRef

def builtin (qualified : String) : TypeRef := named qualified (simpleName qualified) [] none

def declared (qualified : String) (decl : Nat) : TypeRef :=
  named qualified (simpleName qualified) [] (some decl)

/-- Type arguments go onto named references; the other shapes have none. -/
def withArgs (args : List TypeRef) : TypeRef → TypeRef
  | named qualified simple _ decl => named qualified simple args decl
  | other => other

def isArray : TypeRef → Bool
  | array _ => true
  | _ => false

def declaration : TypeRef → Option Nat
  | named _ _ _ decl => decl
  | _ => none

def args : TypeRef → List TypeRef
  | named _ _ args _ => args
  | _ => []

/-- The type a type argument stands for: the bound of a wildcard, any other reference itself.
A wildcard without a bound stands for none. -/
def bound? : TypeRef → Option TypeRef
  | wildcard => none
  | bounded bound => some bound
  | other => some other

def innermost : TypeRef → TypeRef
  | array element => element.innermost
  | other => other

end TypeRef

end TypeWeave
