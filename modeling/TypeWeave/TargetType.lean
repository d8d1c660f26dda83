import TypeWeave.TypeRef

/-!
# Target types

TypeScript type expressions as far as the output uses them, their text, and the type expression a
type reference maps to.

Arrays, lists and collections become arrays; sets and maps keep their arguments; text, numbers and
truth values become the scalar types. Every other type is known by its simple name, and its type
arguments are dropped.
-/

namespace TypeWeave

inductive TargetType where
  | name (text : String)
  | array (element : TargetType)
  | set (element : TargetType)
  | map (key value : TargetType)
  | dict (value : TargetType)
  deriving Repr, DecidableEq

namespace TargetType

/-- A missing type argument, or a wildcard without a bound. -/
def any : TargetType := name "any"

def text : TargetType → String
  | name n => n
  | array e => e.text ++ "[]"
  | set e => "Set<" ++ e.text ++ ">"
  | map k v => "Map<" ++ k.text ++ ", " ++ v.text ++ ">"
  | dict v => "Dict<" ++ v.text ++ ">"

def scalars : List (String × TargetType) := [
  ("java.lang.String", name "string"),
  ("java.lang.Character", name "string"),
  ("char", name "string"),
  ("byte", name "number"),
  ("java.lang.Byte", name "number"),
  ("int", name "number"),
  ("java.lang.Integer", name "number"),
  ("float", name "number"),
  ("java.lang.Float", name "number"),
  ("double", name "number"),
  ("java.lang.Double", name "number"),
  ("long", name "number"),
  ("java.lang.Long", name "number"),
  ("boolean", name "boolean"),
  ("java.lang.Boolean", name "boolean"),
  ("com.google.gson.JsonObject", dict (name "string")),
  ("com.google.gson.JsonArray", array any)]

def argument (i : Nat) (args : List (Option TargetType)) : Option TargetType :=
  args.getD i (some any)

def ofNamed (qualified simple : String) (args : List (Option TargetType)) : Option TargetType :=
  if qualified = "java.util.Set" then (argument 0 args).map set
  else if qualified = "java.util.List" || qualified = "java.util.Collection" then
    (argument 0 args).map array
  else if qualified = "java.util.Map" then
    match argument 0 args, argument 1 args with
    | some k, some v => some (map k v)
    | _, _ => none
  else some ((scalars.lookup qualified).getD (name simple))

end TargetType

/-- Where a reference stands: on its own, or as a type argument. -/
inductive Position where
  | outer
  | argument
  deriving Repr, DecidableEq

namespace TypeRef

mutual
/-- The mapping of a reference. A wildcard has one only as a type argument, and there it maps
through its bound, which is on its own again. -/
def targetAt : Position → TypeRef → Option TargetType
  | _, named qualified simple args _ => TargetType.ofNamed qualified simple (argTargets args)
  | _, array element => (element.targetAt .outer).map .array
  | .argument, wildcard => some .any
  | .argument, bounded bound => bound.targetAt .outer
  | .outer, wildcard => none
  | .outer, bounded _ => none
def argTargets : List TypeRef → List (Option TargetType)
  | [] => []
  | arg :: args => arg.targetAt .argument :: argTargets args
end

def target? (t : TypeRef) : Option TargetType := t.targetAt .outer

def expression? (t : TypeRef) : Option String := t.target?.map TargetType.text

end TypeRef

end TypeWeave
