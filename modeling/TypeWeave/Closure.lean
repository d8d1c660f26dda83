import TypeWeave.Layout
import TypeWeave.Model
import TypeWeave.Registry
import TypeWeave.TargetType

/-!
# Type closures

The output for a declaration and for everything reachable from it. A class refers to its superclass
and, through every field that is not private, to the type of the field, to the types its arguments
stand for, and to the elements of an array.

The walk is depth-first: superclass before fields, fields in order. What it does for a class is laid
out beforehand as a list of steps; the output of a declaration depends on the declaration alone.
-/

namespace TypeWeave

inductive Fault where
  /-- A wildcard stands where a type is needed. -/
  | unmappableType
  /-- No declaration has this index. -/
  | unknownDeclaration (id : Nat)
  | notInProgress (name : String)
  /-- The walk went deeper than there are declarations. -/
  | tooDeep
  deriving Repr, DecidableEq

namespace Fault

def message : Fault → String
  | unmappableType => "wildcard outside a type argument"
  | unknownDeclaration id => "no declaration has index " ++ toString id
  | notInProgress name => "registry: '" ++ name ++ "' finalized while not in progress"
  | tooDeep => "walk deeper than the model"

end Fault

inductive Step where
  /-- Visit a declaration the class refers to. -/
  | reference (id : Nat)
  /-- Write down the type expression of a reference. -/
  | express (type : TypeRef)
  deriving Repr

namespace TypeRef

/-- The declarations a field of this type refers to: the type's own, those its arguments stand for,
and that of an array's innermost element. -/
def references (t : TypeRef) : List Nat :=
  t.declaration.toList ++
    t.args.filterMap (fun arg => arg.bound?.bind declaration) ++
    (if t.isArray then t.innermost.declaration.toList else [])

def supertypeName? : TypeRef → Option String
  | named _ simple _ _ => some simple
  | other => other.expression?

/-- The steps for a superclass. A named one needs no type expression. -/
def superclassSteps (t : TypeRef) : List Step :=
  t.declaration.toList.map .reference ++
    match t with
    | named .. => []
    | other => [.express other]

end TypeRef

namespace FieldDecl

def isPrivate (f : FieldDecl) : Bool := f.visibility = .privateAccess

def steps (f : FieldDecl) : List Step := f.type.references.map .reference ++ [.express f.type]

def target? (f : FieldDecl) : Option TargetField := f.type.expression?.map fun ty => ⟨f.name, ty⟩

end FieldDecl

namespace ClassShape

def visibleFields (c : ClassShape) : List FieldDecl := c.fields.filter fun f => !f.isPrivate

def steps (c : ClassShape) : List Step :=
  (match c.superclass with
    | some t => t.superclassSteps
    | none => []) ++
  c.visibleFields.flatMap FieldDecl.steps

def references (c : ClassShape) : List Nat :=
  (match c.superclass with
    | some t => t.declaration.toList
    | none => []) ++
  c.visibleFields.flatMap (·.type.references)

end ClassShape

def EnumConstant.value? (c : EnumConstant) : Option String :=
  match c.arguments with
  | some (.literal kind text :: _) => if kind = .boolean then none else some text
  | _ => none

namespace Declaration

def steps (d : Declaration) : List Step :=
  match d.kind with
  | .classType c => c.steps
  | _ => []

def references (d : Declaration) : List Nat :=
  match d.kind with
  | .classType c => c.references
  | _ => []

def target? (d : Declaration) (m : Model) (layout : Option Layout) : Option TargetDecl :=
  let output := layout.map (·.outputPath d.location)
  match d.kind with
  | .classType c => some <| .ofInterface {
      name := d.simple
      qualified := d.qualified
      output
      supertype := c.superclass.bind TypeRef.supertypeName?
      fields := c.visibleFields.filterMap FieldDecl.target?
      imports := distinct (c.references.filterMap m.name?) }
  | .enumType constants => some <| .ofEnum {
      name := d.simple
      qualified := d.qualified
      output
      values := constants.map fun c => ⟨c.name, c.value?⟩ }
  | .interfaceType | .annotationType | .recordType => none

end Declaration

/-- The registry a walk leaves. When it stops at a fault the registry keeps what was done before. -/
structure Outcome where
  registry : Registry
  fault : Option Fault := none
  deriving Repr, DecidableEq

namespace Closure

def runSteps (visit : Nat → Registry → Outcome) : List Step → Registry → Outcome
  | [], r => { registry := r }
  | .reference id :: rest, r =>
    match visit id r with
    | ⟨after, none⟩ => runSteps visit rest after
    | stopped => stopped
  | .express type :: rest, r =>
    if type.target?.isSome then runSteps visit rest r
    else { registry := r, fault := some .unmappableType }

def finish (name : String) (output : Option TargetDecl) (r : Registry) : Outcome :=
  match r.finish? name output with
  | some after => { registry := after }
  | none => { registry := r, fault := some (.notInProgress name) }

/-- Visits a declaration and all it refers to, unless its name is known. The first argument bounds
the depth of the walk. -/
def visit (m : Model) (layout : Option Layout) : Nat → Nat → Registry → Outcome
  | 0, _, r => { registry := r, fault := some .tooDeep }
  | depth + 1, id, r =>
    match m.decl? id with
    | none => { registry := r, fault := some (.unknownDeclaration id) }
    | some d =>
      match r.begin? d.qualified with
      -- A name in progress is known as well, which is where cycles end.
      | none => { registry := r }
      | some begun =>
        match runSteps (visit m layout depth) d.steps begun with
        | ⟨after, none⟩ => finish d.qualified (d.target? m layout) after
        | stopped => stopped

/-- Adds the closure of `seed` to a registry. Every visit that goes deeper begins another name of
the model, so one level more than there are declarations is enough. -/
def extend (m : Model) (layout : Option Layout) (seed : Nat) (r : Registry) : Outcome :=
  visit m layout (m.size + 1) seed r

def run (m : Model) (layout : Option Layout) (seed : Nat) : Outcome :=
  extend m layout seed .empty

end Closure

end TypeWeave
