import TypeWeave.Path.Module
import TypeWeave.Registry
import TypeWeave.Rendering
import TypeWeave.Sequence

/-!
# Output files

The outputs of a run are grouped by the file they go to, and a file imports what its interfaces
refer to in other files. Files are told apart by the components of their paths.
-/

namespace TypeWeave

structure FileGroup where
  /-- Absent when the run has no layout. -/
  path : Option Path
  members : List TargetDecl
  deriving Repr, DecidableEq

/-- The outputs of a registry and how they are printed. Without an import root there are no
imports. -/
structure Bundle where
  registry : Registry
  style : Style := {}
  importRoot : Option Path := none

def sameFile (p q : Option Path) : Bool := p.map Path.components = q.map Path.components

namespace Bundle

/-- One group for every file, in the order of the first members. A group is known by the path of
its first member. -/
def groups (b : Bundle) : List FileGroup :=
  (distinctBy sameFile (b.registry.outputs.map (·.output))).map fun path =>
    ⟨path, b.registry.outputs.filter fun d => sameFile path d.output⟩

/-- The import of a referenced name into the file at `path`: none if the name has no output, no
file, or the same file. -/
def importLine? (b : Bundle) (root : Path) (path : Option Path) (qualified : String) :
    Option String :=
  match b.registry.get? qualified with
  | none => none
  | some target =>
    match target.output with
    | none => none
    | some file =>
      if sameFile path (some file) then none
      else some (renderImport target.name (b.style.importPrefix ++ file.modulePath root))

def importLines (b : Bundle) (group : FileGroup) : List String :=
  match b.importRoot with
  | none => []
  | some root =>
    distinct (group.members.flatMap fun d => d.imports.filterMap (b.importLine? root group.path))

def renderGroup (b : Bundle) (group : FileGroup) : String :=
  let declarations := TargetDecl.renderAll b.style group.members
  match b.importLines group with
  | [] => declarations
  | lines => Text.join "\n" lines ++ "\n\n" ++ declarations

def renderAll (b : Bundle) : String := TargetDecl.renderAll b.style b.registry.outputs

end Bundle

end TypeWeave
