import TypeWeave.Declaration
import TypeWeave.Path.Module
import TypeWeave.Text.Kebab

/-!
# Output layout

Where the output for a source file goes: the directory of the source file is repeated under a
destination, and the file is named in kebab case.
-/

namespace TypeWeave

/-- A destination directory, and a marker after which source directories are repeated there. -/
structure Layout where
  destination : Path
  marker : Option String := none
  deriving Repr, DecidableEq

namespace Layout

def relativeComponents (cs : List Component) : List Component := cs.filter (·.isRelative)

def below (base cs : List Component) : List Component :=
  if base.isPrefixOf cs then cs.drop base.length else []

def afterMarker? (layout : Layout) (directory : Path) : Option (List Component) :=
  match layout.marker with
  | none => none
  | some marker =>
    if marker = "" then none
    else (Text.after? marker.toList directory.chars).map fun rest => (Path.ofChars rest).components

/-- The directory below the destination: what follows the marker in the source directory, else the
source directory relative to its root. -/
def subdirectory (layout : Layout) (location : SourceLocation) : List Component :=
  relativeComponents <|
    match layout.afterMarker? location.directory with
    | some cs => cs
    | none => below location.root.components location.directory.components

def fileName (location : SourceLocation) : String :=
  Text.kebab location.stem ++ "." ++ Path.outputExtension

def outputPath (layout : Layout) (location : SourceLocation) : Path :=
  let directory : Path := ⟨Text.join "/" ((layout.subdirectory location).map Component.text)⟩
  (layout.destination.join directory).join ⟨fileName location⟩

end Layout

end TypeWeave
