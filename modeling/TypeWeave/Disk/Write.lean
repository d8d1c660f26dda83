import TypeWeave.Disk.Basic
import TypeWeave.Bundle

/-!
# Writing output files

A group is written to its file followed by a line end. Appending to a file that is there already
leaves a blank line in front of the new text.
-/

namespace TypeWeave

/-- What happens to a file that is there already. -/
inductive WriteMode where
  | append
  | overwrite
  deriving Repr, DecidableEq

structure WriteError where
  path : Path
  cause : PathError
  deriving Repr, DecidableEq

namespace WriteError

def message (e : WriteError) : String :=
  "failed to write '" ++ e.path.text ++ "': " ++ e.cause.message

end WriteError

def written (mode : WriteMode) (old : Option ByteArray) (content : String) : ByteArray :=
  match mode, old with
  | .append, some old => old ++ ("\n" ++ content ++ "\n").toUTF8
  | _, _ => (content ++ "\n").toUTF8

namespace Disk

def makeParents (disk : Disk) (p : Path) : Disk × Option PathError :=
  match p.parent? with
  | some parent => disk.makeDirectories parent.ancestors
  | none => (disk, none)

def writeText (disk : Disk) (p : Path) (content : String) (mode : WriteMode) :
    Disk × Option WriteError :=
  match disk.makeParents p with
  | (made, some e) => (made, some ⟨p, e⟩)
  | (made, none) =>
    match made.openFile p with
    | .error e => (made, some ⟨p, e⟩)
    | .ok (place, old) => (made.put place (.file (written mode old content)), none)

end Disk

namespace Bundle

/-- Writes the groups that have a file, in order, up to the first that fails. -/
def writeGroups (b : Bundle) (mode : WriteMode) : List FileGroup → Disk →
    Disk × Except WriteError (List Path)
  | [], disk => (disk, .ok [])
  | group :: rest, disk =>
    match group.path with
    | none => b.writeGroups mode rest disk
    | some path =>
      match disk.writeText path (b.renderGroup group) mode with
      | (after, some e) => (after, .error e)
      | (after, none) =>
        match b.writeGroups mode rest after with
        | (last, .error e) => (last, .error e)
        | (last, .ok paths) => (last, .ok (path :: paths))

def write (b : Bundle) (mode : WriteMode) (disk : Disk) : Disk × Except WriteError (List Path) :=
  b.writeGroups mode b.groups disk

end Bundle

end TypeWeave
