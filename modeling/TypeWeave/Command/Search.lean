import TypeWeave.Command.Basic

/-!
# Listing declarations

One line for every match with its qualified name, its kind and its file, in aligned columns.
-/

namespace TypeWeave.Command

def padTo (width : Nat) (text : String) : String :=
  text ++ String.ofList (List.replicate (width - text.length) ' ')

def searchLine (width : Nat) (d : Declaration) : String :=
  padTo width d.qualified ++ "  " ++ padTo 5 d.kind.label ++ "  " ++ d.location.file.text ++ "\n"

/-- The matches of a query, blanks around it aside. The column of names is as wide as the longest of
them in bytes. -/
def search (m : Model) (query : String) : String :=
  let found := (m.search (Text.trim query)).filterMap m.decl?
  let width := found.foldl (fun width d => max width d.qualified.utf8ByteSize) 0
  Text.join "" (found.map (searchLine width))

end TypeWeave.Command
