import TypeWeave.Path.Basic

/-!
# Module paths

How one output file names another in an import: the path from the import root to the file, with
`/` between its segments and without the extension of output files.
-/

namespace TypeWeave.Path

def outputExtension : String := "ts"

def commonLength : List Component → List Component → Nat
  | a :: as, b :: bs => if a = b then commonLength as bs + 1 else 0
  | _, _ => 0

def dropOutputExtension (p : Path) : Path :=
  if p.extension? = some outputExtension.toList then p.dropExtension else p

/-- The segments that lead from `root` to `target`: up to where they part, then down. -/
def segmentsFrom (root target : List Component) : List Component :=
  let base := root.filter (· != .current)
  let common := commonLength target base
  List.replicate (base.length - common) .parent ++ (target.drop common).filter (· != .current)

def modulePath (p root : Path) : String :=
  Text.join "/" ((segmentsFrom root.components p.dropOutputExtension.components).map Component.text)

end TypeWeave.Path
