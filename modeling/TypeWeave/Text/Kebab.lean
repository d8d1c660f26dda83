import TypeWeave.Text.Lowercase

/-!
# Kebab case

File names of the output are in kebab case: words in lower case with hyphens between them. A run of
capitals starts one word, so acronyms stay together: `HTTPConfig` becomes `httpconfig`.
-/

namespace TypeWeave.Text

/-- A hyphen goes in front of every maximal run of ASCII capitals. `inRun` says that the character
before is such a capital. -/
def hyphenate (inRun : Bool) : List Char → List Char
  | [] => []
  | c :: cs =>
    if c.isUpper && !inRun then '-' :: c :: hyphenate true cs
    else c :: hyphenate c.isUpper cs

def dropHyphen : List Char → List Char
  | '-' :: cs => cs
  | cs => cs

def kebabChars (cs : List Char) : List Char :=
  dropHyphen (lowercase (hyphenate false cs))

def kebab (stem : String) : String :=
  String.ofList (kebabChars stem.toList)

end TypeWeave.Text
