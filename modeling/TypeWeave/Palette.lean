/-!
# Colours

Escape sequences around the parts of a printed declaration: keywords are dim, names blue, values
green. Without colours every sequence is empty, so that painting leaves the text as it is.
-/

namespace TypeWeave

/-- The sequences that open each kind of part, and the one that closes them all. -/
structure Palette where
  keywordCode : String := ""
  nameCode : String := ""
  valueCode : String := ""
  resetCode : String := ""
  deriving Repr, DecidableEq

namespace Palette

def off : Palette := {}

def on : Palette where
  keywordCode := "\x1b[2m"
  nameCode := "\x1b[34m"
  valueCode := "\x1b[32m"
  resetCode := "\x1b[0m"

def ofEnabled (enabled : Bool) : Palette := if enabled then on else off

def isEnabled (p : Palette) : Bool := p.resetCode != ""

def keyword (p : Palette) (text : String) : String := p.keywordCode ++ text ++ p.resetCode

def name (p : Palette) (text : String) : String := p.nameCode ++ text ++ p.resetCode

def value (p : Palette) (text : String) : String := p.valueCode ++ text ++ p.resetCode

@[simp] theorem keyword_off (text : String) : off.keyword text = text := by simp [keyword, off]

@[simp] theorem name_off (text : String) : off.name text = text := by simp [name, off]

@[simp] theorem value_off (text : String) : off.value text = text := by simp [value, off]

end Palette

end TypeWeave
