import TypeWeave.Palette
import TypeWeave.Target
import TypeWeave.Text.Pieces

/-!
# Printed declarations

The text of interfaces, enums and imports, without a line end at the end.
-/

namespace TypeWeave

/-- How an enum member without a literal is printed. -/
inductive ValueFallback where
  /-- `NAME = "NAME"`: the member's own name as a string. -/
  | quotedName
  /-- `NAME`: a member without a value. -/
  | bare
  deriving Repr, DecidableEq

structure Style where
  indent : String := "  "
  fallback : ValueFallback := .quotedName
  importPrefix : String := "@"
  palette : Palette := .off
  deriving Repr, DecidableEq

namespace TargetField

def render (style : Style) (f : TargetField) : String :=
  style.indent ++ f.name ++ ": " ++ style.palette.name f.type ++ ";\n"

end TargetField

namespace TargetInterface

def header (style : Style) (d : TargetInterface) : String :=
  style.palette.keyword "export" ++ " " ++ style.palette.keyword "interface" ++ " " ++
    style.palette.name d.name ++
    match d.supertype with
    | some supertype =>
      " " ++ style.palette.keyword "extends" ++ " " ++ style.palette.name supertype
    | none => ""

def render (style : Style) (d : TargetInterface) : String :=
  d.header style ++ " \x7b\n" ++ Text.join "" (d.fields.map (·.render style)) ++ "\x7d"

end TargetInterface

namespace TargetMember

def render (style : Style) (m : TargetMember) : String :=
  style.indent ++
    match m.value, style.fallback with
    | some literal, _ => m.name ++ " = " ++ style.palette.value literal
    | none, .quotedName => m.name ++ " = " ++ style.palette.value ("\"" ++ m.name ++ "\"")
    | none, .bare => m.name

end TargetMember

namespace TargetEnum

def body (style : Style) (d : TargetEnum) : String :=
  if d.values.isEmpty then "" else Text.join ",\n" (d.values.map (·.render style)) ++ "\n"

def render (style : Style) (d : TargetEnum) : String :=
  style.palette.keyword "export" ++ " " ++ style.palette.keyword "enum" ++ " " ++
    style.palette.name d.name ++ " \x7b\n" ++ d.body style ++ "\x7d"

end TargetEnum

namespace TargetDecl

def render (style : Style) : TargetDecl → String
  | ofInterface d => d.render style
  | ofEnum d => d.render style

def renderAll (style : Style) (ds : List TargetDecl) : String :=
  Text.join "\n\n" (ds.map (·.render style))

end TargetDecl

def renderImport (name module : String) : String :=
  "import \x7b" ++ name ++ "\x7d from '" ++ module ++ "';"

end TypeWeave
