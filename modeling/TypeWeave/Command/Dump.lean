import TypeWeave.Command.Basic
import TypeWeave.Json

/-!
# Dumping a closure

The seed and the outputs of its run as a JSON document.
-/

namespace TypeWeave

namespace TargetDecl

def pathJson (p : Path) : Json := .str p.text

def toJson : TargetDecl → Json
  | ofInterface d => .obj [
      ("kind", .str "interface"),
      ("name", .str d.name),
      ("qualified_name", .str d.qualified),
      ("output_path", .ofOption pathJson d.output),
      ("extends", .ofOption .str d.supertype),
      ("fields", .arr (d.fields.map fun f => .obj [("name", .str f.name), ("ty", .str f.type)])),
      ("imports", .arr (d.imports.map .str))]
  | ofEnum d => .obj [
      ("kind", .str "enum"),
      ("name", .str d.name),
      ("qualified_name", .str d.qualified),
      ("output_path", .ofOption pathJson d.output),
      ("values", .arr (d.values.map fun v =>
        .obj [("name", .str v.name), ("value", .ofOption .str v.value)]))]

end TargetDecl

namespace Command

structure DumpOptions where
  output : Option Path := none
  marker : Option String := none

def dumpJson (seed : String) (outputs : List TargetDecl) : Json :=
  .obj [("seed", .str seed), ("types", .arr (outputs.map (·.toJson)))]

def dump (options : DumpOptions) (m : Model) (query : String) : Except CommandError String :=
  match m.select query with
  | .error e => .error (.seed e)
  | .ok seed =>
    match Closure.run m (outputLayout options.output options.marker) seed with
    | ⟨_, some fault⟩ => .error (.fault fault)
    | ⟨r, none⟩ => .ok ((dumpJson ((m.name? seed).getD "") r.outputs).pretty ++ "\n")

end Command

end TypeWeave
