import TypeWeave.Command.Basic
import TypeWeave.Prompt

/-!
# Emitting closures

The closure of a declaration is printed, or written to files below an output directory. The
declaration is named beforehand, or asked for again and again; every run starts from an empty
registry.
-/

namespace TypeWeave.Command

structure EmitOptions where
  /-- The output directory; without one the output is printed. -/
  output : Option Path := none
  marker : Option String := none
  importRoot : Option Path := none
  importPrefix : String := "@"
  mode : WriteMode := .append
  /-- The number of spaces in front of a member. -/
  indent : Nat := 2
  bareEnums : Bool := false
  color : Bool := false

namespace EmitOptions

def style (o : EmitOptions) : Style where
  indent := String.ofList (List.replicate o.indent ' ')
  fallback := if o.bareEnums then .bare else .quotedName
  importPrefix := o.importPrefix
  palette := .ofEnabled o.color

def layout (o : EmitOptions) : Option Layout := outputLayout o.output o.marker

def bundle (o : EmitOptions) (r : Registry) : Bundle := ⟨r, o.style, o.importRoot⟩

end EmitOptions

def emit (o : EmitOptions) (r : Registry) (disk : Disk) : Report :=
  if o.output.isNone then { out := (o.bundle r).renderAll ++ "\n", disk }
  else
    match (o.bundle r).write o.mode disk with
    | (disk, .ok _) => { disk }
    | (disk, .error e) => { disk, failure := some (.write e) }

def runSeed (o : EmitOptions) (m : Model) (seed : Nat) (disk : Disk) : Report :=
  match Closure.run m o.layout seed with
  | ⟨_, some fault⟩ => { disk, failure := some (.fault fault) }
  | ⟨r, none⟩ => emit o r disk

def batch (o : EmitOptions) (m : Model) (query : String) (disk : Disk) : Report :=
  match m.select query with
  | .error e => { disk, failure := some (.seed e) }
  | .ok seed => runSeed o m seed disk

/-- Asks for seeds on the given lines and emits the closure of each. One registry serves the whole
dialogue and is reset before every run. The first failure ends the dialogue. -/
def interactiveFrom (o : EmitOptions) (m : Model) (r : Registry) (lines : List String)
    (disk : Disk) : Report :=
  match h : (Prompt.next m lines).picked with
  | none => { transcript := (Prompt.next m lines).transcript, disk }
  | some seed =>
    have := Prompt.length_rest_next_lt h
    match Closure.extend m o.layout seed r.reset with
    | ⟨_, some fault⟩ =>
      { transcript := (Prompt.next m lines).transcript, disk, failure := some (.fault fault) }
    | ⟨after, none⟩ =>
      { emit o after disk with transcript := (Prompt.next m lines).transcript }.followedBy
        (interactiveFrom o m after (Prompt.next m lines).rest)
termination_by lines.length

def interactive (o : EmitOptions) (m : Model) (input : String) (disk : Disk) : Report :=
  interactiveFrom o m .empty (Prompt.lines input) disk

end TypeWeave.Command
