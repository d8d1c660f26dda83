import TypeWeave.Command.Dump
import TypeWeave.Command.Emit
import TypeWeave.Command.Search

/-!
# Invocations

What a command line asks for, and the ways it can be wrong.
-/

namespace TypeWeave.Arguments

/-- What is wrong with a command line. Asking for help ends the reading of it as well. -/
inductive UsageError where
  | helpRequested
  /-- Nothing at all was given. -/
  | nothingGiven
  | unknownCommand
  | unknownArgument
  | missingRequired
  /-- A value is missing or not one of those allowed. -/
  | invalidValue
  /-- A number is malformed or out of range. -/
  | invalidNumber
  /-- An option that is given once was repeated. -/
  | repeated
  /-- A value was attached to a flag. -/
  | unexpectedValue
  deriving Repr, DecidableEq

/-- When to use colours; nothing is known about the terminal, so `auto` means never. -/
inductive ColorMode where
  | auto
  | always
  | never
  deriving Repr, DecidableEq

structure TranslateRequest where
  classpath : List Path
  input : Option String := none
  output : Option Path := none
  marker : Option String := none
  importRoot : Option Path := none
  importPrefix : String := "@"
  overwrite : Bool := false
  indent : Nat := 2
  bareEnums : Bool := false
  color : ColorMode := .auto

/-- Files never hold escape sequences. -/
def TranslateRequest.useColor (p : TranslateRequest) : Bool :=
  p.output.isNone && p.color = .always

def TranslateRequest.options (p : TranslateRequest) : Command.EmitOptions where
  output := p.output
  marker := p.marker
  importRoot := p.importRoot
  importPrefix := p.importPrefix
  mode := if p.overwrite then .overwrite else .append
  indent := p.indent
  bareEnums := p.bareEnums
  color := p.useColor

inductive Task where
  | translate (params : TranslateRequest)
  | search (classpath : List Path) (query : String)
  | dump (classpath : List Path) (query : String) (options : Command.DumpOptions)

structure Invocation where
  task : Task
  verbosity : Nat := 0

end TypeWeave.Arguments
