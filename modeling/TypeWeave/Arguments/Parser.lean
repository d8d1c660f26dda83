import TypeWeave.Arguments.Basic

/-!
# Reading command lines

Words are read from left to right. A value may be attached to its option (`-pDIR`,
`--classpath=DIR`) or follow as a word of its own; it is checked when the next option starts or the
words end, so that of two mistakes the unknown word is reported before the bad value in front of
it.
-/

namespace TypeWeave.Arguments

inductive CommandName where
  | translate
  | search
  | dump
  deriving Repr, DecidableEq

inductive ValueOption where
  | classpath
  | input
  | output
  | sourceRoot
  | importRoot
  | importPrefix
  | indent
  | color
  deriving Repr, DecidableEq

inductive Flag where
  | overwrite
  | bareEnums
  | verbose
  | help
  deriving Repr, DecidableEq

inductive Switch where
  | valued (option : ValueOption)
  | flag (flag : Flag)
  deriving Repr, DecidableEq

namespace ValueOption

def long : ValueOption → String
  | classpath => "classpath"
  | input => "input"
  | output => "output"
  | sourceRoot => "source-root"
  | importRoot => "import-root"
  | importPrefix => "import-prefix"
  | indent => "indent"
  | color => "color"

def short? : ValueOption → Option Char
  | classpath => some 'p'
  | input => some 'i'
  | output => some 'o'
  | _ => none

def isRepeatable (o : ValueOption) : Bool := o = classpath

end ValueOption

namespace Flag

def long? : Flag → Option String
  | overwrite => some "overwrite"
  | bareEnums => some "bare-enums"
  | verbose => none
  | help => some "help"

def short? : Flag → Option Char
  | verbose => some 'v'
  | help => some 'h'
  | _ => none

end Flag

namespace CommandName

def text : CommandName → String
  | translate => "translate"
  | search => "search"
  | dump => "dump"

def ofText? (word : String) : Option CommandName :=
  [translate, search, dump].find? (·.text == word)

def options : CommandName → List ValueOption
  | translate =>
    [.classpath, .input, .output, .sourceRoot, .importRoot, .importPrefix, .indent, .color]
  | search => [.classpath]
  | dump => [.classpath, .input, .output, .sourceRoot]

def flags : CommandName → List Flag
  | translate => [.overwrite, .bareEnums, .verbose, .help]
  | search => [.verbose, .help]
  | dump => [.verbose, .help]

/-- Only a search takes a word that belongs to no option. -/
def takesQuery (c : CommandName) : Bool := c = search

def long? (c : CommandName) (name : String) : Option Switch :=
  ((c.options.find? (·.long == name)).map .valued) <|>
    ((c.flags.find? (·.long? == some name)).map .flag)

def short? (c : CommandName) (name : Char) : Option Switch :=
  ((c.options.find? (·.short? == some name)).map .valued) <|>
    ((c.flags.find? (·.short? == some name)).map .flag)

end CommandName

def indentNumber? (text : String) : Option Nat :=
  let (negative, digits) :=
    match text.toList with
    | '-' :: cs => (true, cs)
    | '+' :: cs => (false, cs)
    | cs => (false, cs)
  if digits.isEmpty then none
  else
    match Prompt.digits? 0 digits with
    | some n => if n ≤ 8 && (n = 0 || !negative) then some n else none
    | none => none

def colorMode? (text : String) : Option ColorMode :=
  match text with
  | "auto" => some .auto
  | "always" => some .always
  | "never" => some .never
  | _ => none

def checkValue (o : ValueOption) (value : String) : Except UsageError Unit :=
  match o with
  | .output | .importRoot => if value = "" then .error .invalidValue else .ok ()
  | .color => if (colorMode? value).isSome then .ok () else .error .invalidValue
  | .indent => if (indentNumber? value).isSome then .ok () else .error .invalidNumber
  | .classpath | .input | .sourceRoot | .importPrefix => .ok ()

structure Draft where
  values : List (ValueOption × String) := []
  flags : List Flag := []
  verbosity : Nat := 0
  query : Option String := none
  /-- An option whose value is still to come, or to be checked. -/
  pending : Option (ValueOption × Option String) := none

namespace Draft

def value? (d : Draft) (o : ValueOption) : Option String := d.values.lookup o

def accept (d : Draft) (o : ValueOption) (value : String) : Except UsageError Draft :=
  if !o.isRepeatable && (d.value? o).isSome then .error .repeated
  else
    match checkValue o value with
    | .error e => .error e
    | .ok () => .ok { d with values := d.values ++ [(o, value)] }

/-- Takes the pending option, which has to have its value by now. -/
def settle (d : Draft) : Except UsageError Draft :=
  match d.pending with
  | none => .ok d
  | some (_, none) => .error .invalidValue
  | some (o, some value) => { d with pending := none }.accept o value

/-- Takes a flag. Details can be asked for again and again; only the first 255 times count. -/
def setFlag (d : Draft) (f : Flag) : Except UsageError Draft :=
  match f with
  | .help => .error .helpRequested
  | .verbose => .ok { d with verbosity := min 255 (d.verbosity + 1) }
  | .overwrite | .bareEnums =>
    if d.flags.contains f then .error .repeated else .ok { d with flags := d.flags ++ [f] }

def takeWord (c : CommandName) (d : Draft) (word : String) : Except UsageError Draft :=
  if c.takesQuery && d.query.isNone then
    match d.settle with
    | .error e => .error e
    | .ok d => .ok { d with query := some word }
  else .error .unknownArgument

def startOption (d : Draft) (o : ValueOption) (attached : Option String) :
    Except UsageError Draft :=
  match d.settle with
  | .error e => .error e
  | .ok d =>
    match attached with
    | some value => d.accept o value
    | none => .ok { d with pending := some (o, none) }

def startFlag (d : Draft) (f : Flag) : Except UsageError Draft :=
  match d.settle with
  | .error e => .error e
  | .ok d => d.setFlag f

def takeLong (c : CommandName) (d : Draft) (body : List Char) : Except UsageError Draft :=
  let name := String.ofList (body.takeWhile (· != '='))
  let attached :=
    match body.dropWhile (· != '=') with
    | [] => none
    | _ :: value => some (String.ofList value)
  match c.long? name with
  | none => .error .unknownArgument
  | some (.valued o) => d.startOption o attached
  | some (.flag f) => if attached.isSome then .error .unexpectedValue else d.startFlag f

/-- Takes a cluster of short options, given without its hyphen. What follows an option that takes a
value is that value; one equals sign in front of it does not count. -/
def takeShort (c : CommandName) (d : Draft) : List Char → Except UsageError Draft
  | [] => .ok d
  | name :: rest =>
    match c.short? name with
    | none => .error .unknownArgument
    | some (.flag f) =>
      match d.startFlag f with
      | .error e => .error e
      | .ok d => takeShort c d rest
    | some (.valued o) =>
      match rest with
      | [] => d.startOption o none
      | '=' :: value => d.startOption o (some (String.ofList value))
      | value => d.startOption o (some (String.ofList value))

def take (c : CommandName) (d : Draft) (word : String) : Except UsageError Draft :=
  match word.toList, d.pending with
  | '-' :: '-' :: body, _ => d.takeLong c body
  | '-' :: name :: rest, _ => d.takeShort c (name :: rest)
  -- A lone hyphen and the empty word are values like any other.
  | _, some (o, none) => .ok { d with pending := some (o, some word) }
  | _, _ => d.takeWord c word

/-- Takes all words. After `--` every word stands for itself. -/
def takeAll (c : CommandName) (d : Draft) (escaped : Bool) : List String → Except UsageError Draft
  | [] => d.settle
  | word :: words =>
    if escaped then
      match d.takeWord c word with
      | .error e => .error e
      | .ok d => takeAll c d true words
    else if word = "--" then takeAll c d true words
    else
      match d.take c word with
      | .error e => .error e
      | .ok d => takeAll c d false words

def classpath (d : Draft) : List Path :=
  let values := d.values.filter (·.1 = .classpath)
  (values.flatMap fun v => (Text.pieces ':' v.2.toList).filter (· != [])).map .ofChars

def task (d : Draft) : CommandName → Except UsageError Task
  | .translate =>
    if (d.value? .classpath).isNone then .error .missingRequired
    else .ok <| .translate {
      classpath := d.classpath
      input := d.value? .input
      output := (d.value? .output).map Path.mk
      marker := d.value? .sourceRoot
      importRoot := (d.value? .importRoot).map Path.mk
      importPrefix := (d.value? .importPrefix).getD "@"
      overwrite := d.flags.contains .overwrite
      indent := ((d.value? .indent).bind indentNumber?).getD 2
      bareEnums := d.flags.contains .bareEnums
      color := ((d.value? .color).bind colorMode?).getD .auto }
  | .search =>
    match d.value? .classpath, d.query with
    | some _, some query => .ok (.search d.classpath query)
    | _, _ => .error .missingRequired
  | .dump =>
    match d.value? .classpath, d.value? .input with
    | some _, some query => .ok <| .dump d.classpath query {
        output := (d.value? .output).map Path.mk
        marker := d.value? .sourceRoot }
    | _, _ => .error .missingRequired

end Draft

def parseCommand (c : CommandName) (words : List String) : Except UsageError Invocation :=
  match ({} : Draft).takeAll c false words with
  | .error e => .error e
  | .ok d =>
    match d.task c with
    | .error e => .error e
    | .ok task => .ok ⟨task, d.verbosity⟩

def isCommand (word : String) : Bool := word = "help" || (CommandName.ofText? word).isSome

def parseHelp : List String → UsageError
  | [] => .helpRequested
  | [word] => if isCommand word then .helpRequested else .unknownCommand
  | _ => .unknownCommand

/-- Reads a word that starts with hyphens in front of any command; only help is known there. -/
def parseFront : List Char → UsageError
  | '-' :: body =>
    if body = "help".toList then .helpRequested
    else if "help=".toList.isPrefixOf body then .unexpectedValue
    else .unknownArgument
  | 'h' :: _ => .helpRequested
  | _ => .unknownArgument

/-- Reads a command line, given without the name of the program. -/
def parse : List String → Except UsageError Invocation
  | [] => .error .nothingGiven
  | ["--"] => .error .nothingGiven
  | "--" :: word :: _ => .error (if isCommand word then .unknownArgument else .unknownCommand)
  | word :: words =>
    if word = "help" then .error (parseHelp words)
    else
      match CommandName.ofText? word with
      | some c => parseCommand c words
      | none =>
        match word.toList with
        | '-' :: name :: rest => .error (parseFront (name :: rest))
        | _ => .error .unknownCommand

end TypeWeave.Arguments
