import TypeWeave.Disk.Basic
import TypeWeave.Java.Resolution

/-!
# Scanning source roots

The source files below the roots of a classpath: a root that is a file stands for itself, and a
directory for every entry below it whose name ends in `.java`, sorted by path components.
-/

namespace TypeWeave.Java

inductive ReadFailure where
  | refused (error : PathError)
  | notText
  deriving Repr, DecidableEq

inductive ScanError where
  | missingRoot (root : Path)
  | unreadable (path : Path) (failure : ReadFailure)
  deriving Repr, DecidableEq

def ReadFailure.message : ReadFailure → String
  | refused error => error.message
  | notText => "stream did not contain valid UTF-8"

def ScanError.message : ScanError → String
  | missingRoot root => "classpath root not found: " ++ root.text
  | unreadable path failure => "failed to read '" ++ path.text ++ "': " ++ failure.message

/-- How the entries below a directory are written. Slashes are collapsed, and `.` in front of the
path is left out; the empty path stands for the working directory. A `.` in front that two slashes
follow finds nothing. -/
def searchBase? (root : Path) : Option Path :=
  let cs := (root.chars.reverse.dropWhile (· == '/')).reverse
  let ps := Text.pieces '/' cs
  let names (ps : List (List Char)) := Text.joinChars ['/'] (ps.filter (· != []))
  if root.isAbsolute then some (.ofChars ('/' :: names ps))
  else
    let rest := ps.dropWhile (· == ['.'])
    if rest.length < ps.length && rest.head? = some [] then none
    else some (.ofChars (names rest))

def isSourceName (name : String) : Bool := ".java".toList.isSuffixOf name.toList

def below? (directory place : Place) : Option (List String) :=
  if directory.isPrefixOf place && directory.length < place.length then
    some (place.drop directory.length)
  else none

/-- Whether names lead down. The places around the working directory and the root of the file system
are spelled with `..` and `/` behind the place of the working directory, and are not below it. -/
def leadDown (names : List String) : Bool := names.head? != some ".." && names.head? != some "/"

/-- The source names below a directory, each given by the names that lead to it. -/
def sourcesBelow (disk : Disk) (directory : Place) : List (List String) :=
  disk.entries.filterMap fun (place, _) =>
    match below? directory place with
    | some names => if leadDown names && names.getLast?.any isSourceName then some names else none
    | none => none

def filesBelow (disk : Disk) (base : Path) (directory : Place) : List Path :=
  let paths := (sourcesBelow disk directory).map fun names => base.join ⟨Text.join "/" names⟩
  paths.mergeSort fun p q => (p.order q).isLE

def discover (disk : Disk) (root : Path) : Except ScanError (List Path) :=
  if disk.isFile root then .ok [root]
  else if !disk.isDirectory root then .error (.missingRoot root)
  else
    match searchBase? root, disk.followAll (Disk.start root) (Disk.steps root) with
    | some base, .ok directory => .ok (filesBelow disk base directory)
    | _, _ => .ok []

def readSource (disk : Disk) (root file : Path) : Except ScanError (SourceLocation × String) :=
  match disk.read file with
  | .error e => .error (.unreadable file (.refused e))
  | .ok content =>
    match String.fromUTF8? content with
    | some text => .ok (⟨root, file⟩, text)
    | none => .error (.unreadable file .notText)

def readSources (disk : Disk) (root : Path) :
    List Path → Except ScanError (List (SourceLocation × String))
  | [] => .ok []
  | file :: files =>
    match readSource disk root file with
    | .error e => .error e
    | .ok source =>
      match readSources disk root files with
      | .error e => .error e
      | .ok sources => .ok (source :: sources)

def scanRoots (disk : Disk) : List Path → Except ScanError (List (SourceLocation × String))
  | [] => .ok []
  | root :: roots =>
    match discover disk root with
    | .error e => .error e
    | .ok files =>
      match readSources disk root files with
      | .error e => .error e
      | .ok sources =>
        match scanRoots disk roots with
        | .error e => .error e
        | .ok more => .ok (sources ++ more)

def scanModel (disk : Disk) (roots : List Path) : Except ScanError Model :=
  match scanRoots disk roots with
  | .error e => .error e
  | .ok sources => .ok (modelOfTexts sources)

end TypeWeave.Java
