import TypeWeave.Path.Basic

/-!
# Disks

A file tree as a value: the files and directories below the working directory, each under the list
of names that leads to it. The working directory itself, its ancestors and the root of the file
system are always there.

Walking along a path follows its pieces one by one, so that `a/..` needs a directory `a`.
-/

namespace TypeWeave

/-- A place in the file tree: the names from the working directory down. A leading `..` leads out of
it, a leading `/` to the root of the file system. -/
abbrev Place := List String

namespace Place

def workingDirectory : Place := []

/-- Places that always hold a directory: the working directory, its ancestors and the root. -/
def isFixed (place : Place) : Bool := place.all (· == "..") || place = ["/"]

def up (place : Place) : Place :=
  if place = ["/"] then place
  else if place.all (· == "..") then place ++ [".."]
  else place.dropLast

def down (place : Place) (name : String) : Place := place ++ [name]

end Place

inductive Node where
  | file (content : ByteArray)
  | directory

/-- Why a path cannot be used. All but the last are refusals of the operating system. -/
inductive PathError where
  | notFound
  | alreadyExists
  | notADirectory
  | isADirectory
  | nameTooLong
  /-- The path holds the character that ends a text for the operating system. -/
  | holdsNul
  deriving Repr, DecidableEq

namespace PathError

def code? : PathError → Option Nat
  | notFound => some 2
  | alreadyExists => some 17
  | notADirectory => some 20
  | isADirectory => some 21
  | nameTooLong => some 36
  | holdsNul => none

def reason : PathError → String
  | notFound => "No such file or directory"
  | alreadyExists => "File exists"
  | notADirectory => "Not a directory"
  | isADirectory => "Is a directory"
  | nameTooLong => "File name too long"
  | holdsNul => "file name contained an unexpected NUL byte"

def message (e : PathError) : String :=
  match e.code? with
  | some code => e.reason ++ " (os error " ++ toString code ++ ")"
  | none => e.reason

end PathError

structure Disk where
  entries : List (Place × Node) := []

namespace Disk

def empty : Disk := {}

def node? (disk : Disk) (place : Place) : Option Node :=
  if place.isFixed then some .directory else disk.entries.lookup place

/-- The disk with `node` at a place, in the position of what was there before or else at the end. -/
def put (disk : Disk) (place : Place) (node : Node) : Disk :=
  if (disk.entries.lookup place).isSome then
    ⟨disk.entries.map fun entry => if entry.1 == place then (place, node) else entry⟩
  else ⟨disk.entries ++ [(place, node)]⟩

def maxNameBytes : Nat := 255

def maxPathBytes : Nat := 4095

def follow (disk : Disk) (place : Place) (piece : List Char) : Except PathError Place :=
  match disk.node? place with
  | none => .error .notFound
  | some (.file _) => .error .notADirectory
  | some .directory =>
    -- The next place need not hold anything; whoever goes on from it will find out.
    if piece = ['.'] then .ok place
    else if piece = ['.', '.'] then .ok place.up
    else if maxNameBytes < (String.ofList piece).utf8ByteSize then .error .nameTooLong
    else .ok (place.down (String.ofList piece))

def followAll (disk : Disk) : Place → List (List Char) → Except PathError Place
  | place, [] => .ok place
  | place, piece :: rest =>
    match disk.follow place piece with
    | .ok next => followAll disk next rest
    | .error e => .error e

def start (p : Path) : Place := if p.isAbsolute then ["/"] else Place.workingDirectory

def steps (p : Path) : List (List Char) := (Text.pieces '/' p.chars).filter (· != [])

def endsInSlash (p : Path) : Bool := p.chars.getLast? = some '/'

/-- What is wrong with a path whatever the disk holds. -/
def fault? (p : Path) : Option PathError :=
  if p.text = "" then some .notFound
  else if p.chars.contains '\x00' then some .holdsNul
  else if maxPathBytes < p.text.utf8ByteSize then some .nameTooLong
  else none

def lookup (disk : Disk) (p : Path) : Except PathError Node :=
  match fault? p with
  | some e => .error e
  | none =>
    match disk.followAll (start p) (steps p) with
    | .error e => .error e
    | .ok place =>
      match disk.node? place with
      | none => .error .notFound
      | some (.file content) =>
        if endsInSlash p then .error .notADirectory else .ok (.file content)
      | some .directory => .ok .directory

def isFile (disk : Disk) (p : Path) : Bool :=
  match disk.lookup p with
  | .ok (.file _) => true
  | _ => false

def isDirectory (disk : Disk) (p : Path) : Bool :=
  match disk.lookup p with
  | .ok .directory => true
  | _ => false

/-- Whether a piece is an ordinary name: `.` and `..` at the end of a path name a directory that is
there already. -/
def isOrdinary (piece : List Char) : Bool := piece != ['.'] && piece != ['.', '.']

/-- The directory a path leads to before its last piece, and that piece. -/
def target (disk : Disk) (p : Path) : Except PathError (Place × List Char) :=
  match fault? p with
  | some e => .error e
  | none =>
    match (steps p).getLast? with
    | none => .ok (start p, ['.'])
    | some last =>
      match disk.followAll (start p) (steps p).dropLast with
      | .error e => .error e
      | .ok place =>
        match disk.node? place with
        | none => .error .notFound
        | some (.file _) => .error .notADirectory
        | some .directory => .ok (place, last)

def makeDirectory (disk : Disk) (p : Path) : Except PathError Disk :=
  match disk.target p with
  | .error e => .error e
  | .ok (parent, last) =>
    match disk.follow parent last with
    | .error e => .error e
    | .ok place =>
      if isOrdinary last && (disk.node? place).isNone then .ok (disk.put place .directory)
      else .error .alreadyExists

/-- Makes the first of the paths a directory after making the others, its parents, as far as they
are missing. Directories made on the way stay even if a later one is refused. -/
def makeDirectories (disk : Disk) : List Path → Disk × Option PathError
  | [] => (disk, none)
  | p :: parents =>
    match disk.makeDirectory p with
    | .ok made => (made, none)
    | .error .notFound =>
      -- Only a missing parent is worth another try.
      match makeDirectories disk parents with
      | (made, some e) => (made, some e)
      | (made, none) =>
        match made.makeDirectory p with
        | .ok last => (last, none)
        | .error e => (made, if made.isDirectory p then none else some e)
    | .error e => (disk, if disk.isDirectory p then none else some e)

/-- The place and the content of a file that is opened for writing; no content if it is new. -/
def openFile (disk : Disk) (p : Path) : Except PathError (Place × Option ByteArray) :=
  match disk.target p with
  | .error e => .error e
  | .ok (parent, last) =>
    -- A path that can only mean a directory is refused before its last piece is looked up.
    if !isOrdinary last || endsInSlash p then .error .isADirectory
    else
      match disk.follow parent last with
      | .error e => .error e
      | .ok place =>
        match disk.node? place with
        | none => .ok (place, none)
        | some (.file content) => .ok (place, some content)
        | some .directory => .error .isADirectory

def read (disk : Disk) (p : Path) : Except PathError ByteArray :=
  match disk.lookup p with
  | .error e => .error e
  | .ok .directory => .error .isADirectory
  | .ok (.file content) => .ok content

def withEntry (disk : Disk) (place : Place) (node : Node) : Disk :=
  let parents := (List.range place.length).map fun n => place.take n
  let ready := parents.foldl (fun d p => if (d.node? p).isSome then d else d.put p .directory) disk
  ready.put place node

end Disk

end TypeWeave
