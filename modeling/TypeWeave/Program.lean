import TypeWeave.Arguments.Parser

/-!
# The program

One run of the program as a function of its command line, its input and the disk.
-/

namespace TypeWeave

structure Exit where
  code : Nat
  stdout : String := ""
  stderr : String := ""
  disk : Disk

namespace Program

def usage : String :=
  "usage: translate -p PATHS [-i NAME] [-o DIR] [--source-root MARKER] [--import-root DIR]\n" ++
  "                 [--import-prefix PREFIX] [--overwrite] [--indent N] [--bare-enums]\n" ++
  "                 [--color auto|always|never] [-v]\n" ++
  "       search -p PATHS QUERY [-v]\n" ++
  "       dump -p PATHS -i NAME [-o DIR] [--source-root MARKER] [-v]\n"

/-- The end of a command: a failure is reported after all else. -/
def finish (r : Report) : Exit :=
  match r.failure with
  | none => { code := 0, stdout := r.out, stderr := r.transcript, disk := r.disk }
  | some e => {
      code := 1
      stdout := r.out
      stderr := r.transcript ++ "error: " ++ e.message ++ "\n"
      disk := r.disk }

def perform (task : Arguments.Task) (m : Model) (input : String) (disk : Disk) : Report :=
  match task with
  | .translate p =>
    match p.input with
    | some query => Command.batch p.options m query disk
    | none => Command.interactive p.options m input disk
  | .search _ query => { out := Command.search m query, disk }
  | .dump _ query options =>
    match Command.dump options m query with
    | .ok text => { out := text, disk }
    | .error e => { disk, failure := some e }

def classpath : Arguments.Task → List Path
  | .translate p => p.classpath
  | .search classpath _ => classpath
  | .dump classpath _ _ => classpath

def runTask (task : Arguments.Task) (input : String) (disk : Disk) : Exit :=
  match Command.loadModel disk (classpath task) with
  | .error e => finish { disk, failure := some e }
  | .ok m => finish (perform task m input disk)

def run (words : List String) (input : String) (disk : Disk) : Exit :=
  match Arguments.parse words with
  | .ok invocation => runTask invocation.task input disk
  | .error .helpRequested => { code := 0, stdout := usage, disk }
  | .error _ => { code := 2, stderr := usage, disk }

end Program

end TypeWeave
