import TypeWeave.Closure
import TypeWeave.Disk.Write
import TypeWeave.Java.Scan
import TypeWeave.Query

/-!
# Commands

What the commands have in common: loading the model of a classpath, the output layout, the ways a
command can fail, and what it leaves behind.
-/

namespace TypeWeave

inductive CommandError where
  | emptyClasspath
  | model (error : Java.ScanError)
  | write (error : WriteError)
  | seed (error : QueryError)
  | fault (cause : Fault)
  deriving Repr, DecidableEq

namespace CommandError

def message : CommandError → String
  | emptyClasspath => "classpath is empty: pass at least one source root with -p"
  | model error => error.message
  | write error => error.message
  | seed error => error.message
  | fault cause => cause.message

end CommandError

/-- What a command printed, what it wrote to the user it asked, the disk it leaves, and how it
failed if it did. -/
structure Report where
  out : String := ""
  transcript : String := ""
  disk : Disk
  failure : Option CommandError := none

/-- The report of one step and, unless it failed, of those after it, which start from its disk. -/
def Report.followedBy (first : Report) (rest : Disk → Report) : Report :=
  if first.failure.isSome then first
  else
    let later := rest first.disk
    { later with out := first.out ++ later.out, transcript := first.transcript ++ later.transcript }

namespace Command

def loadModel (disk : Disk) (classpath : List Path) : Except CommandError Model :=
  if classpath.isEmpty then .error .emptyClasspath
  else
    match Java.scanModel disk classpath with
    | .ok m => .ok m
    | .error e => .error (.model e)

def outputLayout (output : Option Path) (marker : Option String) : Option Layout :=
  output.map fun destination => { destination, marker }

end Command

end TypeWeave
