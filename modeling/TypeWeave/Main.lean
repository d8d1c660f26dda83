import TypeWeave.Program

/-!
# Command line

The program on the real file system. The parts of it that a run can touch are read into a disk
beforehand, and what the run changed is written back afterwards.
-/

namespace TypeWeave.CommandLine

def pathText : Place → String
  | [] => "."
  | "/" :: names => "/" ++ Text.join "/" names
  | names => Text.join "/" names

/-- The place a path leads to, as far as its text tells. -/
def placeOf (p : Path) : Place :=
  p.components.foldl (fun place c =>
    match c with
    | .root => ["/"]
    | .current => place
    | .parent => place.up
    | .normal name => place.down name) Place.workingDirectory

partial def readEntry (deep : Bool) (disk : Disk) (place : Place) : IO Disk := do
  try
    let path ← IO.FS.realPath (pathText place)
    if ← path.isDir then
      let disk := if (disk.node? place).isSome then disk else disk.put place .directory
      if !deep then return disk
      let mut disk := disk
      for entry in ← path.readDir do
        disk ← readEntry true disk (place.down entry.fileName)
      return disk
    else if ← path.pathExists then
      return disk.put place (.file (← IO.FS.readBinFile path))
    else return disk
  catch _ => return disk

def readPath (disk : Disk) (p : Path) : IO Disk := do
  let place := placeOf p
  let mut disk := disk
  for n in List.range place.length do
    disk ← readEntry false disk (place.take n)
  readEntry true disk place

def readDisk (task : Arguments.Task) : IO Disk := do
  let output :=
    match task with
    | .translate p => p.output.toList
    | _ => []
  let mut disk := Disk.empty
  for p in Program.classpath task ++ output do
    disk ← readPath disk p
  return disk

def writeDisk (before after : Disk) : IO Unit := do
  for (place, node) in after.entries do
    match node, before.node? place with
    | .directory, none => IO.FS.createDirAll (pathText place)
    | .file content, some (.file old) =>
      if old != content then IO.FS.writeBinFile (pathText place) content
    | .file content, _ => IO.FS.writeBinFile (pathText place) content
    | _, _ => pure ()

def printMore (stream : IO.FS.Stream) (before after : String) : IO Unit := do
  stream.putStr (String.ofList (after.toList.drop before.toList.length))
  stream.flush

/-- Runs a dialogue line by line. Each report extends the one for the lines before. -/
partial def converse (options : Command.EmitOptions) (m : Model) (disk : Disk) (input : String)
    (last : Exit) : IO Exit := do
  let report := Command.interactive options m input disk
  let exit := Program.finish report
  printMore (← IO.getStdout) last.stdout exit.stdout
  printMore (← IO.getStderr) last.stderr exit.stderr
  if report.failure.isSome then return exit
  let line ← (← IO.getStdin).getLine
  if line.isEmpty then return exit
  converse options m disk (input ++ line) exit

def runTask (task : Arguments.Task) (disk : Disk) : IO Exit := do
  match task, Command.loadModel disk (Program.classpath task) with
  | .translate p, .ok m =>
    if p.input.isNone then return ← converse p.options m disk "" { code := 0, disk }
  | _, _ => pure ()
  let exit := Program.runTask task "" disk
  printMore (← IO.getStdout) "" exit.stdout
  printMore (← IO.getStderr) "" exit.stderr
  return exit

end TypeWeave.CommandLine

open TypeWeave CommandLine in
def main (words : List String) : IO UInt32 := do
  match Arguments.parse words with
  | .ok invocation =>
    let disk ← readDisk invocation.task
    let exit ← runTask invocation.task disk
    writeDisk disk exit.disk
    return exit.code.toUInt32
  | .error _ =>
    let exit := Program.run words "" Disk.empty
    IO.print exit.stdout
    IO.eprint exit.stderr
    return exit.code.toUInt32
