import PathQuery.CommandLine

/-!
# Main — the program

What a command can ask for is looked at first: the file of the configuration and those that the
configuration names, and everything on the ways to them.  What is printed is then a function of the
arguments and of what was found.
-/

namespace PathQuery.CommandLine

/-- What an error of reading tells of a path; nothing if the walk to the path tells as much. -/
def entryOf : IO.Error → Option Entry
  | .noFileOrDirectory _ _ _ => none
  | .inappropriateType (some _) _ _ => none
  | .inappropriateType none _ _ => some .directory
  | .invalidArgument _ _ _ => none
  | .userError _ => some .bytes
  | e => some (.barred (toString e))

/-- Looks at what is at the end of a path. -/
def lookAt (path : String) : IO (Option Entry) := do
  try
    return some (.text (← IO.FS.readFile path))
  catch e =>
    return entryOf e

/-- Looks at everything on the way to a path. -/
def explore (files : Files) (path : String) : IO Files :=
  (Files.waysTo path).foldlM (fun files way => do
    match ← lookAt way with
    | some entry => return files.put way entry
    | none => return files) files

/-- Looks at the files that a command can ask for. -/
def findFiles (c : Command) : IO Files := do
  match c.configFile with
  | none => return .none
  | some path =>
    let files ← explore .none path
    match c.config files with
    | .error _ => return files
    | .ok config => (config.drivers.filterMap (·.2.path)).foldlM explore files

/-- Milliseconds as seconds with three decimal places. -/
def secondsOf (milliseconds : Nat) : String :=
  let places := toString (milliseconds % 1000)
  let zeros := String.ofList (List.replicate (3 - places.length) '0')
  s!"{milliseconds / 1000}.{zeros}{places}"

/-- The report of the arguments. -/
def report (arguments : List String) : IO Report := do
  match Command.ofArguments? arguments with
  | .error i => return .ofInterruption i
  | .ok c =>
    let c := { c with configFile := c.configFile.or (← IO.getEnv "NAVGRAPH_CONFIG") }
    let files ← findFiles c
    let started ← IO.monoMsNow
    let result ← IO.lazyPure fun _ => c.run files
    let ended ← IO.monoMsNow
    return .ofRun c (secondsOf (ended - started)) result

end PathQuery.CommandLine

/-- Prints the report of the arguments and ends with its code. -/
def main (arguments : List String) : IO UInt32 := do
  let report ← PathQuery.CommandLine.report arguments
  for line in report.lines do
    IO.println line
  IO.eprint report.complaint
  return report.code.toUInt32
