import SyntaxLens.Run
/-!
# The command line

The program reads the files that its arguments name into a `Disk`, runs on it, and then writes its
output. It ends with the code 1 after a failure and 2 after arguments that it refuses. It starts no
programs but those of `Machine.shell`.
-/

namespace SyntaxLens

/-- The starts of a path that end before a slash, and the path itself. -/
def pathStarts (path : String) : List String :=
  let names := Disk.namesOf path
  (List.range names.length).map fun n => "/".intercalate (names.take (n + 1))

/-- Whether a path leads to something. -/
def isThere (path : String) : IO Bool := do
  try
    discard <| IO.FS.realPath path
    return true
  catch _ => return false

/-- A disk with one more access that is refused. -/
def refuse (disk : Disk) (access : Access) (location : Location) : Disk :=
  { disk with refused := (location, access) :: disk.refused }

/-- Adds what is at a path to a disk. A directory holds a file that no path leads to. -/
def readPath (disk : Disk) (path : String) : IO Disk := do
  match disk.locate path with
  | .error _ => return disk
  | .ok location =>
    if disk.isDirectory location then return disk
    try
      let content ← IO.FS.readBinFile path
      return disk.put location content.toList
    catch
      | .noFileOrDirectory .. => return disk
      | .permissionDenied .. =>
        if ← isThere (path ++ "/.") then
          return refuse (disk.put (location ++ ["."]) []) .read location
        else if ← isThere path then return refuse (disk.put location []) .read location
        else return refuse disk .search (Disk.parent location)
      | _ => return disk.put (location ++ ["."]) []

/-- The disk that holds the files at the given paths. -/
def readDisk (paths : List String) : IO Disk :=
  (paths.flatMap pathStarts).foldlM readPath ⟨[], []⟩

/-- The path of the configuration file of the user. -/
def findUserConfig : IO (Option String) := do
  match ← IO.getEnv "XDG_CONFIG_HOME", ← IO.getEnv "HOME" with
  | some directory, _ => return some (directory ++ "/astview/config.toml")
  | none, some home => return some (home ++ "/.config/astview/config.toml")
  | none, none => return none

/-- The levels of messages, from none to all. -/
def logLevels : List String :=
  ["off", "error", "warn", "info", "debug", "trace"]

/-- What is told about a report. -/
def Report.text (r : Report) : String :=
  let code := r.code.elim "" fun c => c ++ ": "
  let labels := (r.labels.getD []).map fun l => s!"  at {l.span.start}..{l.span.stop}: {l.text}\n"
  code ++ r.message ++ "\n" ++ String.join labels ++ r.help.elim "" fun h => "  help: " ++ h ++ "\n"

/-- Runs the program on the disk of the machine. -/
def runOnMachine (arguments : Arguments) : IO UInt32 := do
  let level := arguments.logLevel.toLower
  unless logLevels.contains level do
    IO.eprintln s!"Invalid log level: {arguments.logLevel}. Using 'warn' instead."
  let user ← findUserConfig
  let named := [arguments.dump, arguments.config, arguments.output, user].filterMap id
  let disk ← readDisk (arguments.input :: (arguments.input ++ ".dump") :: localConfigPath :: named)
  let outcome := run disk user arguments
  (← IO.getStdout).putStr outcome.stdout
  if let some path := arguments.output then
    if let .ok location := disk.target path then
      let content := outcome.disk.file? location
      if content ≠ disk.file? location then
        IO.FS.writeBinFile path ⟨(content.getD []).toArray⟩
  match outcome.failure with
  | none => return 0
  | some failure =>
    if level ≠ "off" then failure.reports.forM fun r => IO.eprint r.text
    return 1

end SyntaxLens

/-- Runs the program on the arguments of its command line. -/
def main (arguments : List String) : IO UInt32 := do
  match SyntaxLens.Arguments.read arguments with
  | .ok a => SyntaxLens.runOnMachine a
  | .error .help =>
    IO.println "Usage: astview [OPTIONS] <INPUT>"
    return 0
  | .error .version =>
    IO.println "astview 0.1.0"
    return 0
  | .error _ =>
    IO.eprintln "Usage: astview [OPTIONS] <INPUT>"
    return 2
