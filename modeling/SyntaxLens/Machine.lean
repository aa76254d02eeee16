import SyntaxLens.Arguments
import SyntaxLens.Disk
import SyntaxLens.Process
import SyntaxLens.Viewer
/-!
# Runs

A run takes the arguments of a command line, a disk and the path of the configuration file of the
user. It finds the configuration, loads the tree and opens the output, and only then looks up the
node that it is asked for, so an output file is emptied even if there is no such node.

What the programs of a machine do and which texts are configurations is not settled here: a
`Machine` gives both, and a program may change the disk.
-/

namespace SyntaxLens

/-- What a run relies on: the programs that it can start and the reader of configurations. -/
structure Machine where
  /-- What a program leaves behind, or why it cannot be started, and the disk that it leaves. -/
  command : Disk → String → List String → Except String Process.Result × Disk
  /-- The options that a text holds, unless it is malformed. -/
  options? : String → Option Config

def readFile (disk : Disk) (path : String) : Except Failure String :=
  (disk.readText path).mapError .file

/-- The path of the configuration file of a directory. -/
def localConfigPath : String := "astview/config.toml"

/-- Refuses options that no run can work with. -/
def validate (config : Config) : Except Failure Config :=
  if config.command = [] then .error (.config .noProgram)
  else if config.view.columns = [] then .error (.config .noColumns)
  else .ok config

/-- The dump that a program has printed. -/
def printedDump (program : String) : Except String Process.Result → Except Failure String
  | .error reason => .error (.command (.cannotRun program reason))
  | .ok result =>
    if result.status.isSuccess then
      (Text.Utf8.decode result.stdout).mapError fun fault => .command (.notText fault)
    else
      let stderr := Text.trim (Text.Utf8.decodeLossy result.stderr).toList
      .error (.command (.failed program result.status (String.ofList stderr)))

/-- What arguments ask to write of a tree. -/
def output (config : Config) (arguments : Arguments) (t : SourceTree) : Except Failure String :=
  match arguments.cursor, arguments.select with
  | some cursor, _ =>
    .ok ((t.select? cursor).elim ("No node at " ++ cursor.text ++ "\n") t.selectionText)
  | none, some path => (t.node path).map t.selectionText
  | none, none =>
    match arguments.format with
    | .text => t.tableText config.view true none
    | .json => t.documentText .pretty none

/-- What a run leaves behind. -/
structure Outcome where
  stdout : String
  disk : Disk
  failure : Option Failure

def printText (disk : Disk) : Except Failure String → Outcome
  | .error e => ⟨"", disk, some e⟩
  | .ok s => ⟨s, disk, none⟩

/-- Writes a text, if there is one, to a file that is emptied first. -/
def writeFile (disk : Disk) (path : String) (text : Except Failure String) : Outcome :=
  match disk.target path with
  | .error e => ⟨"", disk, some (.file e)⟩
  | .ok location =>
    match text with
    | .error e => ⟨"", disk.put location [], some e⟩
    | .ok s => ⟨"", disk.put location (Text.Utf8.encode s), none⟩

namespace Machine

/-- The options of a configuration file. -/
def loadConfigFile (m : Machine) (disk : Disk) (path : String) : Except Failure Config :=
  if disk.contains path then
    (readFile disk path).bind fun text =>
      match m.options? text with
      | none => .error (.config .malformedToml)
      | some config => validate config
  else .error (.config (.missingFile path))

/-- The options from the given file, or else from the first configuration file that exists, that of
the directory or that of the user, or else the default ones. -/
def loadConfig (m : Machine) (disk : Disk) (userConfigPath explicit : Option String) :
    Except Failure Config :=
  match explicit with
  | some path => m.loadConfigFile disk path
  | none =>
    match (localConfigPath :: userConfigPath.toList).find? disk.contains with
    | some path => m.loadConfigFile disk path
    | none => .ok default

/-- What the configured command prints for a source file, and the disk that it leaves. -/
def runParser (m : Machine) (config : Config) (disk : Disk) (path : String) :
    Except Failure String × Disk :=
  match config.command with
  | [] => (.error (.config .emptyCommand), disk)
  | program :: arguments =>
    let (result, disk) := m.command disk program (arguments ++ [config.mode.name, path])
    (printedDump program result, disk)

/-- The tree of a source file, from what the configured command prints for it. -/
def loadFile (m : Machine) (config : Config) (disk : Disk) (path : String) :
    Except Failure SourceTree × Disk :=
  match readFile disk path with
  | .error e => (.error e, disk)
  | .ok source =>
    let (dump, disk) := m.runParser config disk path
    (dump.bind fun dump => load config source dump path, disk)

def loadTree (m : Machine) (disk : Disk) (config : Config) (arguments : Arguments) :
    Except Failure SourceTree × Disk :=
  match arguments.dump with
  | none => m.loadFile config disk arguments.input
  | some dumpPath =>
    let loaded := (readFile disk arguments.input).bind fun source =>
      (readFile disk dumpPath).bind fun dump => load config source dump arguments.input
    (loaded, disk)

/-- A run with the given options. -/
def runWith (m : Machine) (disk : Disk) (config : Config) (arguments : Arguments) : Outcome :=
  match m.loadTree disk config arguments with
  | (.error e, disk) => ⟨"", disk, some e⟩
  | (.ok t, disk) =>
    let text := output config arguments t
    match arguments.output with
    | some path => writeFile disk path text
    | none => printText disk text

def run (m : Machine) (disk : Disk) (userConfigPath : Option String) (arguments : Arguments) :
    Outcome :=
  match m.loadConfig disk userConfigPath arguments.config with
  | .error e => ⟨"", disk, some e⟩
  | .ok config => m.runWith disk config arguments

end Machine

end SyntaxLens
