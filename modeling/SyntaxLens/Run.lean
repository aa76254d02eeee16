import SyntaxLens.Machine
import SyntaxLens.Shell.Script
import SyntaxLens.Toml.Options
/-!
# Runs without a machine

A machine to try runs on where there is no other: it has a small shell with the few programs that a
parser command needs to print a dump that is already there, none of which changes the disk, and a
reader of TOML. Nothing is shown about it; what holds of runs holds on any machine.
-/

namespace SyntaxLens

/-- The shell and the reader of TOML as a machine. -/
def Machine.shell : Machine where
  command disk program arguments :=
    ((Shell.run disk program arguments).mapError FileError.message, disk)
  options? := Toml.options?

def runParser (config : Config) (disk : Disk) (path : String) : Except Failure String :=
  (Machine.shell.runParser config disk path).1

def loadFile (config : Config) (disk : Disk) (path : String) : Except Failure SourceTree :=
  (Machine.shell.loadFile config disk path).1

def run (disk : Disk) (userConfigPath : Option String) (arguments : Arguments) : Outcome :=
  Machine.shell.run disk userConfigPath arguments

end SyntaxLens
