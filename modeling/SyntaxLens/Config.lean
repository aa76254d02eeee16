import SyntaxLens.LabelSet
import SyntaxLens.View
/-!
# Configurations

A `Config` names the command that prints the dump of a source file, the labels of detached fields
and the view of a tree.
-/

namespace SyntaxLens

/-- What a source file holds: statements, an expression or an interactive statement. -/
inductive SourceMode
  | exec
  | eval
  | single
deriving DecidableEq

namespace SourceMode

/-- The name of a mode, which the parser command gets as an argument. -/
def name : SourceMode → String
  | exec => "exec"
  | eval => "eval"
  | single => "single"

def ofName? (name : String) : Option SourceMode :=
  [exec, eval, single].find? (·.name = name)

end SourceMode

structure Config where
  /-- The program that prints a dump and its first arguments. -/
  command : List String
  mode : SourceMode
  detached : LabelSet
  view : View
deriving DecidableEq

namespace Config

/-- The script of the default command. It takes the mode and the path of the source file. -/
def dumpScript : String :=
  "import ast, sys\n" ++
  "mode, path = sys.argv[1], sys.argv[2]\n" ++
  "with open(path, encoding='utf-8') as source:\n" ++
  "    tree = ast.parse(source.read(), filename=path, mode=mode)\n" ++
  "print(ast.dump(tree, include_attributes=True))"

/-- The options that are used unless others are given. -/
instance : Inhabited Config :=
  ⟨⟨["python3", "-c", dumpScript], .exec, .detached, default⟩⟩

end Config

end SyntaxLens
