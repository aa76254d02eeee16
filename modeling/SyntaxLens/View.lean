import SyntaxLens.Outline
/-!
# Views of an outline

What a table of an outline shows: the columns of its rows, and which nodes are shown with their
children.
-/

namespace SyntaxLens

/-- A column of the table of an outline. -/
inductive Column
  /-- The caption, indented by the depth of the node. -/
  | node
  | path
  | field
  | type
  | value
  | position
  /-- The span, marked if the node is out of order. -/
  | highlight
deriving DecidableEq

namespace Column

def header : Column → String
  | node => "Node"
  | path => "Path"
  | field => "Field"
  | type => "Class"
  | value => "Value"
  | position => "Line : Col"
  | highlight => "Highlight"

/-- The name of a column in a configuration. -/
def name : Column → String
  | node => "node"
  | path => "path"
  | field => "field"
  | type => "class"
  | value => "value"
  | position => "position"
  | highlight => "highlight"

def all : List Column :=
  [node, path, field, type, value, position, highlight]

def ofName? (name : String) : Option Column :=
  all.find? (·.name = name)

end Column

/-- Which nodes are shown with their children. -/
inductive Expansion
  | all
  /-- Bodies, modules and classes. -/
  | initial
deriving DecidableEq

namespace Expansion

/-- The name of an expansion in a configuration. -/
def name : Expansion → String
  | all => "all"
  | initial => "default"

def ofName? (name : String) : Option Expansion :=
  [all, initial].find? (·.name = name)

/-- Whether a node is shown with its children. -/
def opens (x : Expansion) (e : Entry) : Bool :=
  match x with
  | all => true
  | initial => e.isInitiallyOpen

end Expansion

/-- The columns of a table and the nodes that it shows. -/
structure View where
  columns : List Column
  expansion : Expansion
deriving DecidableEq

/-- The view that is used unless another one is given. -/
instance : Inhabited View := ⟨⟨[.node, .position, .highlight], .all⟩⟩

end SyntaxLens
