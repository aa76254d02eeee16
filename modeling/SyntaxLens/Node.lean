import SyntaxLens.Position
import SyntaxLens.Scalar
/-!
# Syntax trees

A `Node` is a value of a syntax tree: a composite with a type and named fields in a fixed order,
a list or tuple of values, or a scalar.
-/

namespace SyntaxLens

inductive SequenceKind
  | list
  | tuple
deriving DecidableEq

def SequenceKind.typeName : SequenceKind → String
  | list => "list"
  | tuple => "tuple"

/-- A value of a syntax tree. -/
inductive Node
  /-- A typed value with named fields and, if it is known, the place where it starts. -/
  | composite (typeName : String) (fields : List (String × Node)) (position : Option LineCol)
  | sequence (kind : SequenceKind) (items : List Node)
  | scalar (value : Scalar)

namespace Node

instance : Inhabited Node := ⟨scalar .none⟩

def typeName : Node → String
  | composite typeName _ _ => typeName
  | sequence kind _ => kind.typeName
  | scalar value => value.typeName

/-- The fields of a composite in order. -/
def fields : Node → List (String × Node)
  | composite _ fields _ => fields
  | sequence _ _ | scalar _ => []

/-- The first field of a name. -/
def field? (n : Node) (name : String) : Option Node :=
  n.fields.lookup name

/-- The place where a composite starts, if it is known. -/
def position? : Node → Option LineCol
  | composite _ _ position => position
  | sequence _ _ | scalar _ => none

/-- A composite with one more field after the others. -/
def addField (n : Node) (name : String) (value : Node) : Node :=
  match n with
  | composite typeName fields position => composite typeName (fields ++ [(name, value)]) position
  | n => n

/-- A composite that starts at another place, or at an unknown one. -/
def setPosition (n : Node) (position : Option LineCol) : Node :=
  match n with
  | composite typeName fields _ => composite typeName fields position
  | n => n

end Node

end SyntaxLens
