import SyntaxLens.Node
import SyntaxLens.Span
/-!
# Outlines

An `Outline` is the tree that is shown beside a source text, with one node for every value of a
syntax tree. Its entries are fixed when it is built from a tree; the spans of the source text and
the marks of nodes out of order are found later.

The path of a node leads to it from the root by field names and indices, such as
`body[0].args.args[1]`; the path of the root is empty.
-/

namespace SyntaxLens

/-- The kind of value that a node of an outline stands for. -/
inductive NodeKind
  | composite
  | sequence
  | scalar
deriving DecidableEq

/-- What an outline shows of one value. -/
structure Entry where
  /-- The field name or the indexed label by which the parent knows the node. -/
  label : String
  typeName : String
  /-- The text of a scalar, empty for all others. -/
  valueText : String
  path : String
  kind : NodeKind
  /-- The place where the value itself is known to start. -/
  position : Option LineCol
deriving DecidableEq

namespace Entry

/-- The label with the value of a scalar, or with the type of all others. -/
def caption (e : Entry) : String :=
  e.label ++ " = " ++
    match e.kind with
    | .scalar => e.valueText
    | .composite | .sequence => e.typeName

/-- Whether the node is shown with its children at first: bodies, modules and classes are. -/
def isInitiallyOpen (e : Entry) : Bool :=
  e.label = "body" || e.typeName = "Module" || e.typeName = "ClassDef"

end Entry

/-- A node of the tree shown beside a source text. -/
structure Outline where
  entry : Entry
  /-- The region of the source text, once it is found. -/
  span : Option Span
  /-- The span is inverted. -/
  outOfOrder : Bool
  children : List Outline

namespace Outline

/-- The path of a field of the node at a path. -/
def fieldPath (path name : String) : String :=
  if path = "" then name else path ++ "." ++ name

/-- A label or path with an index. -/
def indexed (s : String) (i : Nat) : String :=
  s ++ "[" ++ toString i ++ "]"

mutual

/-- The outline of a value with a label and a path. -/
def ofNode (label path : String) : Node → Outline
  | .composite typeName fields position =>
    ⟨⟨label, typeName, "", path, .composite, position⟩, none, false, ofFields path fields⟩
  | .sequence kind items =>
    ⟨⟨label, kind.typeName, "", path, .sequence, none⟩, none, false, ofItems label path 0 items⟩
  | .scalar value => ⟨⟨label, value.typeName, value.text, path, .scalar, none⟩, none, false, []⟩

def ofFields (path : String) : List (String × Node) → List Outline
  | [] => []
  | (name, value) :: fields => ofNode name (fieldPath path name) value :: ofFields path fields

/-- The outlines of the items of a sequence from index `i` on. -/
def ofItems (label path : String) (i : Nat) : List Node → List Outline
  | [] => []
  | item :: items =>
    ofNode (indexed label i) (indexed path i) item :: ofItems label path (i + 1) items

end

/-- The outline of a syntax tree whose root has the given label. -/
def ofTree (label : String) (tree : Node) : Outline :=
  ofNode label "" tree

mutual

/-- The nodes of an outline, each before its children. -/
def nodes : Outline → List Outline
  | ⟨entry, span, outOfOrder, children⟩ =>
    ⟨entry, span, outOfOrder, children⟩ :: nodesOf children

def nodesOf : List Outline → List Outline
  | [] => []
  | o :: os => o.nodes ++ nodesOf os

end

/-- The node at the end of a route of child indices. -/
def descend? (o : Outline) : List Nat → Option Outline
  | [] => some o
  | i :: route => o.children[i]?.bind fun child => child.descend? route

/-- The first node with a path. -/
def atPath? (o : Outline) (path : String) : Option Outline :=
  o.nodes.find? (·.entry.path = path)

/-- The number of nodes that are out of order. -/
def outOfOrderCount (o : Outline) : Nat :=
  o.nodes.countP (·.outOfOrder)

end Outline

end SyntaxLens
