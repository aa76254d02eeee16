import SyntaxLens.Config
import SyntaxLens.Dump.Reader
import SyntaxLens.Export.Document
import SyntaxLens.Export.Table
import SyntaxLens.Failure
import SyntaxLens.LineTable
import SyntaxLens.Outline.Lookup
import SyntaxLens.Outline.Resolve
/-!
# Loading and showing trees

A `SourceTree` is the outline of a dump whose spans are found in a source text. It gives the node at
a cursor or a path, the part of the text that a node covers, and the whole tree as text.
-/

namespace SyntaxLens

/-- An outline and the source text that its spans are found in. -/
structure SourceTree where
  source : LineTable
  root : Outline

namespace SourceTree

/-- The place after the last character of the source text. -/
def documentEnd (t : SourceTree) : LineCol :=
  t.source.endOfDocument

def select? (t : SourceTree) (cursor : LineCol) : Option Outline :=
  t.root.at? cursor

/-- The first node with a path. -/
def node (t : SourceTree) (path : String) : Except Failure Outline :=
  match t.root.atPath? path with
  | some o => .ok o
  | none => .error (.unknownPath path)

/-- The bytes of the source text that a node covers. -/
def highlight? (t : SourceTree) (o : Outline) : Option ByteSpan :=
  o.span.map t.source.range

/-- The part of the source text that a node covers. -/
def highlightText? (t : SourceTree) (o : Outline) : Option String :=
  o.span.map t.source.slice

end SourceTree

/-- Where the output of a tree goes: it may take only so many bytes. -/
def withinLimit (limit : Option Nat) (s : String) : Except Failure String :=
  if limit.all (s.utf8ByteSize ≤ ·) then .ok s else .error (.output .limitReached)

namespace SourceTree

def tableText (t : SourceTree) (view : View) (hasHeader : Bool) (limit : Option Nat) :
    Except Failure String :=
  if view.columns = [] then .error (.output .noColumns)
  else withinLimit limit (Export.table view hasHeader t.root)

def documentText (t : SourceTree) (layout : Json.Layout) (limit : Option Nat) :
    Except Failure String :=
  withinLimit limit (Export.document layout t.documentEnd t.root)

/-- A node with the part of the source text that it covers, which ends with a line feed. -/
def selectionText (t : SourceTree) (o : Outline) : String :=
  let position := o.entry.position.elim "" fun p => "position: " ++ p.text ++ "\n"
  let highlight := o.span.elim "" fun s =>
    "highlight: " ++ s.text ++ (if o.outOfOrder then " (out of order)" else "") ++ "\n"
  let source := (t.highlightText? o).elim "" fun s =>
    "---\n" ++ s ++ if s.endsWith "\n" then "" else "\n"
  o.entry.caption ++ "\n" ++ "path: " ++ o.entry.path ++ "\n" ++ position ++ highlight ++ source

end SourceTree

/-- The tree of a dump over a source text, its root with the given label. -/
def load (config : Config) (source dump label : String) : Except Failure SourceTree :=
  match Dump.read dump with
  | .error diagnostics => .error (.dump dump diagnostics)
  | .ok tree =>
    let table := LineTable.ofText source
    .ok ⟨table, (Outline.ofTree label tree).resolve config.detached (.loc table.endOfDocument)⟩

end SyntaxLens
