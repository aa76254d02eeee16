import SyntaxLens.View
import SyntaxLens.Text.Blank
/-!
# Outlines as tables

The table of an outline has a row for every node that is shown, each before its children. All
cells of a column are padded to the width of its longest one, which is counted in characters, two
spaces separate the columns, and no line ends in blanks.
-/

namespace SyntaxLens.Export

/-- The text of a node's span, with a mark if the node is out of order. -/
def highlightText (o : Outline) : String :=
  match o.span with
  | some span => if o.outOfOrder then span.text ++ " !" else span.text
  | none => ""

def cell (depth : Nat) (o : Outline) : Column → String
  | .node => String.ofList (List.replicate (2 * depth) ' ') ++ o.entry.caption
  | .path => o.entry.path
  | .field => o.entry.label
  | .type => o.entry.typeName
  | .value => o.entry.valueText
  | .position => o.entry.position.elim "" LineCol.text
  | .highlight => highlightText o

mutual

/-- The rows of a node at a depth and of all below it that is shown. -/
def rows (view : View) (depth : Nat) : Outline → List (List String)
  | ⟨entry, span, outOfOrder, children⟩ =>
    view.columns.map (cell depth ⟨entry, span, outOfOrder, children⟩) ::
      if view.expansion.opens entry then rowsOf view (depth + 1) children else []

def rowsOf (view : View) (depth : Nat) : List Outline → List (List String)
  | [] => []
  | child :: children => rows view depth child ++ rowsOf view depth children

end

/-- The greatest number of characters in each column. -/
def widths (count : Nat) (table : List (List String)) : List Nat :=
  table.foldl (List.zipWith fun w s => max w s.length) (List.replicate count 0)

/-- A cell padded with spaces to a width. No width is too great, as in version 1.86 of the
toolchain. From version 1.87 on its formatting ends a run at a width above 65535. -/
def pad (s : String) (width : Nat) : List Char :=
  s.toList ++ List.replicate (width - s.length) ' '

/-- The cells of a row, padded and joined. -/
def joinedCells (ws : List Nat) (row : List String) : List Char :=
  List.intercalate [' ', ' '] (List.zipWith pad row ws)

/-- A row as a line without its line feed. -/
def line (ws : List Nat) (row : List String) : String :=
  String.ofList (Text.trimEnd (joinedCells ws row))

/-- The rows of a table, with a row of headings if it has one. -/
def tableRows (view : View) (hasHeader : Bool) (o : Outline) : List (List String) :=
  (if hasHeader then [view.columns.map Column.header] else []) ++ rows view 0 o

def table (view : View) (hasHeader : Bool) (o : Outline) : String :=
  let all := tableRows view hasHeader o
  let ws := widths view.columns.length all
  String.join (all.map fun row => line ws row ++ "\n")

end SyntaxLens.Export
