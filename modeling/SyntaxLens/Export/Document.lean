import SyntaxLens.Json
import SyntaxLens.Outline
/-!
# Outlines as JSON documents

The document of an outline holds the end of the source text, the number of nodes out of order and
every node with all that is known of it.
-/

namespace SyntaxLens.Export

def placeJson (p : LineCol) : Json :=
  .object [("line", .number p.line.toNat), ("column", .number p.column.toNat)]

/-- A position: a word for the ends of the document, an object for a place. -/
def positionJson : Position → Json
  | .start => .string "start"
  | .loc p => .object [("at", placeJson p)]
  | .stop => .string "end"

def spanJson (s : Span) : Json :=
  .object [("start", positionJson s.start), ("end", positionJson s.stop)]

def kindText : NodeKind → String
  | .composite => "composite"
  | .sequence => "sequence"
  | .scalar => "scalar"

mutual

/-- A node and all below it. -/
def outlineJson : Outline → Json
  | ⟨entry, span, outOfOrder, children⟩ =>
    .object
      [("field_label", .string entry.label), ("type_name", .string entry.typeName),
        ("value_text", .string entry.valueText), ("path", .string entry.path),
        ("kind", .string (kindText entry.kind)),
        ("own_position", entry.position.elim .null placeJson),
        ("span", span.elim .null spanJson), ("out_of_order", .bool outOfOrder),
        ("children", .array (outlinesJson children))]

/-- Siblings and all below them. -/
def outlinesJson : List Outline → List Json
  | [] => []
  | child :: children => outlineJson child :: outlinesJson children

end

/-- The document of an outline in a text that ends at the given place. -/
def documentJson (documentEnd : LineCol) (o : Outline) : Json :=
  .object
    [("end_of_document", placeJson documentEnd), ("out_of_order", .number o.outOfOrderCount),
      ("root", outlineJson o)]

/-- The text of the document of an outline, closed by a line feed. -/
def document (layout : Json.Layout) (documentEnd : LineCol) (o : Outline) : String :=
  (documentJson documentEnd o).text layout ++ "\n"

end SyntaxLens.Export
