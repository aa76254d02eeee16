import SyntaxLens.LabelSet
import SyntaxLens.Outline
/-!
# Spans of an outline

A node covers the source text from its start up to the start of what follows it. Its start is its
own position or else that of its first part that has one, and what follows it is the next sibling
with a start, or else what follows its parent. `seed` finds both in one walk from right to left.

The children of a detached field do not give their parent a start, and none of them ends where
its sibling starts. A node whose start equals its end covers nothing by itself and takes the span
of its parent (`fill`); the root takes the whole document.
-/

namespace SyntaxLens

namespace Outline

mutual

/-- Finds the spans of a node and of all below it, from the position that follows it. Also gives
the start of the node, or the position that follows it if the node has no start. -/
def seed (detached : LabelSet) (next : Position) : Outline → Outline × Position
  | ⟨entry, _, _, children⟩ =>
    let (children, inner) := seedAll detached (entry.label ∉ detached) next children
    let first := entry.position.elim inner .loc
    (⟨entry, if first = next then none else some ⟨first, next⟩, next < first, children⟩, first)

/-- Finds the spans of siblings, the last one first. Each sibling that has a start ends the ones
before it, if `adopt` holds. -/
def seedAll (detached : LabelSet) (adopt : Bool) (next : Position) :
    List Outline → List Outline × Position
  | [] => ([], next)
  | child :: children =>
    let (children, next) := seedAll detached adopt next children
    let (child, first) := seed detached next child
    (child :: children, if adopt then first else next)

end

mutual

/-- Gives every node without a span the one of its parent. -/
def fill (inherited : Span) : Outline → Outline
  | ⟨entry, none, _, children⟩ =>
    ⟨entry, some inherited, inherited.IsInverted, fillAll inherited children⟩
  | ⟨entry, some span, outOfOrder, children⟩ =>
    ⟨entry, some span, outOfOrder, fillAll span children⟩

/-- Gives every node without a span in several outlines the one of its parent. -/
def fillAll (inherited : Span) : List Outline → List Outline
  | [] => []
  | child :: children => child.fill inherited :: fillAll inherited children

end

/-- Finds the spans of all nodes in a document that ends at the given position. -/
def resolve (detached : LabelSet) (documentEnd : Position) (o : Outline) : Outline :=
  (o.seed detached documentEnd).1.fill ⟨.start, documentEnd⟩

end Outline

end SyntaxLens
