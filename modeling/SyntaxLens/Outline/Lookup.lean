import SyntaxLens.Outline
/-!
# Finding the node at a cursor

A cursor selects a node that has a position of its own and whose span strictly contains the
cursor. Children come before their parent and in order, so no node below the selected one matches.
-/

namespace SyntaxLens.Outline

/-- The node has a position of its own and its span strictly contains the cursor. -/
def Matches (o : Outline) (cursor : Position) : Prop :=
  o.entry.position.isSome ∧ o.span.any fun s => decide (s.ContainsStrictly cursor)

instance (o : Outline) (cursor : Position) : Decidable (o.Matches cursor) :=
  inferInstanceAs (Decidable (_ ∧ _))

mutual

/-- The route from a node to the first one that matches, each node after its children. -/
def routeTo? (cursor : Position) : Outline → Option (List Nat)
  | ⟨entry, span, outOfOrder, children⟩ =>
    (routeAmong? cursor 0 children).or
      (if Matches ⟨entry, span, outOfOrder, children⟩ cursor then some [] else none)

/-- The route to the first match in siblings that have indices from `i` on. -/
def routeAmong? (cursor : Position) (i : Nat) : List Outline → Option (List Nat)
  | [] => none
  | child :: children =>
    ((child.routeTo? cursor).map (i :: ·)).or (routeAmong? cursor (i + 1) children)

end

/-- The node that a cursor selects. -/
def at? (o : Outline) (cursor : Position) : Option Outline :=
  (o.routeTo? cursor).bind o.descend?

end SyntaxLens.Outline
