import Mathlib.Tactic.Common
import SyntaxLens.Outline.Lookup
import SyntaxLens.Proofs.Outline.Placement

/-!
# Labels of nodes

All that spans and selections depend on in the label of a node is whether it is detached. Outlines
are alike if they differ in nothing else than their entries, where these have the same positions
and are detached in both or in neither.
-/

namespace SyntaxLens

/-- The value that a route of indices leads to, through one sequence for each index. -/
def Node.item? : Node → List Nat → Option Node
  | v, [] => some v
  | .sequence _ items, i :: indices => items[i]?.bind (·.item? indices)
  | _, _ :: _ => none

namespace Outline

mutual

/-- Two outlines of one shape, alike in all that spans and selections depend on. -/
inductive Alike (detached : LabelSet) : Outline → Outline → Prop
  | node {entry entry' : Entry} {span : Option Span} {outOfOrder : Bool} {os os' : List Outline}
      (position : entry.position = entry'.position)
      (label : entry.label ∈ detached ↔ entry'.label ∈ detached)
      (children : AllAlike detached os os') :
      Alike detached ⟨entry, span, outOfOrder, os⟩ ⟨entry', span, outOfOrder, os'⟩

/-- As many outlines in both lists, alike one by one. -/
inductive AllAlike (detached : LabelSet) : List Outline → List Outline → Prop
  | nil : AllAlike detached [] []
  | cons {o o' : Outline} {os os' : List Outline} (head : Alike detached o o')
      (tail : AllAlike detached os os') : AllAlike detached (o :: os) (o' :: os')

end

variable {detached : LabelSet}

mutual

lemma alike_refl (detached : LabelSet) : ∀ o : Outline, Alike detached o o
  | ⟨_, _, _, children⟩ => .node rfl Iff.rfl (allAlike_refl detached children)

lemma allAlike_refl (detached : LabelSet) : ∀ os : List Outline, AllAlike detached os os
  | [] => .nil
  | o :: os => .cons (alike_refl detached o) (allAlike_refl detached os)

end

mutual

lemma Alike.first?_eq {o o' : Outline} :
    Alike detached o o' → o.first? detached = o'.first? detached
  | .node position label children => by
    rw [first?, first?, position, children.firstAmong?_eq]
    simp only [label]

lemma AllAlike.firstAmong?_eq {os os' : List Outline} :
    AllAlike detached os os' → firstAmong? detached os = firstAmong? detached os'
  | .nil => rfl
  | .cons head tail => by rw [firstAmong?, firstAmong?, head.first?_eq, tail.firstAmong?_eq]

end

variable {o o' : Outline} {os os' : List Outline}

lemma Alike.spanIn_eq (h : Alike detached o o') (s : Surroundings) :
    o.spanIn detached s = o'.spanIn detached s := by
  unfold spanIn startIn
  rw [h.first?_eq]

lemma AllAlike.nextBefore_eq (h : AllAlike detached os os') (next : Position)
    {label label' : String} (hlabel : label ∈ detached ↔ label' ∈ detached) :
    nextBefore detached next label os = nextBefore detached next label' os' := by
  unfold nextBefore startAmong
  rw [← firstAmong?_eq_findSome?, ← firstAmong?_eq_findSome?, h.firstAmong?_eq]
  simp only [hlabel]

mutual

theorem alike_place {o o' : Outline} (s : Surroundings) :
    Alike detached o o' → Alike detached (o.place detached s) (o'.place detached s)
  | .node position label children => by
    rw [place, place, (Alike.node position label children).spanIn_eq s]
    exact .node position label (allAlike_placeAll s.next label _ children)

lemma allAlike_placeAll {os os' : List Outline} (next : Position) {label label' : String}
    (hlabel : label ∈ detached ↔ label' ∈ detached) (parentSpan : Span) :
    AllAlike detached os os' → AllAlike detached (placeAll detached next label parentSpan os)
      (placeAll detached next label' parentSpan os')
  | .nil => .nil
  | .cons head tail => by
    rw [placeAll, placeAll, tail.nextBefore_eq next hlabel]
    exact .cons (alike_place _ head) (allAlike_placeAll next hlabel parentSpan tail)

end

theorem Alike.resolve (h : Alike detached o o') (documentEnd : Position) :
    Alike detached (o.resolve detached documentEnd) (o'.resolve detached documentEnd) := by
  rw [resolve_eq_place, resolve_eq_place]
  exact alike_place (.ofDocument documentEnd) h

lemma AllAlike.getElem? (h : AllAlike detached os os') (i : Nat) :
    Option.Rel (Alike detached) os[i]? os'[i]? := by
  induction i generalizing os os' with
  | zero =>
    cases h with
    | nil => exact .none
    | cons head tail => exact .some head
  | succ i ih =>
    cases h with
    | nil => exact .none
    | cons head tail => exact ih tail

/-- A route leads to nodes that are alike, or nowhere in both outlines. -/
theorem Alike.descend? (h : Alike detached o o') (route : List Nat) :
    Option.Rel (Alike detached) (o.descend? route) (o'.descend? route) := by
  induction route generalizing o o' with
  | nil => exact .some h
  | cons i route ih =>
    cases h with
    | @node _ _ _ _ os os' _ _ children =>
      rw [descend?_cons, descend?_cons]
      have hchild : Option.Rel (Alike detached) os[i]? os'[i]? := children.getElem? i
      generalize os[i]? = c, os'[i]? = c' at hchild
      cases hchild with
      | none => exact .none
      | some h => exact ih h

lemma Alike.map_descend?_eq {β : Type} {f : Outline → β} (h : Alike detached o o')
    (hf : ∀ n n', Alike detached n n' → f n = f n') (route : List Nat) :
    (o.descend? route).map f = (o'.descend? route).map f := by
  have hroute := h.descend? route
  generalize o.descend? route = n, o'.descend? route = n' at hroute
  cases hroute with
  | none => rfl
  | some hn => exact congrArg some (hf _ _ hn)

lemma Alike.matches_iff (h : Alike detached o o') (cursor : Position) :
    o.Matches cursor ↔ o'.Matches cursor := by
  cases h with
  | node position _ _ =>
    unfold Matches
    rw [position]

mutual

theorem Alike.routeTo?_eq {o o' : Outline} (cursor : Position) :
    Alike detached o o' → o.routeTo? cursor = o'.routeTo? cursor
  | .node position label children => by
    rw [routeTo?, routeTo?, children.routeAmong?_eq cursor 0,
      if_congr ((Alike.node position label children).matches_iff cursor) rfl rfl]

lemma AllAlike.routeAmong?_eq {os os' : List Outline} (cursor : Position) (i : Nat) :
    AllAlike detached os os' → routeAmong? cursor i os = routeAmong? cursor i os'
  | .nil => rfl
  | .cons head tail => by
    rw [routeAmong?, routeAmong?, head.routeTo?_eq cursor, tail.routeAmong?_eq cursor (i + 1)]

end

theorem Alike.map_at?_eq {β : Type} {f : Outline → β} (h : Alike detached o o')
    (hf : ∀ n n', Alike detached n n' → f n = f n') (cursor : Position) :
    (o.at? cursor).map f = (o'.at? cursor).map f := by
  unfold at?
  rw [h.routeTo?_eq cursor]
  cases o'.routeTo? cursor with
  | none => rfl
  | some route => exact h.map_descend?_eq hf route

mutual

/-- Two labels give a value outlines that are alike, if neither the value itself nor an item that
gets its label from that of the value is detached under only one of them. -/
theorem alike_ofNode {label label' : String} (path : String) : ∀ v : Node,
    (∀ indices : List Nat, (v.item? indices).isSome →
      (indices.foldl indexed label ∈ detached ↔ indices.foldl indexed label' ∈ detached)) →
    Alike detached (ofNode label path v) (ofNode label' path v)
  | .composite _ fields _, h => .node rfl (h [] rfl) (allAlike_refl detached (ofFields path fields))
  | .sequence _ items, h => by
    refine .node rfl (h [] rfl) (allAlike_ofItems path 0 items fun k w hw indices hsome => ?_)
    rw [Nat.zero_add]
    refine h (k :: indices) ?_
    rw [Node.item?, hw]
    exact hsome
  | .scalar _, h => .node rfl (h [] rfl) .nil

lemma allAlike_ofItems {label label' : String} (path : String) (i : Nat) : ∀ items : List Node,
    (∀ k w, items[k]? = some w → ∀ indices : List Nat, (w.item? indices).isSome →
      (indices.foldl indexed (indexed label (i + k)) ∈ detached ↔
        indices.foldl indexed (indexed label' (i + k)) ∈ detached)) →
    AllAlike detached (ofItems label path i items) (ofItems label' path i items)
  | [], _ => .nil
  | v :: items, h => by
    refine .cons (alike_ofNode (indexed path i) v (h 0 v rfl)) ?_
    refine allAlike_ofItems path (i + 1) items fun k w hw => ?_
    rw [Nat.add_assoc, Nat.add_comm 1 k]
    exact h (k + 1) w hw

end

end Outline

end SyntaxLens
