import Mathlib.Tactic.Common
import SyntaxLens.Proofs.Outline.Following
import SyntaxLens.Proofs.Outline.Lookup

/-!
# Spans of selected nodes

A selected node has a position of its own and its span starts there, unless what follows the node
has the same position. Such a node covers nothing by itself and has the span of its parent. It is then
selected by cursors before it, and in the place of a later sibling that does cover the cursor.
-/

namespace SyntaxLens.Outline

variable {detached : LabelSet} {documentEnd cursor : Position} {o n : Outline}

/-- The span of a selected node goes from its own position to what follows it, or it is that of its
parent if these are the same position. So it starts at the own position, except where it is taken
from a parent that starts elsewhere. -/
theorem span_of_selected (h : (o.resolve detached documentEnd).at? cursor = some n) :
    ∃ route p span, (o.resolve detached documentEnd).routeTo? cursor = some route ∧
      n.entry.position = some p ∧ n.span = some span ∧
      let s := Surroundings.along detached (.ofDocument documentEnd) o route
      (span = if .loc p = s.next then s.parentSpan else ⟨.loc p, s.next⟩) ∧
        (span.start = .loc p ↔ .loc p ≠ s.next ∨ s.parentSpan.start = .loc p) := by
  obtain ⟨route, hroute, hn⟩ := Option.bind_eq_some_iff.mp h
  obtain ⟨-, hmatch⟩ := matches_of_at? h
  obtain ⟨p, hp⟩ := Option.isSome_iff_exists.mp hmatch.1
  set s := Surroundings.along detached (.ofDocument documentEnd) o route with hs
  have hspan : n.span = some (if .loc p = s.next then s.parentSpan else ⟨.loc p, s.next⟩) := by
    rw [resolve_eq_place, descend?_place] at hn
    obtain ⟨m, -, rfl⟩ := Option.map_eq_some_iff.mp hn
    rw [place_entry] at hp
    rw [place_span, ← hs, spanIn_of_first? (first?_of_position hp)]
  refine ⟨route, p, _, hroute, hp, hspan, rfl, ?_⟩
  by_cases hempty : .loc p = s.next
  · rw [if_pos hempty]
    exact ⟨.inr, fun hstart => hstart.resolve_left fun hne => hne hempty⟩
  · rw [if_neg hempty]
    exact ⟨fun _ => .inl hempty, fun _ => rfl⟩

/-- The cursor is in the last of three arguments. The first one starts where the second does, has the
span of all of them and is selected. -/
theorem span_of_selected_argument :
    let name (column : UInt32) : Node := .composite "Name" [] (some ⟨1, column⟩)
    let o := ofTree "tree" (.composite "Call"
      [("func", name 0), ("args", .sequence .list [name 2, name 2, name 5])] (some ⟨1, 0⟩))
    let r := o.resolve .detached (.loc ⟨1, 9⟩)
    ∃ n, r.at? (.loc ⟨1, 7⟩) = some n ∧
      ∃ route p span, r.routeTo? (.loc ⟨1, 7⟩) = some route ∧
        n.entry.position = some p ∧ n.span = some span ∧
        let s := Surroundings.along .detached (.ofDocument (.loc ⟨1, 9⟩)) o route
        (span = if .loc p = s.next then s.parentSpan else ⟨.loc p, s.next⟩) ∧
          (span.start = .loc p ↔ .loc p ≠ s.next ∨ s.parentSpan.start = .loc p) := by
  intro name o r
  have hat : (r.at? (.loc ⟨1, 7⟩)).isSome := by decide
  obtain ⟨n, hn⟩ := Option.isSome_iff_exists.mp hat
  exact ⟨n, hn, span_of_selected hn⟩

/-- Two fields start together in the second line. A cursor in the third line, which only the later
one covers by itself, selects the earlier one, whose span is that of the whole and starts in the
first line. -/
theorem selected_has_parent_span :
    let o := ofTree "tree" (.composite "Module"
      [("a", .composite "A" [] (some ⟨2, 0⟩)), ("b", .composite "B" [] (some ⟨2, 0⟩))]
      (some ⟨1, 0⟩))
    let r := o.resolve .detached (.loc ⟨4, 0⟩)
    ∃ n, r.at? (.loc ⟨3, 0⟩) = some n ∧ n.entry.path = "a" ∧
      n.entry.position = some ⟨2, 0⟩ ∧ n.span = some ⟨.loc ⟨1, 0⟩, .loc ⟨4, 0⟩⟩ := by
  intro o r
  refine ⟨⟨⟨"a", "A", "", "a", .composite, some ⟨2, 0⟩⟩, some ⟨.loc ⟨1, 0⟩, .loc ⟨4, 0⟩⟩,
    false, []⟩, ?_, rfl, rfl, rfl⟩
  cbv

end SyntaxLens.Outline
