import Mathlib.Tactic.Common
import SyntaxLens.Outline.Lookup
import SyntaxLens.Proofs.Outline.Routes

namespace SyntaxLens.Outline

mutual

lemma matches_of_routeTo? (cursor : Position) : ∀ (o : Outline) (route : List Nat),
    o.routeTo? cursor = some route → ∃ n, o.descend? route = some n ∧ n.Matches cursor
  | ⟨entry, span, outOfOrder, children⟩, route, h => by
    rw [routeTo?, Option.or_eq_some_iff] at h
    rcases h with h | ⟨-, h⟩
    · obtain ⟨j, rest, child, n, rfl, hchild, hn, hmatch⟩ :=
        matches_of_routeAmong? cursor 0 children route h
      refine ⟨n, ?_, hmatch⟩
      rw [Nat.zero_add, descend?_cons, hchild]
      exact hn
    · by_cases hself : Matches ⟨entry, span, outOfOrder, children⟩ cursor
      · rw [if_pos hself] at h
        cases h
        exact ⟨_, rfl, hself⟩
      · rw [if_neg hself] at h
        cases h

lemma matches_of_routeAmong? (cursor : Position) : ∀ (i : Nat) (os : List Outline)
    (route : List Nat), routeAmong? cursor i os = some route →
      ∃ j rest child n, route = (i + j) :: rest ∧ os[j]? = some child ∧
        child.descend? rest = some n ∧ n.Matches cursor
  | _, [], _, h => by
    rw [routeAmong?] at h
    cases h
  | i, o :: os, route, h => by
    rw [routeAmong?, Option.or_eq_some_iff] at h
    rcases h with h | ⟨-, h⟩
    · obtain ⟨rest, hrest, rfl⟩ := Option.map_eq_some_iff.mp h
      obtain ⟨n, hn, hmatch⟩ := matches_of_routeTo? cursor o rest hrest
      exact ⟨0, rest, o, n, rfl, rfl, hn, hmatch⟩
    · obtain ⟨j, rest, child, n, rfl, hchild, hn, hmatch⟩ :=
        matches_of_routeAmong? cursor (i + 1) os route h
      exact ⟨j + 1, rest, child, n, by rw [Nat.add_assoc, Nat.add_comm 1 j], hchild, hn, hmatch⟩

end

theorem matches_of_at? {o n : Outline} {cursor : Position} (h : o.at? cursor = some n) :
    n ∈ o.nodes ∧ n.Matches cursor := by
  obtain ⟨route, hroute, hn⟩ := Option.bind_eq_some_iff.mp h
  obtain ⟨m, hm, hmatch⟩ := matches_of_routeTo? cursor o route hroute
  rw [hm] at hn
  cases hn
  exact ⟨mem_nodes_of_descend? hm, hmatch⟩

/-- The route to the first match in siblings, which stand after others below a node, leads to what
the first of them that selects anything selects. -/
lemma descend?_of_routeAmong? (cursor : Position) (entry : Entry) (span : Option Span)
    (outOfOrder : Bool) (before os : List Outline) :
    ((routeAmong? cursor before.length os).bind
        (descend? ⟨entry, span, outOfOrder, before ++ os⟩)) = os.findSome? (·.at? cursor) := by
  induction os generalizing before with
  | nil => rfl
  | cons o os ih =>
    have hchild : (before ++ o :: os)[before.length]? = some o := by simp
    rw [routeAmong?, List.findSome?_cons, at?]
    cases hroute : o.routeTo? cursor with
    | some route =>
      obtain ⟨n, hn, -⟩ := matches_of_routeTo? cursor o route hroute
      simp only [Option.map_some, Option.some_or, Option.bind_some, descend?_cons, hchild, hn]
    | none =>
      have hrest := ih (before ++ [o])
      rw [List.append_assoc, List.singleton_append, List.length_append, List.length_singleton]
        at hrest
      simpa using hrest

/-- A node selects what the first of its children selects that selects anything, or else itself. -/
theorem at?_eq (o : Outline) (cursor : Position) : o.at? cursor =
    (o.children.findSome? (·.at? cursor)).or (if o.Matches cursor then some o else none) := by
  obtain ⟨entry, span, outOfOrder, children⟩ := o
  have hamong := descend?_of_routeAmong? cursor entry span outOfOrder [] children
  rw [List.nil_append, List.length_nil] at hamong
  rw [← hamong, at?, routeTo?]
  cases hroute : routeAmong? cursor 0 children with
  | some route =>
    obtain ⟨j, rest, child, n, rfl, hchild, hn, -⟩ :=
      matches_of_routeAmong? cursor 0 children route hroute
    have hbelow : descend? ⟨entry, span, outOfOrder, children⟩ ((0 + j) :: rest) = some n := by
      rw [Nat.zero_add, descend?_cons, hchild]
      exact hn
    rw [Option.some_or, Option.bind_some, hbelow, Option.some_or]
  | none =>
    rw [Option.none_or, Option.bind_none, Option.none_or]
    by_cases hself : Matches ⟨entry, span, outOfOrder, children⟩ cursor
    · rw [if_pos hself, if_pos hself]
      rfl
    · rw [if_neg hself, if_neg hself]
      rfl

lemma matches_iff_of_span {o : Outline} {cursor : Position} {span : Span}
    (hspan : o.span = some span) :
    o.Matches cursor ↔ o.entry.position.isSome ∧ span.ContainsStrictly cursor := by
  rw [Matches, hspan, Option.any_some, decide_eq_true_iff]

lemma Matches.exists_span {o : Outline} {cursor : Position} (h : o.Matches cursor) :
    ∃ span, o.span = some span ∧ span.ContainsStrictly cursor := by
  obtain ⟨span, hspan, hcontains⟩ := (Option.any_eq_true _ _).mp h.2
  exact ⟨span, hspan, of_decide_eq_true hcontains⟩

end SyntaxLens.Outline
