import Mathlib.Tactic.Common
import SyntaxLens.Proofs.Outline.Lookup

/-!
# The first match in post-order

In post-order the children of a node come from left to right and then the node itself. Of the nodes
that match a cursor, the search for a route finds the first one in this order. So it fails only if no
node matches, and nothing below the node that it finds does.
-/

namespace SyntaxLens.Outline

/-- The node at the first route comes before the one at the second in post-order: it is below that
one, or the routes part and the first one takes the earlier child. -/
def Precedes : List Nat → List Nat → Prop
  | [], _ => False
  | _ :: _, [] => True
  | i :: r, j :: s => i < j ∨ i = j ∧ Precedes r s

instance decidablePrecedes : ∀ r s, Decidable (Precedes r s)
  | [], _ => .isFalse id
  | _ :: _, [] => .isTrue trivial
  | i :: r, j :: s =>
    haveI := decidablePrecedes r s
    inferInstanceAs (Decidable (i < j ∨ i = j ∧ Precedes r s))

/-- The routes of an outline with two children that have two and one of their own. -/
example : [[0, 0], [0, 1], [0], [1, 0], [1], []].Pairwise Precedes := by decide

/-- The route leads to a node that matches, and no other node that matches comes before it in
post-order. -/
structure IsFirstMatch (o : Outline) (cursor : Position) (route : List Nat) (n : Outline) : Prop where
  descends : o.descend? route = some n
  isMatch : n.Matches cursor
  first : ∀ r m, o.descend? r = some m → m.Matches cursor → r = route ∨ Precedes route r

variable {cursor : Position} {o n : Outline} {r s route : List Nat}

lemma Precedes.asymm (h : Precedes r s) : ¬Precedes s r := by
  induction r generalizing s with
  | nil => exact h.elim
  | cons i r ih =>
    cases s with
    | nil => exact id
    | cons j s =>
      rintro (hji | ⟨rfl, hsr⟩)
      · rcases h with hij | ⟨rfl, -⟩
        · exact Nat.lt_asymm hij hji
        · exact Nat.lt_irrefl _ hji
      · rcases h with hlt | ⟨-, hrs⟩
        · exact Nat.lt_irrefl _ hlt
        · exact ih hrs hsr

lemma not_precedes_self (r : List Nat) : ¬Precedes r r :=
  fun h => h.asymm h

lemma precedes_append_iff (stem r s : List Nat) :
    Precedes (stem ++ r) (stem ++ s) ↔ Precedes r s := by
  induction stem with
  | nil => rfl
  | cons i stem ih =>
    rw [List.cons_append, List.cons_append, Precedes, ih]
    exact ⟨fun h => (h.resolve_left (Nat.lt_irrefl i)).2, fun h => .inr ⟨rfl, h⟩⟩

lemma precedes_below (route : List Nat) (i : Nat) (rest : List Nat) :
    Precedes (route ++ i :: rest) route := by
  have h : Precedes (route ++ i :: rest) (route ++ []) := (precedes_append_iff route _ _).mpr trivial
  rwa [List.append_nil] at h

mutual

/-- Where a node matches, the search finds its route or one that comes before it. -/
theorem exists_routeTo? (cursor : Position) : ∀ (o : Outline) (r : List Nat) (m : Outline),
    o.descend? r = some m → m.Matches cursor →
      ∃ route, o.routeTo? cursor = some route ∧ (r = route ∨ Precedes route r)
  | ⟨entry, span, outOfOrder, children⟩, [], m, hm, hmatch => by
    cases hm
    rw [routeTo?, if_pos hmatch]
    cases hroute : routeAmong? cursor 0 children with
    | none => exact ⟨[], rfl, .inl rfl⟩
    | some route =>
      obtain ⟨j, rest, -, -, rfl, -⟩ := matches_of_routeAmong? cursor 0 children route hroute
      exact ⟨_, rfl, .inr trivial⟩
  | ⟨entry, span, outOfOrder, children⟩, j :: r, m, hm, hmatch => by
    obtain ⟨child, hchild, hm⟩ := Option.bind_eq_some_iff.mp hm
    obtain ⟨route, hroute, hle⟩ := exists_routeAmong? cursor 0 children j r child m hchild hm hmatch
    rw [Nat.zero_add] at hle
    refine ⟨route, ?_, hle⟩
    rw [routeTo?, hroute, Option.some_or]

lemma exists_routeAmong? (cursor : Position) : ∀ (i : Nat) (os : List Outline) (j : Nat)
    (r : List Nat) (child m : Outline), os[j]? = some child → child.descend? r = some m →
      m.Matches cursor → ∃ route, routeAmong? cursor i os = some route ∧
        ((i + j) :: r = route ∨ Precedes route ((i + j) :: r))
  | _, [], _, _, _, _, hchild, _, _ => by
    cases hchild
  | i, o :: os, 0, r, child, m, hchild, hm, hmatch => by
    cases hchild
    obtain ⟨route, hroute, hle⟩ := exists_routeTo? cursor o r m hm hmatch
    refine ⟨i :: route, ?_, ?_⟩
    · rw [routeAmong?, hroute, Option.map_some, Option.some_or]
    · rcases hle with rfl | hlt
      · exact .inl rfl
      · exact .inr (.inr ⟨rfl, hlt⟩)
  | i, o :: os, j + 1, r, child, m, hchild, hm, hmatch => by
    cases hroute : o.routeTo? cursor with
    | some route =>
      -- an earlier sibling has a match
      refine ⟨i :: route, ?_, .inr (.inl (Nat.lt_add_of_pos_right (Nat.succ_pos j)))⟩
      rw [routeAmong?, hroute, Option.map_some, Option.some_or]
    | none =>
      obtain ⟨route, hlater, hle⟩ :=
        exists_routeAmong? cursor (i + 1) os j r child m hchild hm hmatch
      rw [Nat.add_assoc, Nat.add_comm 1 j] at hle
      refine ⟨route, ?_, hle⟩
      rw [routeAmong?, hroute, Option.map_none, Option.none_or, hlater]

end

lemma routeTo?_eq_none_iff : o.routeTo? cursor = none ↔ ∀ n ∈ o.nodes, ¬n.Matches cursor := by
  constructor
  · intro hnone n hn hmatch
    obtain ⟨r, hr⟩ := mem_nodes_iff_descend?.mp hn
    obtain ⟨route, hroute, -⟩ := exists_routeTo? cursor o r n hr hmatch
    rw [hnone] at hroute
    cases hroute
  · intro h
    cases hroute : o.routeTo? cursor with
    | none => rfl
    | some route =>
      obtain ⟨n, hn, hmatch⟩ := matches_of_routeTo? cursor o route hroute
      exact absurd hmatch (h n (mem_nodes_of_descend? hn))

lemma isFirstMatch_of_routeTo? (h : o.routeTo? cursor = some route) :
    ∃ n, o.IsFirstMatch cursor route n := by
  obtain ⟨n, hn, hmatch⟩ := matches_of_routeTo? cursor o route h
  refine ⟨n, hn, hmatch, fun r m hm hmatch => ?_⟩
  obtain ⟨route', hroute', hle⟩ := exists_routeTo? cursor o r m hm hmatch
  rw [h] at hroute'
  cases hroute'
  exact hle

lemma IsFirstMatch.routeTo?_eq (h : o.IsFirstMatch cursor route n) :
    o.routeTo? cursor = some route := by
  obtain ⟨route', hroute', hle⟩ := exists_routeTo? cursor o route n h.descends h.isMatch
  rcases hle with rfl | hlt
  · exact hroute'
  · obtain ⟨m, hm, hmatch⟩ := matches_of_routeTo? cursor o route' hroute'
    rcases h.first route' m hm hmatch with rfl | hlt'
    · exact hroute'
    · exact absurd hlt hlt'.asymm

lemma routeTo?_ne_of_precedes {m : Outline} (hm : o.descend? r = some m) (hmatch : m.Matches cursor)
    (hlt : Precedes r route) : o.routeTo? cursor ≠ some route := by
  intro hroute
  obtain ⟨route', hroute', hle⟩ := exists_routeTo? cursor o r m hm hmatch
  rw [hroute] at hroute'
  cases hroute'
  rcases hle with rfl | hlt'
  · exact not_precedes_self r hlt
  · exact hlt.asymm hlt'

lemma IsFirstMatch.not_matches_below (h : o.IsFirstMatch cursor route n) {m : Outline}
    (hm : m ∈ nodesOf n.children) : ¬m.Matches cursor := by
  intro hmatch
  obtain ⟨c, hc, hmc⟩ := mem_nodesOf.mp hm
  obtain ⟨i, hi⟩ := List.mem_iff_getElem?.mp hc
  obtain ⟨rest, hrest⟩ := mem_nodes_iff_descend?.mp hmc
  have hbelow : o.descend? (route ++ i :: rest) = some m := by
    rw [descend?_below h.descends, hi]
    exact hrest
  exact routeTo?_ne_of_precedes hbelow hmatch (precedes_below route i rest) h.routeTo?_eq

/-- The search for a route fails just if no node of the outline matches the cursor. Otherwise it
gives the route to the first node in post-order that matches. That node is the one that the cursor
selects, and none below it matches. -/
theorem routeTo?_finds_first (o : Outline) (cursor : Position) :
    (o.routeTo? cursor = none ↔ ∀ n ∈ o.nodes, ¬n.Matches cursor) ∧
    (∀ route, o.routeTo? cursor = some route ↔ ∃ n, o.IsFirstMatch cursor route n) ∧
    ∀ n, o.at? cursor = some n ↔ ∃ route, o.IsFirstMatch cursor route n ∧
      ∀ m ∈ nodesOf n.children, ¬m.Matches cursor := by
  refine ⟨routeTo?_eq_none_iff, fun route => ?_, fun n => ?_⟩
  · exact ⟨isFirstMatch_of_routeTo?, fun ⟨n, hn⟩ => hn.routeTo?_eq⟩
  · constructor
    · intro hat
      obtain ⟨route, hroute, hn⟩ := Option.bind_eq_some_iff.mp hat
      obtain ⟨m, hfirst⟩ := isFirstMatch_of_routeTo? hroute
      rw [hfirst.descends] at hn
      cases hn
      exact ⟨route, hfirst, fun m hm => hfirst.not_matches_below hm⟩
    · rintro ⟨route, hfirst, -⟩
      rw [at?, hfirst.routeTo?_eq, Option.bind_some, hfirst.descends]

end SyntaxLens.Outline
