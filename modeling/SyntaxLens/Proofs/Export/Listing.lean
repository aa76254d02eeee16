import Mathlib.Data.List.Pairwise
import Mathlib.Tactic.Common
import SyntaxLens.Export.Table
import SyntaxLens.Proofs.Outline.Routes

/-!
# The nodes that a table lists

A node is shown if all nodes above it are shown with their children. A table lists each of these
nodes once, in the order of their routes, which puts a node before its children and these from left
to right.
-/

namespace SyntaxLens.Export

/-- The route leads to the node, and all nodes above it are shown with their children. -/
structure IsShown (x : Expansion) (o : Outline) (route : List Nat) (n : Outline) : Prop where
  descends : o.descend? route = some n
  opens : ∀ above i below a, route = above ++ i :: below → o.descend? above = some a →
    x.opens a.entry = true

mutual

/-- The nodes that are shown of an outline, with their routes, each before its children. -/
def shown (x : Expansion) : Outline → List (List Nat × Outline)
  | ⟨entry, span, outOfOrder, children⟩ =>
    ([], ⟨entry, span, outOfOrder, children⟩) ::
      if x.opens entry then shownAmong x 0 children else []

/-- The nodes that are shown of siblings with indices from `i` on. -/
def shownAmong (x : Expansion) (i : Nat) : List Outline → List (List Nat × Outline)
  | [] => []
  | child :: children =>
    (shown x child).map (fun p => (i :: p.1, p.2)) ++ shownAmong x (i + 1) children

end

variable {x : Expansion} {o n : Outline} {route : List Nat}

lemma isShown_nil : IsShown x o [] n ↔ n = o := by
  refine ⟨fun h => (Option.some.inj h.descends).symm, ?_⟩
  rintro rfl
  refine ⟨rfl, fun above i below a h => ?_⟩
  exact absurd h.symm (by simp)

lemma isShown_cons {i : Nat} : IsShown x o (i :: route) n ↔
    x.opens o.entry = true ∧ ∃ child, o.children[i]? = some child ∧ IsShown x child route n := by
  constructor
  · intro h
    obtain ⟨child, hchild, hn⟩ := Option.bind_eq_some_iff.mp h.descends
    refine ⟨h.opens [] i route o rfl rfl, child, hchild, hn, fun above j below a hroute ha => ?_⟩
    refine h.opens (i :: above) j below a (by rw [hroute]; rfl) ?_
    rw [Outline.descend?_cons, hchild]
    exact ha
  · rintro ⟨ho, child, hchild, h⟩
    refine ⟨?_, fun above j below a hroute ha => ?_⟩
    · rw [Outline.descend?_cons, hchild]
      exact h.descends
    · cases above with
      | nil =>
        cases ha
        exact ho
      | cons k above =>
        obtain ⟨rfl, hbelow⟩ := List.cons.inj hroute
        rw [Outline.descend?_cons, hchild] at ha
        exact h.opens above j below a hbelow ha

mutual

theorem mem_shown (x : Expansion) : ∀ (o : Outline) (route : List Nat) (n : Outline),
    (route, n) ∈ shown x o ↔ IsShown x o route n
  | ⟨entry, span, outOfOrder, children⟩, [], n => by
    have hbelow : ([], n) ∉ if x.opens entry then shownAmong x 0 children else [] := by
      split
      · intro h
        obtain ⟨j, r, child, heq, -⟩ := (mem_shownAmong x children 0 [] n).mp h
        cases heq
      · exact List.not_mem_nil
    rw [shown, List.mem_cons, or_iff_left hbelow, isShown_nil, Prod.mk.injEq,
      and_iff_right rfl]
  | ⟨entry, span, outOfOrder, children⟩, i :: route, n => by
    rw [shown, List.mem_cons, isShown_cons]
    by_cases ho : x.opens entry = true
    · rw [if_pos ho, mem_shownAmong x children 0, or_iff_right (by simp), and_iff_right ho]
      constructor
      · rintro ⟨j, r, child, heq, hchild, hn⟩
        rw [Nat.zero_add] at heq
        cases heq
        exact ⟨child, hchild, hn⟩
      · rintro ⟨child, hchild, hn⟩
        exact ⟨i, route, child, by rw [Nat.zero_add], hchild, hn⟩
    · rw [if_neg ho]
      simp [ho]

lemma mem_shownAmong (x : Expansion) : ∀ (os : List Outline) (i : Nat) (route : List Nat)
    (n : Outline), (route, n) ∈ shownAmong x i os ↔
      ∃ j r child, route = (i + j) :: r ∧ os[j]? = some child ∧ IsShown x child r n
  | [], i, route, n => by
    simp [shownAmong]
  | o :: os, i, route, n => by
    rw [shownAmong, List.mem_append, mem_shownAmong x os (i + 1), List.mem_map]
    constructor
    · rintro (⟨⟨r, m⟩, hmem, heq⟩ | ⟨j, r, child, heq, hchild, hn⟩)
      · cases heq
        exact ⟨0, r, o, rfl, rfl, (mem_shown x o r m).mp hmem⟩
      · refine ⟨j + 1, r, child, ?_, hchild, hn⟩
        rw [heq, Nat.add_right_comm, Nat.add_assoc]
    · rintro ⟨j, r, child, rfl, hchild, hn⟩
      cases j with
      | zero =>
        cases hchild
        exact .inl ⟨(r, n), (mem_shown x o r n).mpr hn, rfl⟩
      | succ j =>
        refine .inr ⟨j, r, child, ?_, hchild, hn⟩
        rw [Nat.add_right_comm, Nat.add_assoc]

end

mutual

theorem pairwise_shown (x : Expansion) : ∀ o : Outline,
    (shown x o).Pairwise fun p q => p.1 < q.1
  | ⟨entry, span, outOfOrder, children⟩ => by
    rw [shown, List.pairwise_cons]
    split
    · refine ⟨?_, pairwise_shownAmong x children 0⟩
      rintro ⟨route, n⟩ hmem
      obtain ⟨j, r, child, rfl, -⟩ := (mem_shownAmong x children 0 route n).mp hmem
      exact List.Lex.nil
    · exact ⟨fun _ h => absurd h List.not_mem_nil, .nil⟩

lemma pairwise_shownAmong (x : Expansion) : ∀ (os : List Outline) (i : Nat),
    (shownAmong x i os).Pairwise fun p q => p.1 < q.1
  | [], _ => .nil
  | o :: os, i => by
    rw [shownAmong, List.pairwise_append]
    refine ⟨?_, pairwise_shownAmong x os (i + 1), ?_⟩
    · rw [List.pairwise_map]
      exact (pairwise_shown x o).imp fun h => List.Lex.cons h
    · rintro p hp ⟨route, n⟩ hq
      obtain ⟨q, -, rfl⟩ := List.mem_map.mp hp
      obtain ⟨j, r, child, rfl, -⟩ := (mem_shownAmong x os (i + 1) route n).mp hq
      exact List.Lex.rel (by omega)

end

mutual

/-- A table has a row for every node of the listing, which is as deep as its route is long. -/
theorem rows_eq (view : View) (depth : Nat) : ∀ o : Outline, rows view depth o =
    (shown view.expansion o).map fun p => view.columns.map (cell (depth + p.1.length) p.2)
  | ⟨entry, span, outOfOrder, children⟩ => by
    rw [rows, shown, List.map_cons]
    split
    · rw [rowsOf_eq view depth 0]
      rfl
    · rfl

lemma rowsOf_eq (view : View) (depth i : Nat) : ∀ os : List Outline,
    rowsOf view (depth + 1) os = (shownAmong view.expansion i os).map fun p =>
      view.columns.map (cell (depth + p.1.length) p.2)
  | [] => rfl
  | o :: os => by
    rw [rowsOf, shownAmong, List.map_append, List.map_map, rows_eq view (depth + 1) o,
      rowsOf_eq view depth (i + 1) os]
    congr 1
    refine List.map_congr_left fun p _ => ?_
    simp only [Function.comp_apply, List.length_cons, Nat.add_assoc, Nat.add_comm 1]

end

mutual

lemma map_shown_all : ∀ o : Outline, (shown .all o).map (·.2) = o.nodes
  | ⟨entry, span, outOfOrder, children⟩ => by
    rw [shown, List.map_cons, Outline.nodes]
    exact congrArg _ (map_shownAmong_all children 0)

lemma map_shownAmong_all : ∀ (os : List Outline) (i : Nat),
    (shownAmong .all i os).map (·.2) = Outline.nodesOf os
  | [], _ => rfl
  | o :: os, i => by
    rw [shownAmong, List.map_append, List.map_map, Outline.nodesOf, ← map_shown_all o,
      ← map_shownAmong_all os (i + 1)]
    rfl

end

end SyntaxLens.Export
