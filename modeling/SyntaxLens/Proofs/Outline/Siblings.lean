import Mathlib.Tactic.Common
import SyntaxLens.Proofs.Outline.PostOrder
import SyntaxLens.Proofs.Outline.SelectedSpan

/-!
# Siblings in order

Siblings with increasing positions tile the text from the first of them on, unless their parent is
detached. Below a detached node they all go on to what follows the parent. So each of them covers
those after it, and no cursor selects any but the first.
-/

namespace SyntaxLens.Outline

variable {detached : LabelSet} {next : Position} {o n : Outline} {ps : List LineCol}

/-- The children of a detached node all end at what follows the node. -/
theorem spans_placeAll_of_mem {label : String} (hl : label ∈ detached) (parentSpan : Span)
    {os : List Outline} (hps : os.map (·.entry.position) = ps.map some)
    (hnext : ∀ p ∈ ps, .loc p < next) :
    (placeAll detached next label parentSpan os).map (fun c => (c.entry.position, c.span)) =
      ps.map fun p => (some p, some ⟨.loc p, next⟩) := by
  induction os generalizing ps with
  | nil =>
    obtain rfl : ps = [] := by simpa using hps.symm
    rfl
  | cons o os ih =>
    obtain ⟨p, ps, rfl, hp, hrest⟩ := List.map_eq_cons_iff.mp hps.symm
    have hbefore : nextBefore detached next label os = next := if_pos hl
    have hlater : ∀ q ∈ ps, .loc q < next := fun q hq => hnext q (List.mem_cons_of_mem p hq)
    rw [placeAll, List.map_cons, List.map_cons, ih hrest.symm hlater, hbefore, place_entry,
      show o.entry.position = some p from hp.symm,
      span_place_of_lt (first?_of_position hp.symm) (hnext p List.mem_cons_self)]

/-- Of spans that all have the same end, only a single one tiles the text. -/
lemma spansBetween_eq_iff (hnext : ∀ p ∈ ps, .loc p < next) :
    (ps.map fun p => (⟨.loc p, next⟩ : Span)) = spansBetween ps next ↔ ps.length ≤ 1 := by
  match ps with
  | [] => simp [spansBetween]
  | [p] => simp [spansBetween]
  | p :: q :: ps =>
    have hq : Position.loc q < next := hnext q (List.mem_cons_of_mem p List.mem_cons_self)
    constructor
    · intro h
      rw [spansBetween, List.map_cons, List.cons.injEq, Span.mk.injEq] at h
      exact absurd h.1.2.symm (ne_of_lt hq)
    · intro h
      simp at h

section SameEnd

variable {m : Outline} (hspans : m.children.map (fun c => (c.entry.position, c.span)) =
  ps.map fun p => (some p, some ⟨.loc p, next⟩))
include hspans

lemma map_span_children :
    m.children.map (·.span) = (ps.map fun p => (⟨.loc p, next⟩ : Span)).map some := by
  have hsnd := congrArg (List.map Prod.snd) hspans
  rw [List.map_map, List.map_map] at hsnd
  rw [List.map_map]
  exact hsnd

lemma span_of_child {i : Nat} {c : Outline} (hc : m.children[i]? = some c) :
    ∃ p, ps[i]? = some p ∧ c.entry.position = some p ∧ c.span = some ⟨.loc p, next⟩ := by
  have hat := congrArg (·[i]?) hspans
  simp only [List.getElem?_map, hc, Option.map_some] at hat
  obtain ⟨p, hp, heq⟩ := Option.map_eq_some_iff.mp hat.symm
  rw [Prod.mk.injEq] at heq
  exact ⟨p, hp, heq.1.symm, heq.2.symm⟩

lemma matches_earlier_child (hlt : ps.IsChain (· < ·)) {i k : Nat} (hik : i < k) {c d : Outline}
    (hc : m.children[i]? = some c) (hd : m.children[k]? = some d) {cursor : Position}
    (hmatch : d.Matches cursor) : c.Matches cursor := by
  obtain ⟨p, hp, hposition, hcspan⟩ := span_of_child hspans hc
  obtain ⟨q, hq, -, hdspan⟩ := span_of_child hspans hd
  have hpq : p < q := by
    obtain ⟨hi, rfl⟩ := List.getElem?_eq_some_iff.mp hp
    obtain ⟨hk, rfl⟩ := List.getElem?_eq_some_iff.mp hq
    exact List.pairwise_iff_getElem.mp (List.isChain_iff_pairwise.mp hlt) i k hi hk hik
  obtain ⟨-, hstart, hstop⟩ := (matches_iff_of_span hdspan).mp hmatch
  refine (matches_iff_of_span hcspan).mpr ⟨by rw [hposition, Option.isSome_some], ?_, hstop⟩
  exact lt_trans (Position.loc_lt_loc.mpr hpq) hstart

theorem routeTo?_ne_later_child (hlt : ps.IsChain (· < ·)) {r : Outline} {route : List Nat}
    (hm : r.descend? route = some m) {k : Nat} (hk : 0 < k) (cursor : Position) :
    r.routeTo? cursor ≠ some (route ++ [k]) := by
  intro hroute
  have hchild (i : Nat) : r.descend? (route ++ [i]) = m.children[i]? := by
    rw [descend?_below hm]
    exact Option.bind_fun_some _
  obtain ⟨d, hd, hmatch⟩ := matches_of_routeTo? cursor r _ hroute
  rw [hchild] at hd
  have hlength : 0 < m.children.length :=
    Nat.lt_trans hk (List.getElem?_eq_some_iff.mp hd).1
  have hc : m.children[0]? = some m.children[0] := List.getElem?_eq_getElem hlength
  have hfirst := matches_earlier_child hspans hlt hk hc hd hmatch
  have hbefore : Precedes (route ++ [0]) (route ++ [k]) :=
    (precedes_append_iff route _ _).mpr (.inl hk)
  exact routeTo?_ne_of_precedes ((hchild 0).trans hc) hfirst hbefore hroute

end SameEnd

/-- Let the children of a node have positions that increase and are before what follows the node.
Then each of them ends where the next one starts, and the last one at what follows the node, unless
the node is detached and has several children. If it is detached, they all end at what follows the
node, and no cursor selects one of them but the first. -/
theorem spans_of_children_in_order (detached : LabelSet) (documentEnd : Position)
    {route : List Nat} (hn : o.descend? route = some n)
    (hps : n.children.map (·.entry.position) = ps.map some) (hlt : ps.IsChain (· < ·))
    (hnext : ∀ p ∈ ps,
      .loc p < (Surroundings.along detached (.ofDocument documentEnd) o route).next) :
    let next := (Surroundings.along detached (.ofDocument documentEnd) o route).next
    let r := o.resolve detached documentEnd
    ∃ m, r.descend? route = some m ∧
      (m.children.map (·.span) = (spansBetween ps next).map some ↔
        n.entry.label ∉ detached ∨ ps.length ≤ 1) ∧
      (n.entry.label ∈ detached →
        m.children.map (fun c => (c.entry.position, c.span)) =
            ps.map (fun p => (some p, some ⟨.loc p, next⟩)) ∧
          ∀ k, 0 < k → ∀ cursor, r.routeTo? cursor ≠ some (route ++ [k])) := by
  intro next r
  set s := Surroundings.along detached (.ofDocument documentEnd) o route with hs
  set m := n.place detached s with hplace
  have hm : r.descend? route = some m := by
    rw [show r = _ from resolve_eq_place _ _ _, descend?_place, hn, Option.map_some]
  refine ⟨m, hm, ?_⟩
  by_cases hl : n.entry.label ∈ detached
  · have hspans : m.children.map (fun c => (c.entry.position, c.span)) =
        ps.map fun p => (some p, some ⟨.loc p, next⟩) := by
      rw [hplace, place_children]
      exact spans_placeAll_of_mem hl _ hps hnext
    refine ⟨?_, fun _ => ⟨hspans, fun k hk => routeTo?_ne_later_child hspans hlt hm hk⟩⟩
    rw [map_span_children hspans, List.map_inj_right fun _ _ => Option.some.inj, spansBetween_eq_iff hnext]
    exact ⟨.inr, fun h => h.resolve_left fun hnot => hnot hl⟩
  · refine ⟨⟨fun _ => .inl hl, fun _ => ?_⟩, fun hmem => absurd hmem hl⟩
    rw [hplace, place_children]
    exact spans_placeAll_of_lt hl _ hps hlt hnext

/-- A function with a body and two decorators. -/
theorem spans_of_children_in_order_decorators :
    let name (line : UInt32) : Node := .composite "Name" [] (some ⟨line, 1⟩)
    let o := ofTree "tree" (.composite "FunctionDef"
      [("body", .sequence .list [.composite "Pass" [] (some ⟨4, 4⟩)]),
        ("decorator_list", .sequence .list [name 1, name 2])] (some ⟨3, 0⟩))
    let next := (Surroundings.along .detached (.ofDocument (.loc ⟨5, 0⟩)) o [1]).next
    let r := o.resolve .detached (.loc ⟨5, 0⟩)
    let ps : List LineCol := [⟨1, 1⟩, ⟨2, 1⟩]
    ∃ n, o.descend? [1] = some n ∧ n.children.map (·.entry.position) = ps.map some ∧
      ps.IsChain (· < ·) ∧ (∀ p ∈ ps, .loc p < next) ∧
      ∃ m, r.descend? [1] = some m ∧
        (m.children.map (·.span) = (spansBetween ps next).map some ↔
          n.entry.label ∉ LabelSet.detached ∨ ps.length ≤ 1) ∧
        (n.entry.label ∈ LabelSet.detached →
          m.children.map (fun c => (c.entry.position, c.span)) =
              ps.map (fun p => (some p, some ⟨.loc p, next⟩)) ∧
            ∀ k, 0 < k → ∀ cursor, r.routeTo? cursor ≠ some ([1] ++ [k])) := by
  intro name o next r ps
  let n : Outline := ofNode "decorator_list" "decorator_list" (.sequence .list [name 1, name 2])
  have hn : o.descend? [1] = some n := by rfl
  have hps : n.children.map (·.entry.position) = ps.map some := by rfl
  have hlt : ps.IsChain (· < ·) := by decide
  have hnext : ∀ p ∈ ps, .loc p < next := by decide
  exact ⟨n, hn, hps, hlt, hnext,
    spans_of_children_in_order .detached (.loc ⟨5, 0⟩) hn hps hlt hnext⟩

/-- The first of two decorators does not end where the second one starts, and a cursor in the second
one selects the first. -/
theorem decorators_overlap :
    let name (line : UInt32) : Node := .composite "Name" [] (some ⟨line, 1⟩)
    let o := ofTree "tree" (.composite "FunctionDef"
      [("body", .sequence .list [.composite "Pass" [] (some ⟨4, 4⟩)]),
        ("decorator_list", .sequence .list [name 1, name 2])] (some ⟨3, 0⟩))
    let r := o.resolve .detached (.loc ⟨5, 0⟩)
    (r.descend? [1, 0]).map (·.span) = some (some ⟨.loc ⟨1, 1⟩, .loc ⟨5, 0⟩⟩) ∧
      (r.descend? [1, 1]).map (·.span) = some (some ⟨.loc ⟨2, 1⟩, .loc ⟨5, 0⟩⟩) ∧
      r.routeTo? (.loc ⟨2, 3⟩) = some [1, 0] := by
  intro name o r
  exact ⟨by decide, by decide, by decide⟩

end SyntaxLens.Outline
