import Mathlib.Data.List.Chain
import Mathlib.Tactic.Common
import SyntaxLens.Proofs.Outline.Detachment

/-!
# What follows a node

The span of an exposed node ends at the first own position of the exposed nodes that come after it
and all below it, or with the document. Where the items of a sequence that is not detached have
increasing positions, each item ends where the next one starts, and the last one ends with the
sequence.
-/

namespace SyntaxLens.Outline

/-- The exposed nodes after the one at the end of a route and all below that one, each before its
children. -/
def exposedAfter (detached : LabelSet) (o : Outline) : List Nat → List Outline
  | [] => []
  | i :: route =>
    (o.children[i]?.elim [] fun child => child.exposedAfter detached route) ++
      exposedAmong detached (o.children.drop (i + 1))

/-- The first own position after an exposed node and all below it, if there is one. -/
def positionAfter? (detached : LabelSet) (o : Outline) (route : List Nat) : Option LineCol :=
  (o.exposedAfter detached route).findSome? (·.entry.position)

variable (detached : LabelSet)

lemma exposedAmong_append (os os' : List Outline) : exposedAmong detached (os ++ os') =
    exposedAmong detached os ++ exposedAmong detached os' := by
  induction os with
  | nil => rfl
  | cons o os ih => rw [List.cons_append, exposedAmong, exposedAmong, ih, List.append_assoc]

/-- The exposed nodes are those before a node, the node with those below it, and those after. -/
theorem exposed_split {o n : Outline} {route : List Nat}
    (h : o.exposedAt? detached route = some n) :
    ∃ before, o.exposed detached =
      before ++ (n.exposed detached ++ o.exposedAfter detached route) := by
  induction route generalizing o with
  | nil =>
    cases h
    exact ⟨[], by rw [exposedAfter, List.append_nil, List.nil_append]⟩
  | cons i route ih =>
    obtain ⟨hl, c, hc, hn⟩ := exists_child_of_exposedAt? detached h
    obtain ⟨before, hbefore⟩ := ih hn
    obtain ⟨hi, rfl⟩ := List.getElem?_eq_some_iff.mp hc
    have hchildren : exposedAmong detached o.children =
        exposedAmong detached (o.children.take i) ++
          (o.children[i].exposed detached ++
            exposedAmong detached (o.children.drop (i + 1))) := by
      rw [← exposedAmong, ← exposedAmong_append, ← List.drop_eq_getElem_cons hi,
        List.take_append_drop]
    refine ⟨o :: exposedAmong detached (o.children.take i) ++ before, ?_⟩
    rw [exposed_eq, if_neg hl, hchildren, hbefore, exposedAfter, hc]
    simp only [Option.elim_some, List.cons_append, List.append_assoc]

/-- What follows an exposed node is the first position after it, or what follows the root. -/
theorem next_along {o n : Outline} {route : List Nat} (s : Surroundings)
    (h : o.exposedAt? detached route = some n) : (s.along detached o route).next =
      (o.positionAfter? detached route).elim s.next .loc := by
  induction route generalizing o s with
  | nil => rfl
  | cons i route ih =>
    obtain ⟨hl, c, hc, hn⟩ := exists_child_of_exposedAt? detached h
    have hbelow : (s.below detached o i).next =
        ((exposedAmong detached (o.children.drop (i + 1))).findSome?
          (·.entry.position)).elim s.next .loc := by
      rw [← List.head?_filterMap]
      exact nextBefore_of_notMem detached hl s.next _
    have hinner := ih (s.below detached o i) hn
    rw [hbelow, positionAfter?] at hinner
    rw [Surroundings.along, positionAfter?, exposedAfter, hc, List.findSome?_append]
    simp only [Option.elim_some]
    rw [hinner]
    cases (c.exposedAfter detached route).findSome? (·.entry.position) <;> rfl

mutual

lemma first?_place (s : Surroundings) : ∀ o : Outline,
    (o.place detached s).first? detached = o.first? detached
  | ⟨entry, span, outOfOrder, children⟩ => by
    rw [place, first?, first?, firstAmong?_placeAll]

lemma firstAmong?_placeAll (next : Position) (label : String) (span : Span) :
    ∀ os : List Outline, firstAmong? detached (placeAll detached next label span os) =
      firstAmong? detached os
  | [] => rfl
  | o :: os => by
    rw [placeAll, firstAmong?, firstAmong?, first?_place, firstAmong?_placeAll]

end

mutual

theorem place_place (s s' : Surroundings) : ∀ o : Outline,
    (o.place detached s').place detached s = o.place detached s
  | ⟨entry, span, outOfOrder, children⟩ => by
    have hspan : spanIn detached s (place detached s' ⟨entry, span, outOfOrder, children⟩) =
        spanIn detached s ⟨entry, span, outOfOrder, children⟩ := by
      unfold spanIn startIn
      rw [first?_place]
    rw [place_eq, hspan, place_entry, place_children, placeAll_placeAll, ← place_eq]

lemma placeAll_placeAll (next next' : Position) (label label' : String) (span span' : Span) :
    ∀ os : List Outline,
      placeAll detached next label span (placeAll detached next' label' span' os) =
        placeAll detached next label span os
  | [] => rfl
  | o :: os => by
    have hnext : nextBefore detached next label (placeAll detached next' label' span' os) =
        nextBefore detached next label os := by
      unfold nextBefore startAmong
      rw [← firstAmong?_eq_findSome?, ← firstAmong?_eq_findSome?, firstAmong?_placeAll]
    rw [placeAll, placeAll, placeAll, hnext, place_place, placeAll_placeAll]

end

lemma exposedAt?_place (s : Surroundings) (o : Outline) (route : List Nat) :
    (o.place detached s).exposedAt? detached route =
      (o.exposedAt? detached route).map (place detached (s.along detached o route)) := by
  induction route generalizing s o with
  | nil => rfl
  | cons i route ih =>
    by_cases hl : o.entry.label ∈ detached
    · rw [exposedAt?, exposedAt?, place_entry, if_pos hl, if_pos hl]
      rfl
    · have hl' : (o.place detached s).entry.label ∉ detached := by rwa [place_entry]
      rw [exposedAt?_cons_of_notMem detached hl, exposedAt?_cons_of_notMem detached hl',
        place_children, getElem?_placeAll, Surroundings.along]
      cases o.children[i]? with
      | none => rfl
      | some child => exact ih (s.below detached o i) child

variable {detached} {documentEnd : Position} {o n : Outline} {route : List Nat}

/-- An exposed node of a resolved outline has the span that its surroundings give it, and they say
the same when they are read off the resolved outline itself. -/
theorem eq_place_of_exposedAt?_resolve (h : (o.resolve detached documentEnd).exposedAt? detached
    route = some n) : ∃ s : Surroundings, n = n.place detached s ∧
      s.next = ((o.resolve detached documentEnd).positionAfter? detached route).elim documentEnd
        .loc := by
  rw [resolve_eq_place] at h ⊢
  set r := o.place detached (.ofDocument documentEnd) with hr
  have hagain : r = r.place detached (.ofDocument documentEnd) := by rw [hr, place_place]
  have hplace := exposedAt?_place detached (.ofDocument documentEnd) r route
  rw [← hagain, h, Option.map_some, Option.some.injEq] at hplace
  exact ⟨.along detached (.ofDocument documentEnd) r route, hplace, next_along detached _ h⟩

lemma descend?_of_exposedAt? (h : o.exposedAt? detached route = some n) :
    o.descend? route = some n := by
  induction route generalizing o with
  | nil => exact h
  | cons i route ih =>
    obtain ⟨-, c, hc, hn⟩ := exists_child_of_exposedAt? detached h
    rw [descend?_cons, hc]
    exact ih hn

lemma exists_entry_of_mem_resolve (h : n ∈ (o.resolve detached documentEnd).nodes) :
    ∃ m ∈ o.nodes, n.entry = m.entry := by
  obtain ⟨route, hroute⟩ := mem_nodes_iff_descend?.mp h
  rw [resolve_eq_place, descend?_place] at hroute
  obtain ⟨m, hm, rfl⟩ := Option.map_eq_some_iff.mp hroute
  exact ⟨m, mem_nodes_of_descend? hm, place_entry _ _ m⟩

/-- The spans from each position of a list to the next one, and from the last one to another. -/
def spansBetween : List LineCol → Position → List Span
  | [], _ => []
  | [p], next => [⟨p, next⟩]
  | p :: q :: ps, next => ⟨p, .loc q⟩ :: spansBetween (q :: ps) next

lemma first?_of_position {c : Outline} {p : LineCol} (h : c.entry.position = some p) :
    c.first? detached = some p := by
  cases c
  rw [first?, show _ = some p from h, Option.some_or]

lemma first?_of_first_child {c : Outline} {later : List Outline} {p : LineCol}
    (hposition : o.entry.position = none) (hl : o.entry.label ∉ detached)
    (hc : o.children = c :: later) (hp : c.entry.position = some p) :
    o.first? detached = some p := by
  obtain ⟨entry, span, outOfOrder, children⟩ := o
  obtain rfl : children = c :: later := hc
  rw [first?, show entry.position = none from hposition, Option.none_or, if_neg hl, firstAmong?,
    first?_of_position hp, Option.some_or]

/-- A node whose first position is known covers the text from there on, or what its parent covers. -/
lemma spanIn_of_first? {c : Outline} {p : LineCol} {s : Surroundings}
    (hp : c.first? detached = some p) :
    c.spanIn detached s = if .loc p = s.next then s.parentSpan else ⟨.loc p, s.next⟩ := by
  have hstart : c.startIn detached s.next = .loc p := by
    rw [startIn, hp]
    rfl
  rw [spanIn, hstart]

lemma span_place_of_lt {c : Outline} {p : LineCol} {s : Surroundings}
    (hp : c.first? detached = some p) (h : .loc p < s.next) :
    (c.place detached s).span = some ⟨.loc p, s.next⟩ := by
  rw [place_span, spanIn_of_first? hp, if_neg (ne_of_lt h)]

/-- Siblings with increasing positions end where the next one starts, and the last of them ends at
what follows them all. -/
theorem spans_placeAll_of_lt {label : String} (hl : label ∉ detached) {next : Position}
    (parentSpan : Span) {os : List Outline} {ps : List LineCol}
    (hps : os.map (·.entry.position) = ps.map some) (hlt : ps.IsChain (· < ·))
    (hnext : ∀ p ∈ ps, .loc p < next) :
    (placeAll detached next label parentSpan os).map (·.span) =
      (spansBetween ps next).map some := by
  induction os generalizing ps with
  | nil =>
    obtain rfl : ps = [] := by simpa using hps.symm
    rfl
  | cons o os ih =>
    obtain ⟨p, ps, rfl, hp, hrest⟩ := List.map_eq_cons_iff.mp hps.symm
    have hchain := List.isChain_cons.mp hlt
    have hfirst : o.first? detached = some p := first?_of_position hp.symm
    have hlater : ∀ q ∈ ps, .loc q < next := fun q hq => hnext q (List.mem_cons_of_mem p hq)
    rw [placeAll, List.map_cons, ih hrest.symm hchain.2 hlater]
    cases os with
    | nil =>
      obtain rfl : ps = [] := by simpa using hrest
      have hlast : nextBefore detached next label [] = next := by
        rw [nextBefore, if_neg hl]
        rfl
      rw [hlast, span_place_of_lt hfirst (hnext p List.mem_cons_self)]
      rfl
    | cons o' os =>
      obtain ⟨p', ps, rfl, hp', -⟩ := List.map_eq_cons_iff.mp hrest
      have hbefore : nextBefore detached next label (o' :: os) = .loc p' := by
        rw [nextBefore, if_neg hl, startAmong, List.findSome?_cons, first?_of_position hp'.symm]
        rfl
      have hpp : p < p' := hchain.1 p' rfl
      rw [hbefore, span_place_of_lt hfirst (Position.loc_lt_loc.mpr hpp)]
      rfl

theorem spans_placeAll {label : String} (hl : label ∉ detached) {q : LineCol} (parentSpan : Span)
    {os : List Outline} {ps : List LineCol} (hps : os.map (·.entry.position) = ps.map some)
    (hlt : (ps ++ [q]).IsChain (· < ·)) :
    (placeAll detached (.loc q) label parentSpan os).map (·.span) =
      (spansBetween ps (.loc q)).map some := by
  have hpairwise := List.pairwise_append.mp (List.isChain_iff_pairwise.mp hlt)
  refine spans_placeAll_of_lt hl parentSpan hps (List.isChain_iff_pairwise.mpr hpairwise.1) ?_
  intro p hp
  exact Position.loc_lt_loc.mpr (hpairwise.2.2 p hp q (List.mem_singleton_self q))

end SyntaxLens.Outline
