import Mathlib.Tactic.Common
import SyntaxLens.Outline.Resolve
import SyntaxLens.Proofs.Order
import SyntaxLens.Proofs.Outline.Routes

/-!
# Where nodes are placed

The span of a node follows from its `Surroundings`: the position that follows it and the span of
its parent. `first?` is where a node starts by itself, `spanIn` the span that it has, and `place`
finds all spans from the root down. The walk from right to left and the filling of gaps give the
same outline, so that the span of every node can be read off its route.
-/

namespace SyntaxLens.Outline

mutual

/-- The own position of a node or else, unless the node is detached, the one where its first
child starts that starts anywhere. -/
def first? (detached : LabelSet) : Outline → Option LineCol
  | ⟨entry, _, _, children⟩ =>
    entry.position.or (if entry.label ∈ detached then none else firstAmong? detached children)

def firstAmong? (detached : LabelSet) : List Outline → Option LineCol
  | [] => none
  | child :: children => (child.first? detached).or (firstAmong? detached children)

end

lemma firstAmong?_eq_findSome? (detached : LabelSet) (os : List Outline) :
    firstAmong? detached os = os.findSome? (first? detached) := by
  induction os with
  | nil => rfl
  | cons o os ih =>
    rw [firstAmong?, ih, List.findSome?_cons]
    cases o.first? detached <;> rfl

/-- The position where the first of several nodes starts, or the one that follows them all. -/
def startAmong (detached : LabelSet) (next : Position) (os : List Outline) : Position :=
  (os.findSome? (first? detached)).elim next .loc

/-- The position where a node starts, or the one that follows it. -/
def startIn (detached : LabelSet) (next : Position) (o : Outline) : Position :=
  (o.first? detached).elim next .loc

/-- What the span of a node depends on besides the node. -/
structure Surroundings where
  next : Position
  parentSpan : Span

def Surroundings.ofDocument (documentEnd : Position) : Surroundings :=
  ⟨documentEnd, .start, documentEnd⟩

/-- The span of a node: from its start to what follows it, or that of its parent if these are the
same position. -/
def spanIn (detached : LabelSet) (s : Surroundings) (o : Outline) : Span :=
  if o.startIn detached s.next = s.next then s.parentSpan else ⟨o.startIn detached s.next, s.next⟩

/-- What follows a child that has the given siblings after it. -/
def nextBefore (detached : LabelSet) (next : Position) (label : String) (later : List Outline) :
    Position :=
  if label ∈ detached then next else startAmong detached next later

/-- The surroundings of the child with index `i`. -/
def Surroundings.below (detached : LabelSet) (s : Surroundings) (o : Outline) (i : Nat) :
    Surroundings :=
  ⟨nextBefore detached s.next o.entry.label (o.children.drop (i + 1)), o.spanIn detached s⟩

/-- The surroundings of the node at the end of a route. -/
def Surroundings.along (detached : LabelSet) (s : Surroundings) (o : Outline) :
    List Nat → Surroundings
  | [] => s
  | i :: route =>
    o.children[i]?.elim s fun child => (s.below detached o i).along detached child route

mutual

/-- Gives a node and all below it the spans that they have in the surroundings of the node. -/
def place (detached : LabelSet) (s : Surroundings) : Outline → Outline
  | ⟨entry, span, outOfOrder, children⟩ =>
    let own := spanIn detached s ⟨entry, span, outOfOrder, children⟩
    ⟨entry, some own, own.IsInverted, placeAll detached s.next entry.label own children⟩

/-- Gives the children of a node with a label and a span their spans. -/
def placeAll (detached : LabelSet) (next : Position) (label : String) (parentSpan : Span) :
    List Outline → List Outline
  | [] => []
  | child :: children =>
    child.place detached ⟨nextBefore detached next label children, parentSpan⟩ ::
      placeAll detached next label parentSpan children

end

mutual

lemma seed_snd (detached : LabelSet) (next : Position) :
    ∀ o : Outline, (o.seed detached next).2 = o.startIn detached next
  | ⟨entry, span, outOfOrder, children⟩ => by
    have hinner := seedAll_snd detached (entry.label ∉ detached) next children
    simp only [seed, startIn, first?, hinner, startAmong, firstAmong?_eq_findSome?]
    cases entry.position with
    | some p => rfl
    | none => by_cases h : entry.label ∈ detached <;> simp [h]

lemma seedAll_snd (detached : LabelSet) (adopt : Bool) (next : Position) :
    ∀ os : List Outline, (seedAll detached adopt next os).2 =
      if adopt then startAmong detached next os else next
  | [] => by cases adopt <;> rfl
  | o :: os => by
    have hrest := seedAll_snd detached adopt next os
    simp only [seedAll, seed_snd detached, hrest, startAmong, startIn, List.findSome?_cons]
    cases adopt with
    | false => rfl
    | true => cases o.first? detached <;> rfl

end

lemma fill_none (inherited : Span) (entry : Entry) (outOfOrder : Bool) (children : List Outline) :
    fill inherited ⟨entry, none, outOfOrder, children⟩ =
      ⟨entry, some inherited, inherited.IsInverted, fillAll inherited children⟩ := by
  rw [fill]

lemma fill_some (inherited span : Span) (entry : Entry) (outOfOrder : Bool)
    (children : List Outline) :
    fill inherited ⟨entry, some span, outOfOrder, children⟩ =
      ⟨entry, some span, outOfOrder, fillAll span children⟩ := by
  rw [fill]

lemma seed_fst (detached : LabelSet) (next : Position) (o : Outline) :
    (o.seed detached next).1 = ⟨o.entry,
      if o.startIn detached next = next then none else some ⟨o.startIn detached next, next⟩,
      next < o.startIn detached next,
      (seedAll detached (o.entry.label ∉ detached) next o.children).1⟩ := by
  rw [← seed_snd]
  cases o
  rfl

mutual

lemma fill_seed (detached : LabelSet) (next : Position) (inherited : Span) :
    ∀ o : Outline, (o.seed detached next).1.fill inherited = o.place detached ⟨next, inherited⟩
  | ⟨entry, span, outOfOrder, children⟩ => by
    rw [seed_fst, place, spanIn]
    by_cases h : startIn detached next ⟨entry, span, outOfOrder, children⟩ = next
    · rw [if_pos h, if_pos h, fill_none, fillAll_seedAll]
    · rw [if_neg h, if_neg h, fill_some, fillAll_seedAll]
      rfl

lemma fillAll_seedAll (detached : LabelSet) (next : Position) (label : String)
    (inherited : Span) : ∀ os : List Outline,
      fillAll inherited (seedAll detached (label ∉ detached) next os).1 =
        placeAll detached next label inherited os
  | [] => rfl
  | o :: os => by
    have hnext : (seedAll detached (label ∉ detached) next os).2 =
        nextBefore detached next label os := by
      rw [seedAll_snd, nextBefore]
      by_cases h : label ∈ detached <;> simp [h]
    simp only [seedAll, fillAll, placeAll, hnext, fill_seed, fillAll_seedAll]

end

lemma resolve_eq_place (detached : LabelSet) (documentEnd : Position) (o : Outline) :
    o.resolve detached documentEnd = o.place detached (.ofDocument documentEnd) :=
  fill_seed detached documentEnd ⟨.start, documentEnd⟩ o

@[simp] lemma place_entry (detached : LabelSet) (s : Surroundings) (o : Outline) :
    (o.place detached s).entry = o.entry := by
  cases o
  rfl

@[simp] lemma place_span (detached : LabelSet) (s : Surroundings) (o : Outline) :
    (o.place detached s).span = some (o.spanIn detached s) := by
  cases o
  rfl

@[simp] lemma place_outOfOrder (detached : LabelSet) (s : Surroundings) (o : Outline) :
    (o.place detached s).outOfOrder = decide (o.spanIn detached s).IsInverted := by
  cases o
  rfl

@[simp] lemma place_children (detached : LabelSet) (s : Surroundings) (o : Outline) :
    (o.place detached s).children =
      placeAll detached s.next o.entry.label (o.spanIn detached s) o.children := by
  cases o
  rfl

lemma getElem?_placeAll (detached : LabelSet) (next : Position) (label : String) (span : Span)
    (os : List Outline) (i : Nat) :
    (placeAll detached next label span os)[i]? =
      os[i]?.map (place detached ⟨nextBefore detached next label (os.drop (i + 1)), span⟩) := by
  induction os generalizing i with
  | nil => rfl
  | cons o os ih =>
    cases i with
    | zero => rfl
    | succ i => exact ih i

lemma length_placeAll (detached : LabelSet) (next : Position) (label : String) (span : Span)
    (os : List Outline) : (placeAll detached next label span os).length = os.length := by
  induction os with
  | nil => rfl
  | cons o os ih => rw [placeAll, List.length_cons, List.length_cons, ih]

lemma descend?_place (detached : LabelSet) (s : Surroundings) (o : Outline) (route : List Nat) :
    (o.place detached s).descend? route =
      (o.descend? route).map (place detached (s.along detached o route)) := by
  induction route generalizing s o with
  | nil => rfl
  | cons i route ih =>
    rw [descend?_cons, descend?_cons, place_children, getElem?_placeAll, Surroundings.along]
    cases o.children[i]? with
    | none => rfl
    | some child => exact ih (s.below detached o i) child

lemma mem_children_place {detached : LabelSet} {s : Surroundings} {o r : Outline}
    (h : r ∈ (o.place detached s).children) :
    ∃ before c later, o.children = before ++ c :: later ∧ r = c.place detached
      ⟨nextBefore detached s.next o.entry.label later, o.spanIn detached s⟩ := by
  rw [place_children] at h
  obtain ⟨i, hi⟩ := List.mem_iff_getElem?.mp h
  rw [getElem?_placeAll, Option.map_eq_some_iff] at hi
  obtain ⟨c, hc, rfl⟩ := hi
  obtain ⟨hlt, rfl⟩ := List.getElem?_eq_some_iff.mp hc
  refine ⟨o.children.take i, o.children[i], o.children.drop (i + 1), ?_, rfl⟩
  rw [← List.drop_eq_getElem_cons hlt, List.take_append_drop]

mutual

lemma map_entry_nodes_place (detached : LabelSet) (s : Surroundings) : ∀ o : Outline,
    (o.place detached s).nodes.map (·.entry) = o.nodes.map (·.entry)
  | ⟨entry, span, outOfOrder, children⟩ => by
    rw [place, nodes, nodes, List.map_cons, List.map_cons, map_entry_nodesOf_placeAll]

lemma map_entry_nodesOf_placeAll (detached : LabelSet) (next : Position) (label : String)
    (span : Span) : ∀ os : List Outline,
      (nodesOf (placeAll detached next label span os)).map (·.entry) =
        (nodesOf os).map (·.entry)
  | [] => rfl
  | o :: os => by
    rw [placeAll, nodesOf, nodesOf, List.map_append, List.map_append, map_entry_nodes_place,
      map_entry_nodesOf_placeAll]

end

/-- Spans are found as they are described: at the end of every route, the resolved outline has a
node just where the outline has one, with the same entry and number of children and with the span
that the surroundings of the node give it, and the node is marked when that span is inverted. -/
theorem resolve_along_routes (detached : LabelSet) (documentEnd : Position) (o : Outline) :
    (∀ route, ((o.resolve detached documentEnd).descend? route).map
        (fun r => (r.entry, r.span, r.outOfOrder, r.children.length)) =
      (o.descend? route).map fun n =>
        let span := n.spanIn detached (.along detached (.ofDocument documentEnd) o route)
        (n.entry, some span, decide span.IsInverted, n.children.length)) ∧
    (∀ n ∈ (o.resolve detached documentEnd).nodes, n.span.isSome) ∧
    ∃ p, (o.resolve detached documentEnd).span = some ⟨p, documentEnd⟩ := by
  rw [resolve_eq_place]
  refine ⟨fun route => ?_, fun n hn => ?_, ?_⟩
  · rw [descend?_place, Option.map_map]
    refine congrArg (Option.map · (o.descend? route)) (funext fun n => ?_)
    simp only [Function.comp_apply, place_entry, place_span, place_outOfOrder, place_children,
      length_placeAll]
  · obtain ⟨route, hroute⟩ := mem_nodes_iff_descend?.mp hn
    rw [descend?_place, Option.map_eq_some_iff] at hroute
    obtain ⟨m, -, rfl⟩ := hroute
    rw [place_span, Option.isSome_some]
  · rw [place_span, spanIn]
    by_cases h : o.startIn detached documentEnd = documentEnd
    · exact ⟨.start, by rw [Surroundings.ofDocument, if_pos h]⟩
    · exact ⟨_, by rw [Surroundings.ofDocument, if_neg h]⟩

lemma exists_of_first? {detached : LabelSet} {o : Outline} {p : LineCol}
    (h : o.first? detached = some p) : ∃ m ∈ o.nodes, m.entry.position = some p := by
  induction o using induction with
  | node entry span outOfOrder children ih =>
    rw [first?, firstAmong?_eq_findSome?, Option.or_eq_some_iff] at h
    rcases h with h | ⟨-, h⟩
    · exact ⟨_, self_mem_nodes _, h⟩
    · by_cases hl : entry.label ∈ detached
      · rw [if_pos hl] at h
        cases h
      · rw [if_neg hl] at h
        obtain ⟨c, hc, hp⟩ := List.exists_of_findSome?_eq_some h
        obtain ⟨m, hm, hposition⟩ := ih c hc hp
        exact ⟨m, mem_nodes.mpr (.inr ⟨c, hc, hm⟩), hposition⟩

lemma spanIn_start (detached : LabelSet) (s : Surroundings) (o : Outline) :
    (o.spanIn detached s).start = s.parentSpan.start ∨
      ∃ m ∈ o.nodes, ∃ p, m.entry.position = some p ∧
        (o.spanIn detached s).start = .loc p := by
  rw [spanIn]
  by_cases hempty : o.startIn detached s.next = s.next
  · rw [if_pos hempty]
    exact .inl rfl
  · rw [if_neg hempty]
    cases hfirst : o.first? detached with
    | none => rw [startIn, hfirst] at hempty; exact absurd rfl hempty
    | some p =>
      obtain ⟨m, hm, hp⟩ := exists_of_first? hfirst
      exact .inr ⟨m, hm, p, hp, by rw [startIn, hfirst]; rfl⟩

lemma start_of_mem_place {detached : LabelSet} {s : Surroundings} {o n : Outline}
    (h : n ∈ (o.place detached s).nodes) : ∃ span, n.span = some span ∧
      (span.start = s.parentSpan.start ∨
        ∃ m ∈ o.nodes, ∃ p, m.entry.position = some p ∧ span.start = .loc p) := by
  induction o using induction generalizing s with
  | node entry span outOfOrder children ih =>
    set o : Outline := ⟨entry, span, outOfOrder, children⟩ with ho
    rcases mem_nodes.mp h with rfl | ⟨r, hr, hn⟩
    · exact ⟨_, place_span detached s o, spanIn_start detached s o⟩
    · obtain ⟨before, c, later, hc, rfl⟩ := mem_children_place hr
      have hmem : c ∈ o.children := by rw [hc]; simp
      obtain ⟨t, ht, hstart | ⟨m, hm, hp⟩⟩ := ih c hmem hn
      · refine ⟨t, ht, ?_⟩
        rw [hstart]
        exact spanIn_start detached s o
      · exact ⟨t, ht, .inr ⟨m, mem_nodes.mpr (.inr ⟨c, hmem, hm⟩), hp⟩⟩

/-- After resolving, each span starts with the document or at the position of some node. -/
theorem start_of_mem_resolve {detached : LabelSet} {documentEnd : Position} {o n : Outline}
    (h : n ∈ (o.resolve detached documentEnd).nodes) : ∃ span, n.span = some span ∧
      (span.start = .start ∨
        ∃ m ∈ o.nodes, ∃ p, m.entry.position = some p ∧ span.start = .loc p) := by
  rw [resolve_eq_place] at h
  exact start_of_mem_place h

end SyntaxLens.Outline
