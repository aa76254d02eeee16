import Mathlib.Data.Set.Monotone
import SyntaxLens.Proofs.Outline.Preceding

/-!
# Spans move with the text

Positions are compared and nothing else is done with them. So when the text moves and the positions
in play keep their order, spans and selections move along. The positions in play are the own
positions of all nodes, the end of the document and the cursor.
-/

namespace SyntaxLens

/-- The position after a move of the text. The ends of the document stay where they are. -/
def Position.map (f : LineCol → LineCol) : Position → Position
  | start => start
  | loc p => loc (f p)
  | stop => stop

def Span.map (f : LineCol → LineCol) (s : Span) : Span :=
  ⟨s.start.map f, s.stop.map f⟩

def Entry.move (f : LineCol → LineCol) (e : Entry) : Entry :=
  { e with position := e.position.map f }

namespace Outline

mutual

/-- The outline with other entries and with other spans, where it has spans. -/
def map (g : Entry → Entry) (h : Span → Span) : Outline → Outline
  | ⟨entry, span, outOfOrder, children⟩ =>
    ⟨g entry, span.map h, outOfOrder, mapAll g h children⟩

def mapAll (g : Entry → Entry) (h : Span → Span) : List Outline → List Outline
  | [] => []
  | child :: children => child.map g h :: mapAll g h children

end

/-- The positions that spans and selections are found from. -/
def inPlay (documentEnd cursor : Position) (o : Outline) : List Position :=
  documentEnd :: cursor :: (starts o.nodes).map .loc

/-- The own positions of all the nodes are in a set. -/
def PositionsIn (P : Set Position) (ns : List Outline) : Prop :=
  ∀ n ∈ ns, ∀ p ∈ n.entry.position, .loc p ∈ P

/-- The bounds of all spans that the nodes have are in a set. -/
def SpansIn (P : Set Position) (ns : List Outline) : Prop :=
  ∀ n ∈ ns, ∀ span ∈ n.span, span.start ∈ P ∧ span.stop ∈ P

variable {f : LineCol → LineCol} {P : Set Position} (detached : LabelSet) {o : Outline}
  {next cursor : Position} {s : Surroundings} {span : Span}

def Surroundings.map (f : LineCol → LineCol) (s : Surroundings) : Surroundings :=
  ⟨s.next.map f, s.parentSpan.map f⟩

structure Surroundings.In (P : Set Position) (s : Surroundings) : Prop where
  next : s.next ∈ P
  start : s.parentSpan.start ∈ P
  stop : s.parentSpan.stop ∈ P

lemma positionsIn_children {entry : Entry} {span : Option Span} {outOfOrder : Bool}
    {children : List Outline} (h : PositionsIn P (nodes ⟨entry, span, outOfOrder, children⟩)) :
    PositionsIn P (nodesOf children) :=
  fun n hn => h n (List.mem_cons_of_mem _ hn)

mutual

lemma first?_map (f : LineCol → LineCol) (h : Span → Span) : ∀ o : Outline,
    (o.map (Entry.move f) h).first? detached = (o.first? detached).map f
  | ⟨entry, span, outOfOrder, children⟩ => by
    rw [map, first?, first?, firstAmong?_mapAll, Option.map_or, apply_ite (Option.map f)]
    rfl

lemma firstAmong?_mapAll (f : LineCol → LineCol) (h : Span → Span) : ∀ os : List Outline,
    firstAmong? detached (mapAll (Entry.move f) h os) = (firstAmong? detached os).map f
  | [] => rfl
  | o :: os => by
    rw [mapAll, firstAmong?, firstAmong?, first?_map, firstAmong?_mapAll, Option.map_or]

end

lemma elim_map_loc (f : LineCol → LineCol) (first : Option LineCol) (next : Position) :
    (first.map f).elim (next.map f) .loc = (first.elim next .loc).map f := by
  cases first <;> rfl

lemma startIn_map (f : LineCol → LineCol) (h : Span → Span) (next : Position) (o : Outline) :
    (o.map (Entry.move f) h).startIn detached (next.map f) = (o.startIn detached next).map f := by
  rw [startIn, startIn, first?_map, elim_map_loc]

lemma nextBefore_mapAll (f : LineCol → LineCol) (h : Span → Span) (next : Position) (label : String)
    (os : List Outline) : nextBefore detached (next.map f) label (mapAll (Entry.move f) h os) =
      (nextBefore detached next label os).map f := by
  unfold nextBefore startAmong
  rw [← firstAmong?_eq_findSome?, ← firstAmong?_eq_findSome?, firstAmong?_mapAll, elim_map_loc]
  exact (apply_ite (Position.map f) _ _ _).symm

lemma elim_mem {first : Option LineCol} (h : ∀ p ∈ first, .loc p ∈ P) (hnext : next ∈ P) :
    first.elim next .loc ∈ P := by
  cases first with
  | none => exact hnext
  | some p => exact h p rfl

lemma startIn_mem (ho : PositionsIn P o.nodes) (hnext : next ∈ P) :
    o.startIn detached next ∈ P := by
  apply elim_mem _ hnext
  intro p hp
  obtain ⟨m, hm, hposition⟩ := exists_of_first? hp
  exact ho m hm p hposition

lemma nextBefore_mem {os : List Outline} (hos : PositionsIn P (nodesOf os)) (hnext : next ∈ P)
    (label : String) : nextBefore detached next label os ∈ P := by
  unfold nextBefore
  split_ifs
  · exact hnext
  · apply elim_mem _ hnext
    intro p hp
    obtain ⟨o, ho, hfirst⟩ := List.exists_of_findSome?_eq_some hp
    obtain ⟨m, hm, hposition⟩ := exists_of_first? hfirst
    exact hos m (mem_nodesOf.mpr ⟨o, ho, hm⟩) p hposition

lemma spanIn_mem (ho : PositionsIn P o.nodes) (hs : s.In P) :
    (o.spanIn detached s).start ∈ P ∧ (o.spanIn detached s).stop ∈ P := by
  unfold spanIn
  split_ifs
  · exact ⟨hs.start, hs.stop⟩
  · exact ⟨startIn_mem detached ho hs.next, hs.next⟩

lemma isInverted_map (hf : StrictMonoOn (Position.map f) P)
    (hspan : span.start ∈ P ∧ span.stop ∈ P) : (span.map f).IsInverted ↔ span.IsInverted :=
  hf.lt_iff_lt hspan.2 hspan.1

lemma spanIn_map (hf : StrictMonoOn (Position.map f) P) (h : Span → Span)
    (ho : PositionsIn P o.nodes) (hs : s.In P) :
    (o.map (Entry.move f) h).spanIn detached (s.map f) = (o.spanIn detached s).map f := by
  have hempty : (o.startIn detached s.next).map f = s.next.map f ↔
      o.startIn detached s.next = s.next :=
    hf.injOn.eq_iff (startIn_mem detached ho hs.next) hs.next
  unfold spanIn
  rw [show (s.map f).next = s.next.map f from rfl, startIn_map, apply_ite (Span.map f)]
  simp only [hempty]
  rfl

mutual

/-- Nodes whose positions have moved are placed where the nodes were placed before. -/
theorem place_map (hf : StrictMonoOn (Position.map f) P) (h : Span → Span) (s : Surroundings)
    (hs : s.In P) : ∀ o : Outline, PositionsIn P o.nodes →
      (o.map (Entry.move f) h).place detached (s.map f) =
        (o.place detached s).map (Entry.move f) (Span.map f)
  | ⟨entry, span, outOfOrder, children⟩, ho => by
    have hown := spanIn_map detached hf h ho hs
    have hmem := spanIn_mem detached ho hs
    have hchildren := placeAll_mapAll hf h s.next hs.next entry.label _ hmem children
      (positionsIn_children ho)
    rw [map] at hown
    rw [map, place, place, map, hown]
    simp only [isInverted_map hf hmem]
    exact congrArg _ hchildren

lemma placeAll_mapAll (hf : StrictMonoOn (Position.map f) P) (h : Span → Span) (next : Position)
    (hnext : next ∈ P) (label : String) (span : Span) (hspan : span.start ∈ P ∧ span.stop ∈ P) :
    ∀ os : List Outline, PositionsIn P (nodesOf os) →
      placeAll detached (next.map f) label (span.map f) (mapAll (Entry.move f) h os) =
        mapAll (Entry.move f) (Span.map f) (placeAll detached next label span os)
  | [], _ => rfl
  | o :: os, hos => by
    have hlater : PositionsIn P (nodesOf os) := fun n hn => hos n (List.mem_append_right _ hn)
    have hbefore := nextBefore_mem detached hlater hnext label
    have hfirst := place_map hf h ⟨nextBefore detached next label os, span⟩
      ⟨hbefore, hspan.1, hspan.2⟩ o fun n hn => hos n (List.mem_append_left _ hn)
    rw [mapAll, placeAll, placeAll, mapAll, nextBefore_mapAll,
      placeAll_mapAll hf h next hnext label span hspan os hlater]
    exact congrArg (· :: _) hfirst

end

lemma spansIn_place (ho : PositionsIn P o.nodes) (hs : s.In P) :
    SpansIn P (o.place detached s).nodes := by
  induction o using induction generalizing s with
  | node entry span outOfOrder children ih =>
    set o : Outline := ⟨entry, span, outOfOrder, children⟩ with hdef
    have hmem := spanIn_mem detached ho hs
    intro n hn t ht
    rcases mem_nodes.mp hn with rfl | ⟨r, hr, hn⟩
    · rw [place_span] at ht
      cases ht
      exact hmem
    · obtain ⟨before, c, later, hc, rfl⟩ := mem_children_place hr
      have hchildren : children = before ++ c :: later := hc
      have hin : PositionsIn P (nodesOf (before ++ c :: later)) :=
        hchildren ▸ positionsIn_children ho
      have hlater : PositionsIn P (nodesOf later) := by
        intro m hm
        apply hin m
        rw [nodesOf_append, nodesOf]
        exact List.mem_append_right _ (List.mem_append_right _ hm)
      have hchild : PositionsIn P c.nodes := by
        intro m hm
        apply hin m
        rw [nodesOf_append, nodesOf]
        exact List.mem_append_right _ (List.mem_append_left _ hm)
      exact ih c (by rw [hchildren]; simp) hchild
        ⟨nextBefore_mem detached hlater hs.next _, hmem.1, hmem.2⟩ n hn t ht

lemma matches_map (hf : StrictMonoOn (Position.map f) P) (hcursor : cursor ∈ P)
    (ho : ∀ span ∈ o.span, span.start ∈ P ∧ span.stop ∈ P) :
    (o.map (Entry.move f) (Span.map f)).Matches (cursor.map f) ↔ o.Matches cursor := by
  obtain ⟨entry, span, outOfOrder, children⟩ := o
  have hposition : (entry.move f).position.isSome = entry.position.isSome := Option.isSome_map
  unfold Matches
  rw [map, hposition]
  apply and_congr_right
  intro _
  cases span with
  | none => rfl
  | some span =>
    obtain ⟨hstart, hstop⟩ := ho span rfl
    have hcontains : (span.map f).ContainsStrictly (cursor.map f) ↔ span.ContainsStrictly cursor :=
      and_congr (hf.lt_iff_lt hstart hcursor) (hf.lt_iff_lt hcursor hstop)
    simp only [Option.map_some, Option.any_some, decide_eq_true_eq]
    exact hcontains

mutual

lemma routeTo?_map (hf : StrictMonoOn (Position.map f) P) (hcursor : cursor ∈ P) :
    ∀ o : Outline, SpansIn P o.nodes →
      (o.map (Entry.move f) (Span.map f)).routeTo? (cursor.map f) = o.routeTo? cursor
  | ⟨entry, span, outOfOrder, children⟩, ho => by
    have hself := matches_map hf hcursor (ho _ (self_mem_nodes _))
    have hchildren := routeAmong?_mapAll hf hcursor 0 children
      fun n hn => ho n (List.mem_cons_of_mem _ hn)
    rw [map] at hself
    rw [map, routeTo?, routeTo?, hchildren]
    simp only [hself]

lemma routeAmong?_mapAll (hf : StrictMonoOn (Position.map f) P) (hcursor : cursor ∈ P) :
    ∀ (i : Nat) (os : List Outline), SpansIn P (nodesOf os) →
      routeAmong? (cursor.map f) i (mapAll (Entry.move f) (Span.map f) os) =
        routeAmong? cursor i os
  | _, [], _ => rfl
  | i, o :: os, hos => by
    have hfirst := routeTo?_map hf hcursor o fun n hn => hos n (List.mem_append_left _ hn)
    have hlater := routeAmong?_mapAll hf hcursor (i + 1) os
      fun n hn => hos n (List.mem_append_right _ hn)
    rw [mapAll, routeAmong?, routeAmong?, hfirst, hlater]

end

lemma strictMonoOn_insert_start (hf : StrictMonoOn (Position.map f) P) :
    StrictMonoOn (Position.map f) (insert .start P) := by
  have hstart {q : Position} (hq : Position.start < q) : Position.start < q.map f := by
    cases q with
    | start => exact absurd hq (lt_irrefl _)
    | loc q => exact Nat.succ_pos _
    | stop => exact Nat.succ_pos _
  intro p hp q hq hlt
  rcases hp with rfl | hp
  · exact hstart hlt
  · rcases hq with rfl | hq
    · exact absurd (Position.start_le p) (not_le_of_gt hlt)
    · exact hf hp hq hlt

/-- If the text moves and the positions in play keep their order, then the spans of the outline are
those that were found before the move, moved along, with the same marks. A cursor that moves along
selects the node at the same route. -/
theorem resolve_map {documentEnd : Position}
    (hf : StrictMonoOn (Position.map f) {p | p ∈ inPlay documentEnd cursor o}) :
    let moved := (o.map (Entry.move f) id).resolve detached (documentEnd.map f)
    moved = (o.resolve detached documentEnd).map (Entry.move f) (Span.map f) ∧
      moved.routeTo? (cursor.map f) = (o.resolve detached documentEnd).routeTo? cursor := by
  intro moved
  set P : Set Position := insert .start {p | p ∈ inPlay documentEnd cursor o}
  have hstrict : StrictMonoOn (Position.map f) P := strictMonoOn_insert_start hf
  have hend : documentEnd ∈ P := .inr List.mem_cons_self
  have hcursor : cursor ∈ P := .inr (List.mem_cons_of_mem _ List.mem_cons_self)
  have ho : PositionsIn P o.nodes := by
    intro n hn p hp
    have hstart : p ∈ starts o.nodes := mem_starts.mpr ⟨n, hn, hp⟩
    have hloc : Position.loc p ∈ (starts o.nodes).map .loc := List.mem_map_of_mem hstart
    exact .inr (List.mem_cons_of_mem _ (List.mem_cons_of_mem _ hloc))
  have hs : (Surroundings.ofDocument documentEnd).In P := ⟨hend, .inl rfl, hend⟩
  have hplace : moved = (o.resolve detached documentEnd).map (Entry.move f) (Span.map f) := by
    have hmoved : moved = (o.map (Entry.move f) id).place detached
        ((Surroundings.ofDocument documentEnd).map f) := resolve_eq_place _ _ _
    rw [hmoved, resolve_eq_place]
    exact place_map detached hstrict id _ hs o ho
  refine ⟨hplace, ?_⟩
  rw [hplace, resolve_eq_place]
  exact routeTo?_map hstrict hcursor _ (spansIn_place detached ho hs)

/-- Three lines are put before a text with a decorator and a name that is out of order. The line
numbers of places far down would overflow. -/
theorem resolve_map_three_lines :
    let o := ofTree "tree" (.composite "FunctionDef"
      [("decorator_list", .sequence .list [.composite "Name" [] (some ⟨1, 1⟩)]),
        ("returns", .composite "Name" [] (some ⟨2, 9⟩)),
        ("body", .sequence .list [.composite "Pass" [] (some ⟨2, 4⟩)])] (some ⟨2, 0⟩))
    let f : LineCol → LineCol := fun p => ⟨p.line + 3, p.column⟩
    let documentEnd : Position := .loc ⟨3, 0⟩
    let cursor : Position := .loc ⟨2, 6⟩
    StrictMonoOn (Position.map f) {p | p ∈ inPlay documentEnd cursor o} ∧
      let moved := (o.map (Entry.move f) id).resolve .detached (documentEnd.map f)
      moved = (o.resolve .detached documentEnd).map (Entry.move f) (Span.map f) ∧
        moved.routeTo? (cursor.map f) = (o.resolve .detached documentEnd).routeTo? cursor := by
  intro o f documentEnd cursor
  have hlist : ∀ p ∈ inPlay documentEnd cursor o, ∀ q ∈ inPlay documentEnd cursor o,
      p < q → p.map f < q.map f := by
    decide
  have hf : StrictMonoOn (Position.map f) {p | p ∈ inPlay documentEnd cursor o} :=
    fun p hp q hq => hlist p hp q hq
  exact ⟨hf, resolve_map .detached hf⟩

end Outline

end SyntaxLens
