import Mathlib.Tactic.Common
import SyntaxLens.Proofs.Outline.Placement

/-!
# Nesting of spans

A node is exposed when no node above it is detached. If the positions of the exposed nodes never
decrease, the spans of exposed nodes nest: no span is inverted, and that of each node is enclosed
by that of its parent. What detached nodes hold below them does not matter.
-/

namespace SyntaxLens.Outline

mutual

/-- The nodes without a detached node above them, each before its children. -/
def exposed (detached : LabelSet) : Outline → List Outline
  | ⟨entry, span, outOfOrder, children⟩ =>
    ⟨entry, span, outOfOrder, children⟩ ::
      if entry.label ∈ detached then [] else exposedAmong detached children

def exposedAmong (detached : LabelSet) : List Outline → List Outline
  | [] => []
  | o :: os => o.exposed detached ++ exposedAmong detached os

end

/-- The own positions of the exposed nodes, each before those of its children. -/
def positions (detached : LabelSet) (o : Outline) : List LineCol :=
  (o.exposed detached).filterMap (·.entry.position)

def positionsAmong (detached : LabelSet) (os : List Outline) : List LineCol :=
  (exposedAmong detached os).filterMap (·.entry.position)

/-- The positions of exposed nodes never decrease and are at most the given one. -/
structure InOrder (detached : LabelSet) (next : Position) (o : Outline) : Prop where
  sorted : (o.positions detached).Pairwise (· ≤ ·)
  bounded : ∀ p ∈ o.positions detached, .loc p ≤ next

/-- The node is not out of order and, unless it is detached, the spans of its children are
enclosed by its own. -/
def Nests (detached : LabelSet) (n : Outline) : Prop :=
  n.outOfOrder = false ∧ (n.entry.label ∉ detached →
    ∀ c ∈ n.children, ∃ s t, n.span = some s ∧ c.span = some t ∧ s.Encloses t)

variable (detached : LabelSet)

lemma exposed_eq (o : Outline) : o.exposed detached =
    o :: if o.entry.label ∈ detached then [] else exposedAmong detached o.children := by
  cases o
  rfl

lemma mem_exposedAmong {n : Outline} {os : List Outline} :
    n ∈ exposedAmong detached os ↔ ∃ o ∈ os, n ∈ o.exposed detached := by
  induction os with
  | nil => simp [exposedAmong]
  | cons o os ih => simp [exposedAmong, ih]

lemma mem_exposed {n o : Outline} : n ∈ o.exposed detached ↔
    n = o ∨ o.entry.label ∉ detached ∧ ∃ c ∈ o.children, n ∈ c.exposed detached := by
  rw [exposed_eq, List.mem_cons, ← mem_exposedAmong]
  by_cases h : o.entry.label ∈ detached <;> simp [h]

lemma positions_eq (o : Outline) : o.positions detached = o.entry.position.toList ++
    if o.entry.label ∈ detached then [] else positionsAmong detached o.children := by
  rw [positions, exposed_eq, List.filterMap_cons]
  by_cases h : o.entry.label ∈ detached <;> cases o.entry.position <;> simp [h, positionsAmong]

lemma positionsAmong_cons (o : Outline) (os : List Outline) :
    positionsAmong detached (o :: os) = o.positions detached ++ positionsAmong detached os :=
  List.filterMap_append

lemma positionsAmong_append (os os' : List Outline) : positionsAmong detached (os ++ os') =
    positionsAmong detached os ++ positionsAmong detached os' := by
  induction os with
  | nil => rfl
  | cons o os ih => rw [List.cons_append, positionsAmong_cons, positionsAmong_cons, ih,
      List.append_assoc]

mutual

/-- A node starts at the first position of the exposed nodes below it or of itself. -/
theorem first?_eq_head? : ∀ o : Outline, o.first? detached = (o.positions detached).head?
  | ⟨entry, span, outOfOrder, children⟩ => by
    rw [first?, firstAmong?_eq_head? children, positions_eq, List.head?_append]
    cases entry.position with
    | none => by_cases h : entry.label ∈ detached <;> simp [h]
    | some p => rfl

lemma firstAmong?_eq_head? :
    ∀ os : List Outline, firstAmong? detached os = (positionsAmong detached os).head?
  | [] => rfl
  | o :: os => by
    rw [firstAmong?, first?_eq_head? o, firstAmong?_eq_head? os, positionsAmong_cons,
      List.head?_append]

end

lemma startIn_eq (next : Position) (o : Outline) :
    o.startIn detached next = (o.positions detached).head?.elim next .loc := by
  rw [startIn, first?_eq_head?]

lemma nextBefore_of_notMem {label : String} (h : label ∉ detached) (next : Position)
    (later : List Outline) : nextBefore detached next label later =
      (positionsAmong detached later).head?.elim next .loc := by
  rw [nextBefore, if_neg h, startAmong, ← firstAmong?_eq_findSome?, firstAmong?_eq_head?]

variable {detached} {next : Position} {o c : Outline} {before later : List Outline}

lemma head?_elim_le {ps : List LineCol} (h : ∀ p ∈ ps, .loc p ≤ next) :
    ps.head?.elim next .loc ≤ next := by
  cases ps with
  | nil => exact le_refl next
  | cons p ps => exact h p List.mem_cons_self

lemma positions_of_notMem (h : o.entry.label ∉ detached) :
    o.positions detached = o.entry.position.toList ++ positionsAmong detached o.children := by
  rw [positions_eq, if_neg h]

lemma positionsAmong_split (hc : o.children = before ++ c :: later) :
    positionsAmong detached o.children = positionsAmong detached before ++
      (c.positions detached ++ positionsAmong detached later) := by
  rw [hc, positionsAmong_append, positionsAmong_cons]

lemma InOrder.startIn_le (h : InOrder detached next o) : o.startIn detached next ≤ next := by
  rw [startIn_eq]
  exact head?_elim_le h.bounded

lemma positions_sublist (hl : o.entry.label ∉ detached) (hc : o.children = before ++ c :: later) :
    (c.positions detached ++ positionsAmong detached later).Sublist (o.positions detached) := by
  rw [positions_of_notMem hl, positionsAmong_split hc]
  exact (List.sublist_append_right _ _).trans (List.sublist_append_right _ _)

section Child

variable (h : InOrder detached next o) (hl : o.entry.label ∉ detached)
  (hc : o.children = before ++ c :: later)
include h hl hc

lemma InOrder.nextBefore_le : nextBefore detached next o.entry.label later ≤ next := by
  rw [nextBefore_of_notMem detached hl]
  refine head?_elim_le fun p hp => h.bounded p ?_
  exact (positions_sublist hl hc).subset (List.mem_append_right _ hp)

/-- The children of a node that is not detached are in order up to what follows each. -/
theorem InOrder.child : InOrder detached (nextBefore detached next o.entry.label later) c := by
  have hsorted := h.sorted.sublist (positions_sublist hl hc)
  rw [List.pairwise_append] at hsorted
  refine ⟨hsorted.1, fun p hp => ?_⟩
  rw [nextBefore_of_notMem detached hl]
  cases hlater : positionsAmong detached later with
  | nil => exact h.bounded p ((positions_sublist hl hc).subset (List.mem_append_left _ hp))
  | cons q qs =>
    have hq : q ∈ positionsAmong detached later := by rw [hlater]; exact List.mem_cons_self
    exact Position.loc_le_loc.mpr (hsorted.2.2 p hp q hq)

lemma InOrder.startIn_le_loc {p : LineCol} (hp : p ∈ c.positions detached) :
    o.startIn detached next ≤ .loc p := by
  have hmem := (positions_sublist hl hc).subset (List.mem_append_left _ hp)
  have hsorted := h.sorted
  rw [startIn_eq]
  cases ho : o.positions detached with
  | nil => rw [ho] at hmem; exact absurd hmem List.not_mem_nil
  | cons q qs =>
    rw [ho] at hmem hsorted
    refine Position.loc_le_loc.mpr ?_
    rcases List.mem_cons.mp hmem with rfl | hp
    · exact le_refl p
    · exact List.rel_of_pairwise_cons hsorted hp

/-- The span of a node encloses that of each child, which is the same if the child is empty. -/
theorem InOrder.encloses (parentSpan : Span) :
    let own := o.spanIn detached ⟨next, parentSpan⟩
    own.Encloses (c.spanIn detached ⟨nextBefore detached next o.entry.label later, own⟩) := by
  intro own
  set next' := nextBefore detached next o.entry.label later with hnext'
  by_cases hempty : c.startIn detached next' = next'
  · rw [spanIn, if_pos hempty]
    exact own.encloses_refl
  · have hle : next' ≤ next := h.nextBefore_le hl hc
    have hlt : c.startIn detached next' < next' :=
      lt_of_le_of_ne (h.child hl hc).startIn_le hempty
    have hstart : o.startIn detached next ≤ c.startIn detached next' := by
      rw [startIn_eq] at hempty
      rw [startIn_eq detached next' c]
      cases hps : c.positions detached with
      | nil => rw [hps] at hempty; exact absurd rfl hempty
      | cons p ps =>
        refine h.startIn_le_loc hl hc ?_
        rw [hps]
        exact List.mem_cons_self
    have hown : own = ⟨o.startIn detached next, next⟩ := by
      have hlt' : o.startIn detached next < next := lt_of_le_of_lt hstart (lt_of_lt_of_le hlt hle)
      exact if_neg (ne_of_lt hlt')
    rw [hown, spanIn, if_neg hempty]
    exact ⟨hstart, hle⟩

end Child

lemma not_isInverted_spanIn {s : Surroundings} (hle : o.startIn detached s.next ≤ s.next)
    (hparent : ¬s.parentSpan.IsInverted) : ¬(o.spanIn detached s).IsInverted := by
  rw [spanIn]
  by_cases h : o.startIn detached s.next = s.next
  · rwa [if_pos h]
  · rw [if_neg h]
    exact Span.not_isInverted_iff.mpr hle

theorem InOrder.nests_place {s : Surroundings} (h : InOrder detached s.next o)
    (hparent : ¬s.parentSpan.IsInverted) : ∀ n ∈ (o.place detached s).exposed detached,
      n.Nests detached := by
  induction o using induction generalizing s with
  | node entry span outOfOrder children ih =>
    set o : Outline := ⟨entry, span, outOfOrder, children⟩ with ho
    have hown : ¬(o.spanIn detached s).IsInverted :=
      not_isInverted_spanIn h.startIn_le hparent
    intro n hn
    rcases (mem_exposed detached).mp hn with rfl | ⟨hl, r, hr, hn⟩
    · refine ⟨by rw [place_outOfOrder, decide_eq_false hown], fun hl r hr => ?_⟩
      rw [place_entry] at hl
      obtain ⟨before, c, later, hc, rfl⟩ := mem_children_place hr
      exact ⟨_, _, place_span _ _ _, place_span _ _ _, h.encloses hl hc s.parentSpan⟩
    · rw [place_entry] at hl
      obtain ⟨before, c, later, hc, rfl⟩ := mem_children_place hr
      have hmem : c ∈ children := by rw [show children = o.children from rfl, hc]; simp
      exact ih c hmem (h.child hl hc) hown n hn

/-- If the positions of the exposed nodes never decrease and are at most the end of the document,
then no exposed node is out of order and each one but the root has a span that is enclosed by that
of its parent. -/
theorem nests_resolve {documentEnd : Position} (h : InOrder detached documentEnd o) :
    ∀ n ∈ (o.resolve detached documentEnd).exposed detached, n.Nests detached := by
  rw [resolve_eq_place]
  refine InOrder.nests_place h ?_
  exact Span.not_isInverted_iff.mpr (Position.start_le documentEnd)

/-- The decorator stands before its function, and two fields of the function start together. -/
theorem nests_resolve_decorated :
    let o := ofTree "tree" (.composite "FunctionDef"
      [("decorator_list", .sequence .list [.composite "Name" [] (some ⟨1, 1⟩)]),
        ("body", .composite "Pass" [] (some ⟨3, 4⟩)),
        ("returns", .composite "Name" [("ctx", .composite "Load" [] none)] (some ⟨3, 4⟩))]
      (some ⟨2, 0⟩))
    InOrder .detached (.loc ⟨4, 0⟩) o ∧
    ∀ n ∈ (o.resolve .detached (.loc ⟨4, 0⟩)).exposed .detached, n.Nests .detached :=
  ⟨⟨by decide, by decide⟩, nests_resolve ⟨by decide, by decide⟩⟩

end SyntaxLens.Outline
