import Mathlib.Tactic.Common
import SyntaxLens.Proofs.Outline.Following
import SyntaxLens.Proofs.Outline.Lookup

/-!
# The last start before a cursor

In an outline without detached nodes whose own positions ascend, a cursor in the document that
stands at no own position selects the node that starts last before it. The search goes through the
children first and takes the first match, so one has to see that the last start before the cursor
lies in the last sibling that starts before it.
-/

namespace SyntaxLens.Outline

/-- The own positions of nodes in their order. -/
def starts (ns : List Outline) : List LineCol :=
  ns.filterMap (·.entry.position)

/-- The first own position of nodes, or the position that follows them if they have none. -/
def firstStart (next : Position) (ns : List Outline) : Position :=
  (starts ns).head?.elim next .loc

def StartsBefore (cursor : LineCol) (o : Outline) : Prop :=
  ∃ p ∈ o.entry.position, p < cursor

instance (cursor : LineCol) (o : Outline) : Decidable (o.StartsBefore cursor) :=
  inferInstanceAs (Decidable (∃ p ∈ o.entry.position, p < cursor))

/-- The last of several nodes with an own position before the cursor. -/
def lastBefore? (cursor : LineCol) (ns : List Outline) : Option Outline :=
  (ns.filter fun n => n.StartsBefore cursor).getLast?

/-- Nodes in pre-order with own positions that never decrease. That of each node is less than those
of the nodes that come after it and all below it, and less than the position that follows. -/
structure Ascends (next : Position) (ns : List Outline) : Prop where
  sorted : (starts ns).Pairwise (· ≤ ·)
  separated : ∀ (before : List Outline) (n : Outline) (after : List Outline),
    ns = before ++ (n.nodes ++ after) → ∀ p ∈ n.entry.position, ∀ q ∈ starts after, p < q
  bounded : ∀ p ∈ starts ns, .loc p < next

variable {next : Position} {cursor : LineCol} {o n : Outline} {ns ms os : List Outline}

lemma mem_starts {p : LineCol} : p ∈ starts ns ↔ ∃ n ∈ ns, n.entry.position = some p :=
  List.mem_filterMap

lemma starts_append (ns ms : List Outline) : starts (ns ++ ms) = starts ns ++ starts ms :=
  List.filterMap_append

lemma nodes_split (h : n ∈ o.nodes) : ∃ before after, o.nodes = before ++ (n.nodes ++ after) := by
  induction o using induction with
  | node entry span outOfOrder children ih =>
    set o : Outline := ⟨entry, span, outOfOrder, children⟩ with ho
    rcases mem_nodes.mp h with rfl | ⟨c, hc, hn⟩
    · exact ⟨[], [], by rw [List.nil_append, List.append_nil]⟩
    · obtain ⟨before, after, hsplit⟩ := ih c hc hn
      obtain ⟨l, r, hlr⟩ := List.append_of_mem hc
      refine ⟨o :: (nodesOf l ++ before), after ++ nodesOf r, ?_⟩
      rw [nodes_eq, show o.children = l ++ c :: r from hlr, nodesOf_append, nodesOf, hsplit]
      simp only [List.cons_append, List.append_assoc]

lemma Ascends.right (h : Ascends next (ns ++ ms)) : Ascends next ms := by
  refine ⟨?_, ?_, ?_⟩
  · have hsorted := h.sorted
    rw [starts_append] at hsorted
    exact (List.pairwise_append.mp hsorted).2.1
  · intro before n after hsplit
    apply h.separated (ns ++ before) n after
    rw [hsplit, List.append_assoc]
  · intro p hp
    apply h.bounded p
    rw [starts_append]
    exact List.mem_append_right _ hp

lemma Ascends.left (h : Ascends next (o.nodes ++ ms)) : Ascends (firstStart next ms) o.nodes := by
  refine ⟨?_, ?_, ?_⟩
  · have hsorted := h.sorted
    rw [starts_append] at hsorted
    exact (List.pairwise_append.mp hsorted).1
  · intro before n after hsplit p hp q hq
    refine h.separated before n (after ++ ms) ?_ p hp q ?_
    · rw [hsplit, List.append_assoc, List.append_assoc]
    · rw [starts_append]
      exact List.mem_append_left _ hq
  · intro p hp
    unfold firstStart
    cases hms : starts ms with
    | nil =>
      apply h.bounded p
      rw [starts_append]
      exact List.mem_append_left _ hp
    | cons q qs =>
      obtain ⟨n, hn, hnp⟩ := mem_starts.mp hp
      obtain ⟨before, after, hsplit⟩ := nodes_split hn
      refine Position.loc_lt_loc.mpr (h.separated before n (after ++ ms) ?_ p hnp q ?_)
      · rw [hsplit, List.append_assoc, List.append_assoc]
      · rw [starts_append, hms]
        exact List.mem_append_right _ List.mem_cons_self

lemma separated_of_getElem (h : ∀ (i : Nat) (hi : i < ns.length), ∀ p ∈ ns[i].entry.position,
    ∀ q ∈ starts (ns.drop (i + ns[i].nodes.length)), p < q) (before : List Outline) (n : Outline)
    (after : List Outline) (hsplit : ns = before ++ (n.nodes ++ after)) :
    ∀ p ∈ n.entry.position, ∀ q ∈ starts after, p < q := by
  have hns : ns = before ++ n :: (nodesOf n.children ++ after) := by
    rw [hsplit, nodes_eq n, List.cons_append]
  have hi : before.length < ns.length := by simp [hns]
  have hget : ns[before.length] = n := by simp [hns]
  have hdrop : ns.drop (before.length + n.nodes.length) = after := by
    rw [hsplit, ← List.drop_drop, List.drop_left, List.drop_left]
  have hat := h before.length hi
  rwa [hget, hdrop] at hat

lemma lastBefore?_append (ns ms : List Outline) :
    lastBefore? cursor (ns ++ ms) = (lastBefore? cursor ms).or (lastBefore? cursor ns) := by
  unfold lastBefore?
  rw [List.filter_append, List.getLast?_append]

lemma lastBefore?_singleton (o : Outline) :
    lastBefore? cursor [o] = if o.StartsBefore cursor then some o else none := by
  unfold lastBefore?
  by_cases h : o.StartsBefore cursor
  · rw [if_pos h, List.filter_singleton, decide_eq_true h]
    rfl
  · rw [if_neg h, List.filter_singleton, decide_eq_false h]
    rfl

lemma lastBefore?_eq_none : lastBefore? cursor ns = none ↔ ∀ p ∈ starts ns, ¬p < cursor := by
  rw [lastBefore?, List.getLast?_eq_none_iff, List.filter_eq_nil_iff]
  constructor
  · intro h p hp hlt
    obtain ⟨n, hn, hnp⟩ := mem_starts.mp hp
    exact h n hn (decide_eq_true ⟨p, hnp, hlt⟩)
  · intro h n hn hbefore
    obtain ⟨p, hp, hlt⟩ := of_decide_eq_true hbefore
    exact h p (mem_starts.mpr ⟨n, hn, hp⟩) hlt

lemma lastBefore?_eq_none_iff (hsorted : (starts ns).Pairwise (· ≤ ·))
    (hcursor : cursor ∉ starts ns) (hlt : .loc cursor < next) :
    lastBefore? cursor ns = none ↔ .loc cursor < firstStart next ns := by
  rw [lastBefore?_eq_none, firstStart]
  cases hns : starts ns with
  | nil => simpa using hlt
  | cons q qs =>
    rw [hns] at hsorted hcursor
    have hne : cursor ≠ q := List.ne_of_not_mem_cons hcursor
    rw [List.head?_cons, Option.elim_some]
    constructor
    · intro h
      have hle : cursor ≤ q := not_lt.mp (h q List.mem_cons_self)
      exact Position.loc_lt_loc.mpr (lt_of_le_of_ne hle hne)
    · intro h p hp
      have hq : cursor < q := Position.loc_lt_loc.mp h
      rcases List.mem_cons.mp hp with rfl | hp
      · exact not_lt.mpr (le_of_lt hq)
      · exact not_lt.mpr (le_trans (le_of_lt hq) (List.rel_of_pairwise_cons hsorted hp))

variable {detached : LabelSet}

mutual

lemma exposed_eq_nodes : ∀ o : Outline, (∀ n ∈ o.nodes, n.entry.label ∉ detached) →
    o.exposed detached = o.nodes
  | ⟨entry, span, outOfOrder, children⟩, h => by
    have hl : entry.label ∉ detached := h _ (self_mem_nodes _)
    rw [exposed, if_neg hl, nodes, exposedAmong_eq_nodesOf children]
    intro n hn
    exact h n (List.mem_cons_of_mem _ hn)

lemma exposedAmong_eq_nodesOf : ∀ os : List Outline,
    (∀ n ∈ nodesOf os, n.entry.label ∉ detached) → exposedAmong detached os = nodesOf os
  | [], _ => rfl
  | o :: os, h => by
    rw [exposedAmong, nodesOf, exposed_eq_nodes o, exposedAmong_eq_nodesOf os]
    · intro n hn
      exact h n (List.mem_append_right _ hn)
    · intro n hn
      exact h n (List.mem_append_left _ hn)

end

lemma nextBefore_eq_firstStart {label : String} (hl : label ∉ detached)
    (hos : ∀ n ∈ nodesOf os, n.entry.label ∉ detached) :
    nextBefore detached next label os = firstStart next (nodesOf os) := by
  rw [nextBefore_of_notMem detached hl, positionsAmong, exposedAmong_eq_nodesOf os hos]
  rfl

lemma starts_eq_of_map_entry (h : ns.map (·.entry) = ms.map (·.entry)) : starts ns = starts ms := by
  have hfilter := congrArg (List.filterMap Entry.position) h
  rwa [List.filterMap_map, List.filterMap_map] at hfilter

lemma firstStart_le (h : ∀ p ∈ starts ns, .loc p < next) : firstStart next ns ≤ next :=
  head?_elim_le fun p hp => le_of_lt (h p hp)

/-- A node with a place of its own before what follows it matches the cursors in between. -/
lemma matches_place_iff (detached : LabelSet) {s : Surroundings}
    (h : ∀ p ∈ o.entry.position, .loc p < s.next) : (o.place detached s).Matches (.loc cursor) ↔
      (o.place detached s).StartsBefore cursor ∧ .loc cursor < s.next := by
  have hspan {p : LineCol} (hp : o.entry.position = some p) :
      (o.place detached s).span = some ⟨.loc p, s.next⟩ :=
    span_place_of_lt (first?_of_position hp) (h p hp)
  unfold StartsBefore
  rw [place_entry]
  constructor
  · intro hmatch
    obtain ⟨p, hp⟩ := Option.isSome_iff_exists.mp hmatch.1
    rw [place_entry] at hp
    obtain ⟨-, hstart, hstop⟩ := (matches_iff_of_span (hspan hp)).mp hmatch
    exact ⟨⟨p, hp, Position.loc_lt_loc.mp hstart⟩, hstop⟩
  · rintro ⟨⟨p, hp, hlt⟩, hstop⟩
    refine (matches_iff_of_span (hspan hp)).mpr ⟨?_, Position.loc_lt_loc.mpr hlt, hstop⟩
    rw [place_entry, show o.entry.position = some p from hp, Option.isSome_some]

mutual

theorem at?_place (s : Surroundings) : ∀ o : Outline,
    (∀ n ∈ o.nodes, n.entry.label ∉ detached) → Ascends s.next o.nodes →
    cursor ∉ starts o.nodes → (o.place detached s).at? (.loc cursor) =
      if .loc cursor < s.next then lastBefore? cursor (o.place detached s).nodes else none
  | ⟨entry, span, outOfOrder, children⟩, hl, h, hcursor => by
    set o : Outline := ⟨entry, span, outOfOrder, children⟩ with ho
    have hnodes : o.nodes = [o] ++ nodesOf children := rfl
    have hself : (o.place detached s).Matches (.loc cursor) ↔
        (o.place detached s).StartsBefore cursor ∧ .loc cursor < s.next :=
      matches_place_iff detached fun p hp =>
        h.bounded p (mem_starts.mpr ⟨o, self_mem_nodes o, hp⟩)
    rw [hnodes] at h
    rw [hnodes, starts_append] at hcursor
    have hchildren := findSome?_placeAll s.next (o.spanIn detached s) (hl o (self_mem_nodes o))
      children (fun n hn => hl n (List.mem_cons_of_mem _ hn)) h.right
      (fun hmem => hcursor (List.mem_append_right _ hmem))
    rw [at?_eq, nodes_eq, ← List.singleton_append, lastBefore?_append, lastBefore?_singleton,
      place_children, show o.children = children from rfl, hchildren]
    by_cases hlt : .loc cursor < s.next
    · rw [if_pos hlt, if_pos hlt]
      simp only [hself, hlt, and_true]
    · rw [if_neg hlt, if_neg hlt, if_neg fun hmatch => hlt (hself.mp hmatch).2]
      rfl

/-- Siblings select what is the last start in them: the ones after the first sibling have none
before the cursor, or the cursor is not in the first sibling. -/
lemma findSome?_placeAll (next : Position) (span : Span) {label : String}
    (hlabel : label ∉ detached) : ∀ os : List Outline,
      (∀ n ∈ nodesOf os, n.entry.label ∉ detached) → Ascends next (nodesOf os) →
      cursor ∉ starts (nodesOf os) →
        (placeAll detached next label span os).findSome? (·.at? (.loc cursor)) =
          if .loc cursor < next then
            lastBefore? cursor (nodesOf (placeAll detached next label span os))
          else none
  | [], _, _, _ => by
    rw [placeAll, List.findSome?_nil]
    exact (ite_self _).symm
  | o :: os, hl, h, hcursor => by
    rw [nodesOf] at h
    rw [nodesOf, starts_append, List.mem_append, not_or] at hcursor
    have hlo : ∀ n ∈ o.nodes, n.entry.label ∉ detached :=
      fun n hn => hl n (List.mem_append_left _ hn)
    have hlos : ∀ n ∈ nodesOf os, n.entry.label ∉ detached :=
      fun n hn => hl n (List.mem_append_right _ hn)
    have hfirst := at?_place ⟨firstStart next (nodesOf os), span⟩ o hlo h.left hcursor.1
    have hlater := findSome?_placeAll next span hlabel os hlos h.right hcursor.2
    set later := placeAll detached next label span os with hdef
    have hstarts : starts (nodesOf later) = starts (nodesOf os) :=
      starts_eq_of_map_entry (map_entry_nodesOf_placeAll detached next label span os)
    rw [placeAll, nextBefore_eq_firstStart hlabel hlos, ← hdef, nodesOf, lastBefore?_append,
      ← List.singleton_append, List.findSome?_append, List.findSome?_singleton, hfirst, hlater]
    have hle : firstStart next (nodesOf os) ≤ next := firstStart_le h.right.bounded
    by_cases hlt : .loc cursor < next
    · have hnone : lastBefore? cursor (nodesOf later) = none ↔
          .loc cursor < firstStart next (nodesOf os) := by
        rw [lastBefore?_eq_none, hstarts, ← lastBefore?_eq_none]
        exact lastBefore?_eq_none_iff h.right.sorted hcursor.2 hlt
      rw [if_pos hlt, if_pos hlt]
      by_cases hbefore : .loc cursor < firstStart next (nodesOf os)
      · rw [if_pos hbefore, hnone.mpr hbefore, Option.or_none, Option.none_or]
      · obtain ⟨n, hn⟩ := Option.ne_none_iff_exists'.mp (mt hnone.mp hbefore)
        rw [if_neg hbefore, hn, Option.none_or, Option.some_or]
    · rw [if_neg hlt, if_neg hlt, if_neg fun hbefore => hlt (lt_of_lt_of_le hbefore hle)]
      rfl

end

/-- In an outline without detached nodes whose own positions ascend up to the end of the document,
a cursor that stands at none of them selects the last node that starts before it. It selects
nothing if there is no such node or the cursor is not before the end. -/
theorem at?_resolve_eq_lastBefore? {documentEnd : Position}
    (hl : ∀ n ∈ o.nodes, n.entry.label ∉ detached) (h : Ascends documentEnd o.nodes)
    (hcursor : cursor ∉ starts o.nodes) :
    let r := o.resolve detached documentEnd
    r.at? (.loc cursor) = if .loc cursor < documentEnd then lastBefore? cursor r.nodes else none := by
  intro r
  have hr : r = o.place detached (.ofDocument documentEnd) := resolve_eq_place _ _ _
  rw [hr]
  exact at?_place (.ofDocument documentEnd) o hl h hcursor

/-- The cursor stands after both arguments of a call that starts where its function does, and before
the next statement. -/
theorem at?_resolve_eq_lastBefore?_call :
    let name (fields : List (String × Node)) (line column : UInt32) : Node :=
      .composite "Name" fields (some ⟨line, column⟩)
    let o := ofTree "tree" (.composite "Module"
      [("body", .sequence .list
        [.composite "Expr" [("value", .composite "Call"
            [("func", name [("ctx", .composite "Load" [] none)] 2 0),
              ("args", .sequence .list [name [] 2 2, name [] 2 5])] (some ⟨2, 0⟩))] (some ⟨2, 0⟩),
          .composite "Pass" [] (some ⟨3, 0⟩)])] none)
    (∀ n ∈ o.nodes, n.entry.label ∉ LabelSet.detached) ∧ Ascends (.loc ⟨4, 0⟩) o.nodes ∧
      (⟨2, 9⟩ : LineCol) ∉ starts o.nodes ∧
      let r := o.resolve .detached (.loc ⟨4, 0⟩)
      r.at? (.loc ⟨2, 9⟩) =
        if (.loc ⟨2, 9⟩ : Position) < .loc ⟨4, 0⟩ then lastBefore? ⟨2, 9⟩ r.nodes else none := by
  intro name o
  have hl : ∀ n ∈ o.nodes, n.entry.label ∉ LabelSet.detached := by decide
  have h : Ascends (.loc ⟨4, 0⟩) o.nodes :=
    ⟨by decide, separated_of_getElem (by decide), by decide⟩
  have hcursor : (⟨2, 9⟩ : LineCol) ∉ starts o.nodes := by decide
  exact ⟨hl, h, hcursor, at?_resolve_eq_lastBefore? hl h hcursor⟩

end SyntaxLens.Outline
