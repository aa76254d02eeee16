import Mathlib.Tactic.Common
import SyntaxLens.Proofs.Outline.Nesting

/-!
# Detached nodes

What a detached node holds below it has no bearing on the rest of an outline. `prune` cuts it off,
and outlines that are the same when they are pruned are still so once they are resolved: finding
spans commutes with pruning.
-/

namespace SyntaxLens.Outline

mutual

/-- The outline without what its detached nodes hold below them. -/
def prune (detached : LabelSet) : Outline → Outline
  | ⟨entry, span, outOfOrder, children⟩ =>
    ⟨entry, span, outOfOrder, if entry.label ∈ detached then [] else pruneAll detached children⟩

def pruneAll (detached : LabelSet) : List Outline → List Outline
  | [] => []
  | o :: os => o.prune detached :: pruneAll detached os

end

/-- The exposed node at the end of a route: no node above it is detached. -/
def exposedAt? (detached : LabelSet) (o : Outline) : List Nat → Option Outline
  | [] => some o
  | i :: route =>
    if o.entry.label ∈ detached then none
    else o.children[i]?.bind fun child => child.exposedAt? detached route

variable (detached : LabelSet)

lemma prune_eq (o : Outline) : o.prune detached = ⟨o.entry, o.span, o.outOfOrder,
    if o.entry.label ∈ detached then [] else pruneAll detached o.children⟩ := by
  cases o
  rfl

@[simp] lemma prune_entry (o : Outline) : (o.prune detached).entry = o.entry := by
  rw [prune_eq]

lemma pruneAll_eq_map (os : List Outline) : pruneAll detached os = os.map (prune detached) := by
  induction os with
  | nil => rfl
  | cons o os ih => rw [pruneAll, ih, List.map_cons]

lemma exposedAt?_cons_of_notMem {o : Outline} (h : o.entry.label ∉ detached) (i : Nat)
    (route : List Nat) : o.exposedAt? detached (i :: route) =
      o.children[i]?.bind fun child => child.exposedAt? detached route := by
  rw [exposedAt?, if_neg h]

lemma exists_child_of_exposedAt? {o n : Outline} {i : Nat} {route : List Nat}
    (h : o.exposedAt? detached (i :: route) = some n) : o.entry.label ∉ detached ∧
      ∃ c, o.children[i]? = some c ∧ c.exposedAt? detached route = some n := by
  by_cases hl : o.entry.label ∈ detached
  · rw [exposedAt?, if_pos hl] at h
    cases h
  · rw [exposedAt?_cons_of_notMem detached hl] at h
    exact ⟨hl, Option.bind_eq_some_iff.mp h⟩

theorem mem_exposed_iff_exposedAt? {n o : Outline} :
    n ∈ o.exposed detached ↔ ∃ route, o.exposedAt? detached route = some n := by
  induction o using induction with
  | node entry span outOfOrder children ih =>
    set o : Outline := ⟨entry, span, outOfOrder, children⟩ with ho
    rw [mem_exposed]
    constructor
    · rintro (rfl | ⟨hl, c, hc, hn⟩)
      · exact ⟨[], rfl⟩
      · obtain ⟨route, hroute⟩ := (ih c hc).mp hn
        obtain ⟨i, hi⟩ := List.mem_iff_getElem?.mp hc
        refine ⟨i :: route, ?_⟩
        rw [exposedAt?_cons_of_notMem detached hl, show o.children[i]? = some c from hi]
        exact hroute
    · rintro ⟨route, hroute⟩
      cases route with
      | nil => exact .inl (Option.some.inj hroute).symm
      | cons i route =>
        obtain ⟨hl, c, hc, hn⟩ := exists_child_of_exposedAt? detached hroute
        have hmem : c ∈ children := List.mem_of_getElem? hc
        exact .inr ⟨hl, c, hmem, (ih c hmem).mpr ⟨route, hn⟩⟩

lemma exposedAt?_prune (o : Outline) (route : List Nat) :
    (o.prune detached).exposedAt? detached route =
      (o.exposedAt? detached route).map (prune detached) := by
  induction route generalizing o with
  | nil => rfl
  | cons i route ih =>
    by_cases hl : o.entry.label ∈ detached
    · rw [exposedAt?, exposedAt?, prune_entry, if_pos hl, if_pos hl]
      rfl
    · have hchildren : (o.prune detached).children = o.children.map (prune detached) := by
        rw [prune_eq, ← pruneAll_eq_map]
        exact if_neg hl
      have hl' : (o.prune detached).entry.label ∉ detached := by rwa [prune_entry]
      rw [exposedAt?_cons_of_notMem detached hl, exposedAt?_cons_of_notMem detached hl',
        hchildren, List.getElem?_map]
      cases o.children[i]? with
      | none => rfl
      | some c => exact ih c

mutual

lemma first?_prune : ∀ o : Outline, (o.prune detached).first? detached = o.first? detached
  | ⟨entry, span, outOfOrder, children⟩ => by
    rw [prune, first?, first?]
    by_cases h : entry.label ∈ detached
    · rw [if_pos h, if_pos h]
    · rw [if_neg h, if_neg h, if_neg h, firstAmong?_pruneAll children]

lemma firstAmong?_pruneAll : ∀ os : List Outline,
    firstAmong? detached (pruneAll detached os) = firstAmong? detached os
  | [] => rfl
  | o :: os => by
    rw [pruneAll, firstAmong?, firstAmong?, first?_prune o, firstAmong?_pruneAll os]

end

lemma spanIn_prune (s : Surroundings) (o : Outline) :
    (o.prune detached).spanIn detached s = o.spanIn detached s := by
  unfold spanIn startIn
  rw [first?_prune]

lemma nextBefore_pruneAll (next : Position) (label : String) (later : List Outline) :
    nextBefore detached next label (pruneAll detached later) =
      nextBefore detached next label later := by
  unfold nextBefore startAmong
  rw [← firstAmong?_eq_findSome?, ← firstAmong?_eq_findSome?, firstAmong?_pruneAll]

lemma place_eq (s : Surroundings) (o : Outline) : o.place detached s =
    ⟨o.entry, some (o.spanIn detached s), decide (o.spanIn detached s).IsInverted,
      placeAll detached s.next o.entry.label (o.spanIn detached s) o.children⟩ := by
  cases o
  rfl

mutual

/-- Pruning may come before or after the spans are found. -/
theorem place_prune (s : Surroundings) : ∀ o : Outline,
    (o.prune detached).place detached s = (o.place detached s).prune detached
  | ⟨entry, span, outOfOrder, children⟩ => by
    rw [place_eq, prune_eq detached (place _ _ _), prune_entry, spanIn_prune, place_span,
      place_outOfOrder, place_entry, place_children, prune]
    by_cases h : entry.label ∈ detached
    · rw [if_pos h, if_pos h, placeAll]
    · rw [if_neg h, if_neg h, placeAll_pruneAll]

lemma placeAll_pruneAll (next : Position) (label : String) (parentSpan : Span) :
    ∀ os : List Outline, placeAll detached next label parentSpan (pruneAll detached os) =
      pruneAll detached (placeAll detached next label parentSpan os)
  | [] => rfl
  | o :: os => by
    rw [pruneAll, placeAll, placeAll, pruneAll, nextBefore_pruneAll, place_prune,
      placeAll_pruneAll]

end

/-- Two outlines that differ only below detached nodes have the same spans and marks everywhere
else after their spans are found. -/
theorem resolve_congr_outside_detached {o o' : Outline}
    (h : o.prune detached = o'.prune detached) (documentEnd : Position) :
    let r := o.resolve detached documentEnd
    let r' := o'.resolve detached documentEnd
    r.prune detached = r'.prune detached ∧
      ∀ route, (r.exposedAt? detached route).map (fun n => (n.span, n.outOfOrder)) =
        (r'.exposedAt? detached route).map (fun n => (n.span, n.outOfOrder)) := by
  intro r r'
  have hpruned : r.prune detached = r'.prune detached := by
    simp only [r, r', resolve_eq_place, ← place_prune, h]
  refine ⟨hpruned, fun route => ?_⟩
  have hspan : (fun n : Outline => (n.span, n.outOfOrder)) =
      (fun n => (n.span, n.outOfOrder)) ∘ prune detached := by
    funext n
    simp only [Function.comp_apply, prune_eq]
  have hat := congrArg (fun o => (o.exposedAt? detached route).map
    (fun n : Outline => (n.span, n.outOfOrder))) hpruned
  simp only [exposedAt?_prune, Option.map_map] at hat
  rwa [hspan]

/-- The decorators of a function are taken away, one of which stands after its body. -/
theorem resolve_congr_outside_decorators :
    let function (decorators : List Node) := ofTree "tree" (.composite "FunctionDef"
      [("decorator_list", .sequence .list decorators),
        ("body", .sequence .list [.composite "Pass" [] (some ⟨3, 4⟩)])] none)
    let o := function [.composite "Name" [] (some ⟨1, 1⟩), .composite "Name" [] (some ⟨9, 0⟩)]
    let o' := function []
    o.prune .detached = o'.prune .detached ∧
      (let r := o.resolve .detached (.loc ⟨4, 0⟩)
      let r' := o'.resolve .detached (.loc ⟨4, 0⟩)
      r.prune .detached = r'.prune .detached ∧
        ∀ route, (r.exposedAt? .detached route).map (fun n => (n.span, n.outOfOrder)) =
          (r'.exposedAt? .detached route).map (fun n => (n.span, n.outOfOrder))) := by
  intro function o o'
  have h : o.prune .detached = o'.prune .detached := by rfl
  exact ⟨h, resolve_congr_outside_detached .detached h (.loc ⟨4, 0⟩)⟩

end SyntaxLens.Outline
