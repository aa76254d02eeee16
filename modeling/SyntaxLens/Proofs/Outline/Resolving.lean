import SyntaxLens.Outline.Resolve
import SyntaxLens.Proofs.Outline.Routes

/-!
# Resolving again

The spans of an outline and the marks of its nodes are found from its entries alone. Nothing is left
of the spans that were found before, and all but spans and marks stays as it is. `bare` is what stays.
-/

namespace SyntaxLens.Outline

mutual

/-- An outline with no spans found and no nodes marked. -/
def bare : Outline → Outline
  | ⟨entry, _, _, children⟩ => ⟨entry, none, false, bareAll children⟩

def bareAll : List Outline → List Outline
  | [] => []
  | child :: children => child.bare :: bareAll children

end

/-- An outline after its spans were found several times, each time with other detached fields and
another end of the document. -/
def resolveTimes (o : Outline) (runs : List (LabelSet × Position)) : Outline :=
  runs.foldl (fun o run => o.resolve run.1 run.2) o

variable (detached : LabelSet) (documentEnd next : Position)

mutual

lemma seed_bare (next : Position) :
    ∀ o : Outline, o.bare.seed detached next = o.seed detached next
  | ⟨entry, span, outOfOrder, children⟩ => by
    have hchildren := seedAll_bareAll (entry.label ∉ detached) next children
    rw [bare, seed, seed, hchildren]

lemma seedAll_bareAll (adopt : Bool) (next : Position) :
    ∀ os : List Outline, seedAll detached adopt next (bareAll os) = seedAll detached adopt next os
  | [] => rfl
  | o :: os => by
    have hos := seedAll_bareAll adopt next os
    rw [bareAll, seedAll, seedAll, hos]
    simp only [seed_bare]

end

lemma resolve_bare (o : Outline) :
    o.bare.resolve detached documentEnd = o.resolve detached documentEnd := by
  rw [resolve, resolve, seed_bare]

mutual

lemma bare_seed (next : Position) : ∀ o : Outline, (o.seed detached next).1.bare = o.bare
  | ⟨entry, span, outOfOrder, children⟩ => by
    have hchildren := bareAll_seedAll (entry.label ∉ detached) next children
    simp only [seed, bare, hchildren]

lemma bareAll_seedAll (adopt : Bool) (next : Position) :
    ∀ os : List Outline, bareAll (seedAll detached adopt next os).1 = bareAll os
  | [] => rfl
  | o :: os => by
    have hos := bareAll_seedAll adopt next os
    simp only [seedAll, bareAll, hos, bare_seed]

end

mutual

lemma bare_fill (inherited : Span) : ∀ o : Outline, (o.fill inherited).bare = o.bare
  | ⟨entry, none, outOfOrder, children⟩ => by
    rw [fill, bare, bare, bareAll_fillAll]
  | ⟨entry, some span, outOfOrder, children⟩ => by
    rw [fill, bare, bare, bareAll_fillAll]

lemma bareAll_fillAll (inherited : Span) :
    ∀ os : List Outline, bareAll (fillAll inherited os) = bareAll os
  | [] => rfl
  | o :: os => by
    rw [fillAll, bareAll, bareAll, bare_fill, bareAll_fillAll]

end

lemma bare_resolve (o : Outline) : (o.resolve detached documentEnd).bare = o.bare := by
  rw [resolve, bare_fill, bare_seed]

lemma bare_resolveTimes (o : Outline) (runs : List (LabelSet × Position)) :
    (o.resolveTimes runs).bare = o.bare := by
  induction runs generalizing o with
  | nil => rfl
  | cons run runs ih =>
    have hrest := ih (o.resolve run.1 run.2)
    rw [bare_resolve] at hrest
    exact hrest

lemma resolve_congr {o o' : Outline} (h : o.bare = o'.bare) :
    o.resolve detached documentEnd = o'.resolve detached documentEnd := by
  rw [← resolve_bare, h, resolve_bare]

/-- Outlines that agree but for spans and marks are equal once their spans are found. So finding
the spans forgets those found in earlier runs, and doing it twice is the same as doing it once. All
but spans and marks stays as it was. -/
theorem resolve_eq_of_bare_eq {o o' : Outline} (h : o.bare = o'.bare) :
    o.resolve detached documentEnd = o'.resolve detached documentEnd ∧
      (∀ runs, (o.resolveTimes runs).resolve detached documentEnd =
        o.resolve detached documentEnd) ∧
      (o.resolve detached documentEnd).resolve detached documentEnd =
        o.resolve detached documentEnd ∧
      (o.resolve detached documentEnd).bare = o.bare := by
  have hagain (runs : List (LabelSet × Position)) :
      (o.resolveTimes runs).resolve detached documentEnd = o.resolve detached documentEnd :=
    resolve_congr detached documentEnd (bare_resolveTimes o runs)
  refine ⟨resolve_congr detached documentEnd h, hagain, ?_, bare_resolve detached documentEnd o⟩
  exact hagain [(detached, documentEnd)]

/-- An outline whose spans were first found in an empty document, where that of the root is inverted,
with no field detached. -/
theorem resolve_eq_of_bare_eq_out_of_order :
    let o := ofTree "tree" (.composite "FunctionDef"
      [("decorator_list", .sequence .list [.composite "Name" [] (some ⟨1, 1⟩)]),
        ("body", .sequence .list [.composite "Pass" [] (some ⟨3, 4⟩)])] (some ⟨2, 0⟩))
    let o' := o.resolve (.ofList []) (.loc ⟨1, 0⟩)
    (o'.outOfOrder = true ∧ o.bare = o'.bare) ∧
      o.resolve .detached (.loc ⟨4, 0⟩) = o'.resolve .detached (.loc ⟨4, 0⟩) ∧
      (o.resolve .detached (.loc ⟨4, 0⟩)).bare = o.bare := by
  intro o o'
  have hinverted : o'.outOfOrder = true := by decide
  have h : o.bare = o'.bare := by rfl
  obtain ⟨heq, -, -, hbare⟩ := resolve_eq_of_bare_eq .detached (.loc ⟨4, 0⟩) h
  exact ⟨⟨hinverted, h⟩, heq, hbare⟩

end SyntaxLens.Outline
