import Mathlib
import SyntaxLens.Proofs.Json
import SyntaxLens.Viewer

/-!
# Documents tell their outlines

The text of the document of an outline, in either layout, tells the end of the source text and every
node with all that is known of it. Words stand for the ends of the document and objects for places,
so that a span is told from the one that lacks a bound.
-/

namespace SyntaxLens.Export

lemma placeJson_inj {p q : LineCol} (h : placeJson p = placeJson q) : p = q := by
  simp only [placeJson, Json.object.injEq, List.cons.injEq, Prod.mk.injEq, Json.number.injEq,
    true_and, and_true, UInt32.toNat_inj] at h
  cases p
  cases q
  rw [LineCol.mk.injEq]
  exact h

lemma positionJson_inj {p q : Position} (h : positionJson p = positionJson q) : p = q := by
  cases p with
  | start =>
    cases q with
    | start => rfl
    | loc q => cases h
    | stop => exact absurd (Json.string.inj h) (by decide)
  | loc p =>
    cases q with
    | start => cases h
    | loc q =>
      simp only [positionJson, Json.object.injEq, List.cons.injEq, Prod.mk.injEq, true_and,
        and_true] at h
      rw [placeJson_inj h]
    | stop => cases h
  | stop =>
    cases q with
    | start => exact absurd (Json.string.inj h) (by decide)
    | loc q => cases h
    | stop => rfl

lemma spanJson_inj {s s' : Span} (h : spanJson s = spanJson s') : s = s' := by
  simp only [spanJson, Json.object.injEq, List.cons.injEq, Prod.mk.injEq, true_and, and_true] at h
  cases s
  cases s'
  rw [Span.mk.injEq]
  exact ⟨positionJson_inj h.1, positionJson_inj h.2⟩

lemma kindText_inj {k k' : NodeKind} (h : kindText k = kindText k') : k = k' := by
  cases k <;> cases k' <;> first | rfl | exact absurd h (by decide)

/-- A value that may be missing is told from its document if no value is written as null. -/
lemma elim_null_inj {α : Type} {f : α → Json} (hinj : ∀ {a b}, f a = f b → a = b)
    (hnull : ∀ a, f a ≠ .null) {a b : Option α} (h : a.elim .null f = b.elim .null f) : a = b := by
  cases a with
  | none =>
    cases b with
    | none => rfl
    | some b => exact absurd h.symm (hnull b)
  | some a =>
    cases b with
    | none => exact absurd h (hnull a)
    | some b => rw [hinj h]

mutual

/-- The document of a node tells the node and all below it. -/
theorem outlineJson_inj : ∀ {o o' : Outline}, outlineJson o = outlineJson o' → o = o'
  | ⟨entry, span, outOfOrder, children⟩, ⟨entry', span', outOfOrder', children'⟩, h => by
    simp only [outlineJson, Json.object.injEq, List.cons.injEq, Prod.mk.injEq, Json.string.injEq,
      Json.bool.injEq, Json.array.injEq, true_and, and_true] at h
    obtain ⟨hlabel, htype, hvalue, hpath, hkind, hposition, hspan, hflag, hchildren⟩ := h
    have hentry : entry = entry' := by
      cases entry
      cases entry'
      rw [Entry.mk.injEq]
      exact ⟨hlabel, htype, hvalue, hpath, kindText_inj hkind,
        elim_null_inj placeJson_inj (fun _ h => by cases h) hposition⟩
    rw [hentry, elim_null_inj spanJson_inj (fun _ h => by cases h) hspan, hflag,
      outlinesJson_inj hchildren]

theorem outlinesJson_inj : ∀ {os os' : List Outline}, outlinesJson os = outlinesJson os' → os = os'
  | [], [], _ => rfl
  | [], _ :: _, h => by cases h
  | _ :: _, [], h => by cases h
  | o :: os, o' :: os', h => by
    rw [outlinesJson, outlinesJson] at h
    rw [outlineJson_inj (List.cons.inj h).1, outlinesJson_inj (List.cons.inj h).2]

end

theorem document_inj {layout : Json.Layout} {documentEnd documentEnd' : LineCol} {o o' : Outline}
    (h : document layout documentEnd o = document layout documentEnd' o') :
    documentEnd = documentEnd' ∧ o = o' := by
  have htext := Json.text_inj ((String.append_left_inj "\n").mp h)
  simp only [documentJson, Json.object.injEq, List.cons.injEq, Prod.mk.injEq, true_and,
    and_true] at htext
  exact ⟨placeJson_inj htext.1, outlineJson_inj htext.2.2⟩

end SyntaxLens.Export

namespace SyntaxLens

lemma eq_of_withinLimit {limit : Option Nat} {s text : String}
    (h : withinLimit limit s = .ok text) : s = text := by
  unfold withinLimit at h
  split at h
  · exact Except.ok.inj h
  · cases h

namespace SourceTree

/-- Trees that are written as the same document, in the same layout, have the same end of their
source texts and are equal in every node. -/
theorem documentText_inj {t t' : SourceTree} {layout : Json.Layout} {limit limit' : Option Nat}
    {text : String} (h : t.documentText layout limit = .ok text)
    (h' : t'.documentText layout limit' = .ok text) :
    t.documentEnd = t'.documentEnd ∧ t.root = t'.root := by
  apply Export.document_inj
  rw [eq_of_withinLimit h, eq_of_withinLimit h']

/-- Two texts of the same length, and two spellings of the same dump. -/
theorem documentText_inj_two_sources :
    ∃ t t' text, load default "x" "Name(id='x', lineno=1)" "tree" = .ok t ∧
      load default "y" "Name(lineno=1, id=\x22x\x22)" "tree" = .ok t' ∧
      t.documentText .pretty none = .ok text ∧ t'.documentText .pretty none = .ok text ∧
      t.documentEnd = t'.documentEnd ∧ t.root = t'.root := by
  let tree : Node := .composite "Name" [("id", .scalar (.str "x"))] (some ⟨1, 0⟩)
  let t : SourceTree := ⟨.ofText "x", (Outline.ofTree "tree" tree).resolve
    (default : Config).detached (.loc (LineTable.ofText "x").endOfDocument)⟩
  let t' : SourceTree := ⟨.ofText "y", (Outline.ofTree "tree" tree).resolve
    (default : Config).detached (.loc (LineTable.ofText "y").endOfDocument)⟩
  have hread : Dump.read "Name(id='x', lineno=1)" = .ok tree := by cbv
  have hread' : Dump.read "Name(lineno=1, id=\x22x\x22)" = .ok tree := by cbv
  have hload : load default "x" "Name(id='x', lineno=1)" "tree" = .ok t := by rw [load, hread]
  have hload' : load default "y" "Name(lineno=1, id=\x22x\x22)" "tree" = .ok t' := by
    rw [load, hread']
  have htext : t.documentText .pretty none = .ok (Export.document .pretty t.documentEnd t.root) :=
    rfl
  have htext' : t'.documentText .pretty none =
      .ok (Export.document .pretty t.documentEnd t.root) := rfl
  exact ⟨t, t', _, hload, hload', htext, htext', documentText_inj htext htext'⟩

end SourceTree

end SyntaxLens
