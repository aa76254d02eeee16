import Mathlib
import SyntaxLens.Proofs.LineTable.Offsets
import SyntaxLens.Proofs.Outline.Building
import SyntaxLens.Proofs.Outline.Lookup
import SyntaxLens.Proofs.Outline.Placement
import SyntaxLens.Viewer

/-!
# Selecting in a loaded tree

A cursor lies in what is highlighted for the node that it selects. The dump need not belong to the
source text: its lines start at one, spans start where a node does, and offsets keep the order of
positions.
-/

namespace SyntaxLens

variable {config : Config} {source dump label : String} {t : SourceTree}

lemma load_cases (h : load config source dump label = .ok t) :
    ∃ tree, Dump.read dump = .ok tree ∧ t.source = LineTable.ofText source ∧
      t.root = (Outline.ofTree label tree).resolve config.detached
        (.loc (LineTable.ofText source).endOfDocument) := by
  rw [load] at h
  cases hread : Dump.read dump with
  | error ds => simp only [hread] at h; cases h
  | ok tree =>
    simp only [hread] at h
    cases h
    exact ⟨tree, rfl, rfl, rfl⟩

theorem isNumbered_start_of_load (h : load config source dump label = .ok t) {n : Outline}
    (hn : n ∈ t.root.nodes) : ∃ span, n.span = some span ∧ span.start.IsNumbered := by
  obtain ⟨tree, hread, -, hroot⟩ := load_cases h
  have hnum := Dump.isNumbered_read hread
  rw [hroot] at hn
  obtain ⟨span, hspan, hstart | ⟨m, hm, p, hp, hstart⟩⟩ := Outline.start_of_mem_resolve hn
  · refine ⟨span, hspan, fun q hq => ?_⟩
    rw [hstart] at hq
    cases hq
  · refine ⟨span, hspan, fun q hq => ?_⟩
    rw [hstart] at hq
    cases hq
    exact Outline.one_le_line_ofNode hnum hm hp

/-- A selected node has a span that is not inverted, and the offset of the cursor lies in the bytes
that are highlighted for the node. -/
theorem offset_mem_highlight (ht : load config source dump label = .ok t) {cursor : LineCol}
    (hc : 1 ≤ cursor.line) {n : Outline} (hn : t.select? cursor = some n) :
    ∃ span range, n.span = some span ∧ ¬span.IsInverted ∧ t.highlight? n = some range ∧
      range.start ≤ t.source.offset (.loc cursor) ∧
      t.source.offset (.loc cursor) ≤ range.stop := by
  obtain ⟨hmem, hmatch⟩ := Outline.matches_of_at? hn
  obtain ⟨span, hspan, hstart, hstop⟩ := hmatch.exists_span
  obtain ⟨span', hspan', hnum⟩ := isNumbered_start_of_load ht hmem
  rw [hspan] at hspan'
  cases hspan'
  obtain ⟨tree, -, hsource, -⟩ := load_cases ht
  have hcursor : Position.IsNumbered (.loc cursor) := fun p hp => by cases hp; exact hc
  refine ⟨span, t.source.range span, hspan, ?_, ?_, ?_, ?_⟩
  · exact Span.not_isInverted_iff.mpr (le_of_lt (lt_trans hstart hstop))
  · rw [SourceTree.highlight?, hspan]
    rfl
  · rw [hsource]
    exact Nat.le_trans (Nat.min_le_left _ _) (LineTable.offset_mono hnum (le_of_lt hstart))
  · rw [hsource]
    exact Nat.le_trans (LineTable.offset_mono hcursor (le_of_lt hstop)) (Nat.le_max_right _ _)

/-- A cursor within a character of two bytes. -/
theorem offset_mem_highlight_within_char :
    ∃ t n, load default "é" "Pass(lineno=1)" "tree" = .ok t ∧ t.select? ⟨1, 1⟩ = some n ∧
      ∃ span range, n.span = some span ∧ ¬span.IsInverted ∧ t.highlight? n = some range ∧
        range.start ≤ t.source.offset (.loc ⟨1, 1⟩) ∧
        t.source.offset (.loc ⟨1, 1⟩) ≤ range.stop := by
  let t : SourceTree := ⟨.ofText "é",
    (Outline.ofTree "tree" (.composite "Pass" [] (some ⟨1, 0⟩))).resolve
      (default : Config).detached (.loc (LineTable.ofText "é").endOfDocument)⟩
  have hread : Dump.read "Pass(lineno=1)" = .ok (.composite "Pass" [] (some ⟨1, 0⟩)) := by cbv
  have hload : load default "é" "Pass(lineno=1)" "tree" = .ok t := by rw [load, hread]
  have hselect : t.select? ⟨1, 1⟩ = some ⟨⟨"tree", "Pass", "", "", .composite, some ⟨1, 0⟩⟩,
      some ⟨.loc ⟨1, 0⟩, .loc ⟨1, 2⟩⟩, false, []⟩ := by cbv
  exact ⟨t, _, hload, hselect, offset_mem_highlight hload (by decide) hselect⟩

end SyntaxLens
