import Mathlib.Tactic.Common
import SyntaxLens.Proofs.Dump.Wording
import SyntaxLens.Proofs.Outline.Building
import SyntaxLens.Proofs.Outline.Paths

namespace SyntaxLens

open Text

/-- All texts of the entry fit a line. -/
structure Entry.FitsLine (e : Entry) : Prop where
  label : Text.FitsLine e.label.toList
  typeName : Text.FitsLine e.typeName.toList
  valueText : Text.FitsLine e.valueText.toList
  path : Text.FitsLine e.path.toList
  caption : Text.FitsLine e.caption.toList

lemma Entry.caption_ne_nil (e : Entry) : e.caption.toList ≠ [] := by
  rw [caption, String.toList_append, String.toList_append]
  exact List.append_ne_nil_of_left_ne_nil (List.append_ne_nil_of_right_ne_nil _ (by decide)) _

namespace Outline

lemma fitsLine_caption {label text : String} (hlabel : FitsLine label.toList)
    (htext : FitsLine text.toList) (hne : text.toList ≠ []) :
    FitsLine (label ++ " = " ++ text).toList := by
  rw [String.toList_append, String.toList_append]
  exact hlabel.join (by decide) htext hne

lemma fitsLine_fieldPath {path name : String} (hpath : FitsLine path.toList) (hname : IsName name) :
    FitsLine (fieldPath path name).toList := by
  obtain ⟨hne, hvisible⟩ := Dump.isVisible_of_isName hname
  unfold fieldPath
  split
  · exact hvisible.fitsLine
  · rw [String.toList_append, String.toList_append]
    exact hpath.join (by decide) hvisible.fitsLine hne

lemma fitsLine_indexed {s : String} (h : FitsLine s.toList) (i : Nat) :
    FitsLine (indexed s i).toList := by
  have hindex : IsVisible ('[' :: (Nat.toDigits 10 i ++ [']'])) := by
    rw [isVisible_cons, isVisible_append]
    exact ⟨rfl, isVisible_of_isDigit Numeral.isDigit_of_mem_toDigits, by decide⟩
  rw [toList_indexed]
  exact hindex.fitsLine.append_left (List.cons_ne_nil _ _) h.oneLine

theorem fitsLine_ofNode {label path : String} {v : Node} (hv : v.FitsLine)
    (hlabel : FitsLine label.toList) (hpath : FitsLine path.toList) {n : Outline}
    (hn : n ∈ (ofNode label path v).nodes) : n.entry.FitsLine := by
  induction hv generalizing label path with
  | @composite typeName fields position htype hnames hvalues ih =>
    rcases mem_nodes.mp hn with rfl | ⟨c, hc, hn⟩
    · obtain ⟨hne, hvisible⟩ := Dump.isVisible_of_isName htype
      exact ⟨hlabel, hvisible.fitsLine, fitsLine_nil, hpath,
        fitsLine_caption hlabel hvisible.fitsLine hne⟩
    · obtain ⟨f, hmem, rfl⟩ := mem_ofFields hc
      have hname := hnames f hmem
      have hlabel' := (Dump.isVisible_of_isName hname).2.fitsLine
      exact ih f hmem hlabel' (fitsLine_fieldPath hpath hname) hn
  | @sequence kind items hi ih =>
    rcases mem_nodes.mp hn with rfl | ⟨c, hc, hn⟩
    · have htype : kind.typeName.toList ≠ [] ∧ IsVisible kind.typeName.toList := by
        cases kind <;> decide
      exact ⟨hlabel, htype.2.fitsLine, fitsLine_nil, hpath,
        fitsLine_caption hlabel htype.2.fitsLine htype.1⟩
    · obtain ⟨w, hmem, j, -, rfl⟩ := mem_ofItems hc
      exact ih w hmem (fitsLine_indexed hlabel j) (fitsLine_indexed hpath j) hn
  | @scalar value h =>
    rcases mem_nodes.mp hn with rfl | ⟨c, hc, hn⟩
    · exact ⟨hlabel, h.typeName, h.text, hpath, fitsLine_caption hlabel h.text h.text_ne_nil⟩
    · exact absurd hc List.not_mem_nil

end Outline

end SyntaxLens
