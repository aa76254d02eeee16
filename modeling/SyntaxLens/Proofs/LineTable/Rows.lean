import Mathlib.Tactic.Common
import SyntaxLens.Proofs.LineTable.Offsets

/-!
# Lines and their breaks

No line of a text holds a character of a line break, and each but the last one is closed by a break.
A carriage return closes a line by itself only if no line feed follows it.
-/

namespace SyntaxLens

/-- The word breaks a line in front of the rest of a text. -/
inductive BreaksLine : List Char → List Char → Prop
  | lf (rest : List Char) : BreaksLine ['\n'] rest
  | crlf (rest : List Char) : BreaksLine ['\r', '\n'] rest
  | cr {rest : List Char} (h : rest.head? ≠ some '\n') : BreaksLine ['\r'] rest

/-- No character of the text breaks a line. -/
def Unbroken (cs : List Char) : Prop :=
  '\n' ∉ cs ∧ '\r' ∉ cs

/-- Lines that are not broken, each but the last one with the break that closes it. -/
inductive Parted : List Row → Prop
  | last {line : List Char} (h : Unbroken line) : Parted [⟨line, .none⟩]
  | closed {row : Row} {rows : List Row} (hline : Unbroken row.chars)
    (hbreak : BreaksLine row.ending.chars (textOfRows rows)) (h : Parted rows) :
    Parted (row :: rows)

variable {rows : List Row}

lemma BreaksLine.ending_ne_none {ending : LineBreak} {rest : List Char}
    (h : BreaksLine ending.chars rest) : ending ≠ .none := by
  rintro rfl
  cases h

lemma unbroken_nil : Unbroken [] :=
  ⟨List.not_mem_nil, List.not_mem_nil⟩

lemma Unbroken.cons {cs : List Char} {c : Char} (h : Unbroken cs) (hlf : c ≠ '\n')
    (hcr : c ≠ '\r') : Unbroken (c :: cs) :=
  ⟨List.not_mem_cons_of_ne_of_not_mem hlf.symm h.1,
    List.not_mem_cons_of_ne_of_not_mem hcr.symm h.2⟩

lemma Parted.push {c : Char} (h : Parted rows) (hlf : c ≠ '\n') (hcr : c ≠ '\r') :
    Parted (pushChar c rows) := by
  cases h with
  | last hline => exact .last (hline.cons hlf hcr)
  | closed hline hbreak h => exact .closed (hline.cons hlf hcr) hbreak h

theorem parted_rowsOf (cs : List Char) : Parted (rowsOf cs) := by
  induction cs using rowsOf.induct with
  | case1 => exact .last unbroken_nil
  | case2 cs ih => exact .closed unbroken_nil (.lf _) ih
  | case3 cs ih => exact .closed unbroken_nil (.crlf _) ih
  | case4 cs hlf ih =>
    rw [rowsOf]
    · -- a line feed after the carriage return would have been part of the break
      refine .closed unbroken_nil (.cr ?_) ih
      rw [textOfRows_rowsOf]
      intro hhead
      obtain ⟨rest, rfl⟩ := List.head?_eq_some_iff.mp hhead
      exact hlf rest rfl
    · exact hlf
  | case5 c cs hlf hcrlf hcr ih =>
    rw [rowsOf]
    · exact ih.push hlf hcr
    · exact hlf
    · exact hcrlf
    · exact hcr

end SyntaxLens
