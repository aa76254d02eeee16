import Mathlib
import SyntaxLens.Position
import SyntaxLens.Proofs.Text.Blank
import SyntaxLens.Proofs.Text.Numeral

/-!
# Places as text

A text is read as a place exactly if it names one: the parts before and after its first colon are
numerals with blank characters around them, and the line is at least one. All other texts are
refused for the first thing that is wrong with them.
-/

namespace SyntaxLens.LineCol

open Text Text.Numeral

/-- The parts of the text around its first colon, each without the blank characters at its ends, are
numerals of the line and the column, and the line is at least one. -/
def Names (s : String) (p : LineCol) : Prop :=
  ∃ before after, s.toList = before ++ ':' :: after ∧ ':' ∉ before ∧
    IsNumeral (trim before) p.line.toNat ∧ IsNumeral (trim after) p.column.toNat ∧ 1 ≤ p.line

/-- What is wrong with a text that names no place. -/
inductive IsRefused (s : String) : ReadError → Prop
  | malformed (h : ':' ∉ s.toList) : IsRefused s (.malformed s)
  | badLine {before after : List Char} (hs : s.toList = before ++ ':' :: after)
    (hc : ':' ∉ before) (h : ∀ w : UInt32, ¬IsNumeral (trim before) w.toNat) :
    IsRefused s (.badLine (String.ofList (trimStart before)))
  | badColumn {before after : List Char} {line : UInt32} (hs : s.toList = before ++ ':' :: after)
    (hc : ':' ∉ before) (hline : IsNumeral (trim before) line.toNat)
    (h : ∀ w : UInt32, ¬IsNumeral (trim after) w.toNat) :
    IsRefused s (.badColumn (String.ofList (trimEnd after)))
  | lineZero {before after : List Char} {column : UInt32} (hs : s.toList = before ++ ':' :: after)
    (hc : ':' ∉ before) (hline : IsNumeral (trim before) 0)
    (hcolumn : IsNumeral (trim after) column.toNat) : IsRefused s (.lineZero s)

variable {s : String} {before after : List Char}

lemma splitColon?_append (after : List Char) (h : ':' ∉ before) :
    splitColon? (before ++ ':' :: after) = some (before, after) := by
  have hne : ∀ c ∈ before, decide (c ≠ ':') = true := by
    intro c hc
    rw [decide_eq_true_eq]
    rintro rfl
    exact h hc
  simp only [splitColon?, List.dropWhile_append_of_pos hne, List.takeWhile_append_of_pos hne]
  simp

lemma splitColon?_eq_none {cs : List Char} (h : ':' ∉ cs) : splitColon? cs = none := by
  have hnil : cs.dropWhile (fun c => decide (c ≠ ':')) = [] := by
    rw [List.dropWhile_eq_nil_iff]
    intro c hc
    rw [decide_eq_true_eq]
    rintro rfl
    exact h hc
  simp only [splitColon?, hnil]

lemma read_of_split (hs : s.toList = before ++ ':' :: after) (hc : ':' ∉ before) : read s =
    match readWord? (trim before) with
    | none => .error (.badLine (String.ofList (trimStart before)))
    | some line =>
      match readWord? (trim after) with
      | none => .error (.badColumn (String.ofList (trimEnd after)))
      | some column => if line = 0 then .error (.lineZero s) else .ok ⟨line, column⟩ := by
  have hcolon : isBlank ':' = false := rfl
  have hstart : ':' ∉ trimStart before := fun h => hc ((List.dropWhile_suffix _).mem h)
  have htrim : trim s.toList = trimStart before ++ ':' :: trimEnd after := by
    rw [hs, trim, trimStart_append_cons before hcolon, trimEnd_append_cons _ hcolon]
  rw [read, htrim, splitColon?_append _ hstart]
  cases hline : readWord? (trim before) with
  | none => simp only [trim_trimStart, hline]
  | some line =>
    cases hcolumn : readWord? (trim after) with
    | none => simp only [trim_trimStart, trim_trimEnd, hline, hcolumn]
    | some column => simp only [trim_trimStart, trim_trimEnd, hline, hcolumn]

lemma read_of_notMem (h : ':' ∉ s.toList) : read s = .error (.malformed s) := by
  have htrim : ':' ∉ trim s.toList := by
    intro hmem
    have hstart := (List.rdropWhile_prefix isBlank _).mem hmem
    exact h ((List.dropWhile_suffix _).mem hstart)
  rw [read, splitColon?_eq_none htrim]

lemma read_spec (s : String) : (∃ p, read s = .ok p ∧ Names s p) ∨
    ∃ e, read s = .error e ∧ IsRefused s e := by
  by_cases hcolon : ':' ∈ s.toList
  · obtain ⟨before, after, hs, hc⟩ := List.eq_append_cons_of_mem hcolon
    have hread := read_of_split hs hc
    cases hline : readWord? (trim before) with
    | none =>
      rw [hline] at hread
      exact .inr ⟨_, hread, .badLine hs hc (readWord?_eq_none_iff.mp hline)⟩
    | some line =>
      have hbefore := readWord?_eq_some_iff.mp hline
      cases hcolumn : readWord? (trim after) with
      | none =>
        simp only [hline, hcolumn] at hread
        exact .inr ⟨_, hread, .badColumn hs hc hbefore (readWord?_eq_none_iff.mp hcolumn)⟩
      | some column =>
        have hafter := readWord?_eq_some_iff.mp hcolumn
        simp only [hline, hcolumn] at hread
        by_cases hzero : line = 0
        · rw [if_pos hzero] at hread
          rw [hzero] at hbefore
          exact .inr ⟨_, hread, .lineZero hs hc hbefore hafter⟩
        · rw [if_neg hzero] at hread
          refine .inl ⟨_, hread, before, after, hs, hc, hbefore, hafter, ?_⟩
          rw [UInt32.le_iff_toNat_le]
          exact Nat.one_le_iff_ne_zero.mpr fun h => hzero (UInt32.toNat_inj.mp h)
  · exact .inr ⟨_, read_of_notMem hcolon, .malformed hcolon⟩

lemma read_of_names {p : LineCol} (h : Names s p) : read s = .ok p := by
  obtain ⟨before, after, hs, hc, hline, hcolumn, hone⟩ := h
  have hzero : p.line ≠ 0 := by
    intro h
    rw [h] at hone
    exact absurd hone (by decide)
  rw [read_of_split hs hc, readWord?_eq_some_iff.mpr hline]
  simp only [readWord?_eq_some_iff.mpr hcolumn, if_neg hzero]

lemma names_surrounded {p : LineCol} (hp : 1 ≤ p.line) {a b c d : List Char} (ha : IsBlank a)
    (hb : IsBlank b) (hc : IsBlank c) (hd : IsBlank d) :
    Names (String.ofList (a ++ (Nat.toDigits 10 p.line.toNat ++ b) ++
      ':' :: (c ++ (Nat.toDigits 10 p.column.toNat ++ d)))) p := by
  have hdigits (n : Nat) : IsVisible (Nat.toDigits 10 n) :=
    isVisible_of_isDigit isDigit_of_mem_toDigits
  have hcolon : ':' ∉ a ++ (Nat.toDigits 10 p.line.toNat ++ b) := by
    intro hmem
    rcases List.mem_append.mp hmem with hmem | hmem
    · exact absurd (ha ':' hmem) (by decide)
    rcases List.mem_append.mp hmem with hmem | hmem
    · exact absurd (isDigit_of_mem_toDigits ':' hmem) (by decide)
    · exact absurd (hb ':' hmem) (by decide)
  refine ⟨_, _, String.toList_ofList, hcolon, ?_, ?_, hp⟩
  · rw [trim_surrounded ha hb (hdigits _)]
    exact isNumeral_toDigits _
  · rw [trim_surrounded hc hd (hdigits _)]
    exact isNumeral_toDigits _

lemma names_text {p : LineCol} (hp : 1 ≤ p.line) : Names p.text p := by
  have hnil : IsBlank [] := nofun
  have hnames := names_surrounded hp hnil hnil hnil hnil
  have htext : p.text = String.ofList ([] ++ (Nat.toDigits 10 p.line.toNat ++ []) ++
      ':' :: ([] ++ (Nat.toDigits 10 p.column.toNat ++ []))) := by
    apply String.toList_injective
    simp [text, Nat.toList_repr]
  rwa [htext]

/-- The text of a place is read as that place, whatever blank characters are put around its numbers.
Any other text that is read as a place names it as well, and reading the text of what has been read
changes nothing. A text that names no place is refused for what is wrong with it. -/
theorem text_reads_back :
    (∀ p : LineCol, 1 ≤ p.line → read p.text = .ok p ∧
      ∀ a b c d : List Char, IsBlank a → IsBlank b → IsBlank c → IsBlank d →
        read (String.ofList (a ++ (Nat.toDigits 10 p.line.toNat ++ b) ++
          ':' :: (c ++ (Nat.toDigits 10 p.column.toNat ++ d)))) = .ok p) ∧
    (∀ s p, read s = .ok p ↔ Names s p) ∧
    (∀ s p, read s = .ok p → read p.text = .ok p) ∧
    ∀ s, (∀ p, ¬Names s p) → ∃ e, read s = .error e ∧ IsRefused s e := by
  have hread (s : String) (p : LineCol) : read s = .ok p ↔ Names s p := by
    refine ⟨fun h => ?_, read_of_names⟩
    rcases read_spec s with ⟨q, hq, hnames⟩ | ⟨e, he, -⟩
    · rw [h] at hq
      cases hq
      exact hnames
    · rw [h] at he
      cases he
  refine ⟨fun p hp => ⟨read_of_names (names_text hp), ?_⟩, hread, fun s p h => ?_, fun s hs => ?_⟩
  · exact fun a b c d ha hb hc hd => read_of_names (names_surrounded hp ha hb hc hd)
  · obtain ⟨before, after, -, -, -, -, hp⟩ := (hread s p).mp h
    exact read_of_names (names_text hp)
  · rcases read_spec s with ⟨p, -, hnames⟩ | he
    · exact absurd hnames (hs p)
    · exact he

/-- A line that just fits with an em space and a tab around it, a sign with leading zeros, and a
text of three numbers. -/
theorem text_reads_back_blanks :
    let p : LineCol := ⟨4294967295, 7⟩
    1 ≤ p.line ∧ IsBlank ['\u2003'] ∧ IsBlank ['\t'] ∧ IsBlank [] ∧ read p.text = .ok p ∧
      read "\u20034294967295\t:7" = .ok p ∧ Names "+007:0" ⟨7, 0⟩ ∧
      read (text ⟨7, 0⟩) = .ok ⟨7, 0⟩ ∧ (∀ q, ¬Names "1:2:3" q) ∧
      ∃ e, read "1:2:3" = .error e ∧ IsRefused "1:2:3" e := by
  intro p
  have hp : 1 ≤ p.line := by decide
  have hspace : IsBlank ['\u2003'] := by decide
  have htab : IsBlank ['\t'] := by decide
  have hnil : IsBlank [] := nofun
  obtain ⟨hplaces, hiff, hagain, hrefused⟩ := text_reads_back
  obtain ⟨htext, hblanks⟩ := hplaces p hp
  have hspaced : String.ofList (['\u2003'] ++ (Nat.toDigits 10 p.line.toNat ++ ['\t']) ++
      ':' :: ([] ++ (Nat.toDigits 10 p.column.toNat ++ []))) = "\u20034294967295\t:7" := by cbv
  have hread := hblanks _ _ _ _ hspace htab hnil hnil
  rw [hspaced] at hread
  have hseven : read "+007:0" = .ok ⟨7, 0⟩ := by cbv
  have hthree : read "1:2:3" = .error (.badColumn "2:3") := by cbv
  have hnames : ∀ q, ¬Names "1:2:3" q := by
    intro q hq
    have hq := (hiff _ q).mpr hq
    rw [hthree] at hq
    cases hq
  exact ⟨hp, hspace, htab, hnil, htext, hread, (hiff _ _).mp hseven, hagain _ _ hseven, hnames,
    hrefused _ hnames⟩

end SyntaxLens.LineCol
