import SyntaxLens.Proofs.LineTable.Places

/-!
# Lines and breaks make up the text

The ranges of the lines start at the beginning of the text and end at its end. What stands between
two of them is exactly one line break, and none stands within a line.
-/

namespace SyntaxLens

/-- The word takes up a range of the text, and it breaks a line there. -/
def IsBreakAt (cs word : List Char) (range : ByteSpan) : Prop :=
  ∃ before after, cs = before ++ (word ++ after) ∧
    range = ⟨Text.Utf8.size before, Text.Utf8.size (before ++ word)⟩ ∧ BreaksLine word after

variable {rows : List Row} {line : Line} {start : Nat}

lemma unbroken_of_mem_placeRows (h : Parted rows) (hline : line ∈ placeRows start rows) :
    Unbroken line.chars := by
  induction h generalizing start with
  | last hrow =>
    obtain rfl := List.mem_singleton.mp hline
    exact hrow
  | closed hrow hbreak h ih =>
    rcases List.mem_cons.mp hline with rfl | hline
    · exact hrow
    · exact ih hline

lemma Parted.head?_placeRows (h : Parted rows) (start : Nat) :
    (placeRows start rows).head?.map (·.range.start) = some start := by
  cases h with
  | last hrow => rfl
  | closed hrow hbreak h => rfl

lemma Parted.getLast?_placeRows (h : Parted rows) (start : Nat) :
    (placeRows start rows).getLast?.map (·.range.stop) =
      some (start + Text.Utf8.size (textOfRows rows)) := by
  induction h generalizing start with
  | last hrow => simp [placeRows, LineBreak.chars]
  | @closed row rows hrow hbreak h ih =>
    have hrest := ih (start + Text.Utf8.size row.chars + Text.Utf8.size row.ending.chars)
    obtain ⟨m, hm, hstop⟩ := Option.map_eq_some_iff.mp hrest
    rw [placeRows, List.getLast?_cons, hm, Option.getD_some, Option.map_some, hstop,
      textOfRows_cons, Text.Utf8.size_append, Text.Utf8.size_append, ← Nat.add_assoc,
      ← Nat.add_assoc]

/-- The breaks of lines stand between them, and the lines with their breaks make up the text. -/
lemma Parted.exists_breaks (h : Parted rows) (pre : List Char) :
    let lines := placeRows (Text.Utf8.size pre) rows
    ∃ breaks : List (List Char), lines.length = breaks.length + 1 ∧
      (∀ i word, breaks[i]? = some word → ∃ l m, lines[i]? = some l ∧ lines[i + 1]? = some m ∧
        IsBreakAt (pre ++ textOfRows rows) word ⟨l.range.stop, m.range.start⟩) ∧
      (List.zipWith (fun line word => line.chars ++ word) lines (breaks ++ [[]])).flatten =
        textOfRows rows := by
  induction h generalizing pre with
  | last hrow => exact ⟨[], rfl, nofun, by simp [placeRows, LineBreak.chars]⟩
  | @closed row rows hrow hbreak h ih =>
    -- the other lines stand after the first one and its break, so these belong to what is before
    obtain ⟨breaks, hlength, hbetween, hjoin⟩ := ih (pre ++ row.text)
    have hlines : placeRows (Text.Utf8.size pre) (row :: rows) =
        ⟨row.chars, ⟨Text.Utf8.size pre, Text.Utf8.size pre + Text.Utf8.size row.chars⟩⟩ ::
          placeRows (Text.Utf8.size (pre ++ row.text)) rows := by
      rw [placeRows, Row.text, Text.Utf8.size_append, Text.Utf8.size_append, ← Nat.add_assoc]
    have htext : pre ++ textOfRows (row :: rows) = pre ++ row.text ++ textOfRows rows := by
      rw [textOfRows_cons, Row.text, List.append_assoc, List.append_assoc]
    simp only [hlines]
    refine ⟨row.ending.chars :: breaks, ?_, fun i word hi => ?_, ?_⟩
    · rw [List.length_cons, hlength, List.length_cons]
    · cases i with
      | zero =>
        obtain rfl : row.ending.chars = word := Option.some.inj hi
        have hhead := h.head?_placeRows (Text.Utf8.size (pre ++ row.text))
        obtain ⟨m, hm, hstart⟩ := Option.map_eq_some_iff.mp hhead
        rw [List.head?_eq_getElem?] at hm
        refine ⟨_, m, rfl, hm, pre ++ row.chars, textOfRows rows, ?_, ?_, hbreak⟩
        · rw [textOfRows_cons, List.append_assoc]
        · rw [hstart, Row.text, Text.Utf8.size_append pre row.chars, List.append_assoc]
      | succ i =>
        rw [htext]
        exact hbetween i word hi
    · rw [List.cons_append, List.zipWith_cons_cons, List.flatten_cons, hjoin, textOfRows_cons,
        List.append_assoc]

namespace LineTable

variable {source : String}

lemma slice_of_mem_lines (h : line ∈ (ofText source).lines) :
    IsBoundary source.toList line.range.start ∧ IsBoundary source.toList line.range.stop ∧
      sliceFrom 0 line.range source.toList = line.chars := by
  obtain ⟨before, after, htext, hstart⟩ := part_of_mem_placeRows h
  have hstop := (range_of_mem_lines h).1
  rw [textOfRows_rowsOf] at htext
  rw [Nat.zero_add] at hstart
  rw [hstart] at hstop
  refine ⟨⟨before, line.chars ++ after, htext, hstart.symm⟩,
    ⟨before ++ line.chars, after, by rw [htext, List.append_assoc], ?_⟩, ?_⟩
  · rw [hstop, Text.Utf8.size_append]
  · have hpart : sliceFrom 0 _ (before ++ (line.chars ++ after)) = line.chars :=
      sliceFrom_part before line.chars after
    rwa [Nat.zero_add, ← htext, ← hstop, ← hstart] at hpart

/-- The lines of a text with the breaks between them make up the text, from its beginning to its
end. There is one line more than there are breaks, and no line holds a break. -/
theorem lines_partition (source : String) :
    let lines : List Line := (ofText source).lines
    (lines.head?.map (·.range.start) = some 0 ∧
      lines.getLast?.map (·.range.stop) = some source.utf8ByteSize) ∧
    (∀ line ∈ lines, line.range.start ≤ line.range.stop ∧
      String.Pos.Raw.IsValid source ⟨line.range.start⟩ ∧
      String.Pos.Raw.IsValid source ⟨line.range.stop⟩ ∧
      sliceFrom 0 line.range source.toList = line.chars ∧ '\n' ∉ line.chars ∧ '\r' ∉ line.chars) ∧
    ∃ breaks : List (List Char), lines.length = breaks.length + 1 ∧
      (∀ i word, breaks[i]? = some word → ∃ l m, lines[i]? = some l ∧ lines[i + 1]? = some m ∧
        IsBreakAt source.toList word ⟨l.range.stop, m.range.start⟩) ∧
      (List.zipWith (fun line word => line.chars ++ word) lines (breaks ++ [[]])).flatten =
        source.toList := by
  intro lines
  have hparted := parted_rowsOf source.toList
  refine ⟨⟨hparted.head?_placeRows 0, ?_⟩, fun line hline => ?_, ?_⟩
  · have hlast := hparted.getLast?_placeRows 0
    rw [textOfRows_rowsOf, Nat.zero_add] at hlast
    rw [← size_ofText]
    exact hlast
  · obtain ⟨hstart, hstop, hslice⟩ := slice_of_mem_lines hline
    have hrange := (range_of_mem_lines hline).1
    exact ⟨by omega, isValid_of_isBoundary hstart, isValid_of_isBoundary hstop, hslice,
      unbroken_of_mem_placeRows hparted hline⟩
  · have hbreaks := hparted.exists_breaks []
    rwa [textOfRows_rowsOf] at hbreaks

/-- Two carriage returns of which only the second one belongs to a line feed. -/
example : (ofText "a\r\r\né\r").lines.map (·.range) = [⟨0, 1⟩, ⟨2, 2⟩, ⟨4, 6⟩, ⟨7, 7⟩] := by
  decide

end LineTable

end SyntaxLens
