import Mathlib.Order.MinMax
import Mathlib.Tactic.Common
import SyntaxLens.Proofs.LineTable.Offsets
import SyntaxLens.Proofs.LineTable.Slices

/-!
# Offsets between characters

The byte offset of a position never falls within a character, whatever the position has to do with
the text. So the slice between two of them is the part of the text that takes up these bytes.
-/

namespace SyntaxLens

/-- The offset is the number of bytes of some of the first characters of a text. -/
def IsBoundary (cs : List Char) (offset : Nat) : Prop :=
  ∃ before after, cs = before ++ after ∧ Text.Utf8.size before = offset

lemma size_eq_zero_iff {cs : List Char} : Text.Utf8.size cs = 0 ↔ cs = [] := by
  refine ⟨fun h => ?_, fun h => by rw [h, Text.Utf8.size_nil]⟩
  cases cs with
  | nil => rfl
  | cons c cs =>
    have hc := c.utf8Size_pos
    rw [Text.Utf8.size_cons] at h
    omega

lemma utf8ByteSize_ofList (cs : List Char) :
    (String.ofList cs).utf8ByteSize = Text.Utf8.size cs := by
  induction cs with
  | nil => rfl
  | cons c cs ih =>
    rw [← List.singleton_append, String.ofList_append, String.utf8ByteSize_append, ih]
    simp

lemma utf8ByteSize_eq (s : String) : s.utf8ByteSize = Text.Utf8.size s.toList := by
  rw [← utf8ByteSize_ofList, String.ofList_toList]

lemma eq_append_of_toList {s : String} {before word after : List Char}
    (h : s.toList = before ++ (word ++ after)) :
    s = String.ofList before ++ String.ofList word ++ String.ofList after ∧
      (String.ofList before).utf8ByteSize = Text.Utf8.size before ∧
      (String.ofList before ++ String.ofList word).utf8ByteSize =
        Text.Utf8.size (before ++ word) := by
  refine ⟨?_, utf8ByteSize_ofList before, ?_⟩
  · rw [← String.ofList_append, ← String.ofList_append, List.append_assoc, ← h,
      String.ofList_toList]
  · rw [← String.ofList_append, utf8ByteSize_ofList]

lemma isValid_of_isBoundary {source : String} {offset : Nat}
    (h : IsBoundary source.toList offset) : String.Pos.Raw.IsValid source ⟨offset⟩ := by
  obtain ⟨before, after, hsource, hsize⟩ := h
  refine String.Pos.Raw.isValid_iff_exists_append.mpr
    ⟨String.ofList before, String.ofList after, ?_, ?_⟩
  · rw [← String.ofList_append, ← hsource, String.ofList_toList]
  · rw [← hsize, ← utf8ByteSize_ofList]
    rfl

lemma IsBoundary.split {cs : List Char} {a b : Nat} (ha : IsBoundary cs a) (hb : IsBoundary cs b)
    (hab : a ≤ b) : ∃ before word after, cs = before ++ (word ++ after) ∧
      Text.Utf8.size before = a ∧ Text.Utf8.size before + Text.Utf8.size word = b := by
  obtain ⟨xs, ys, rfl, rfl⟩ := ha
  obtain ⟨xs', ys', happend, rfl⟩ := hb
  rcases List.append_eq_append_iff.mp happend with ⟨word, rfl, rfl⟩ | ⟨word, rfl, rfl⟩
  · exact ⟨xs, word, ys', rfl, rfl, (Text.Utf8.size_append _ _).symm⟩
  · rw [Text.Utf8.size_append] at hab
    obtain rfl : word = [] := size_eq_zero_iff.mp (by omega)
    exact ⟨xs' ++ [], [], ys, rfl, rfl, by simp⟩

lemma isBoundary_floorColumn (column : Nat) (cs : List Char) :
    IsBoundary cs (floorColumn column cs) := by
  induction cs generalizing column with
  | nil => exact ⟨[], [], rfl, rfl⟩
  | cons c cs ih =>
    rw [floorColumn]
    by_cases h : c.utf8Size ≤ column
    · obtain ⟨before, after, hcs, hsize⟩ := ih (column - c.utf8Size)
      refine ⟨c :: before, after, by rw [hcs, List.cons_append], ?_⟩
      rw [if_pos h, Text.Utf8.size_cons, hsize]
    · exact ⟨[], c :: cs, rfl, (if_neg h).symm⟩

lemma part_of_mem_placeRows {start : Nat} {rows : List Row} {line : Line}
    (h : line ∈ placeRows start rows) : ∃ before after,
      textOfRows rows = before ++ (line.chars ++ after) ∧
        line.range.start = start + Text.Utf8.size before := by
  induction rows generalizing start with
  | nil => exact absurd h List.not_mem_nil
  | cons row rows ih =>
    rw [textOfRows_cons]
    rcases List.mem_cons.mp h with rfl | h
    · exact ⟨[], _, rfl, rfl⟩
    · obtain ⟨before, after, htext, hstart⟩ := ih h
      refine ⟨row.chars ++ (row.ending.chars ++ before), after, ?_, ?_⟩
      · simp only [htext, List.append_assoc]
      · rw [hstart, Text.Utf8.size_append, Text.Utf8.size_append]
        omega

namespace LineTable

variable {source : String}

/-- No offset falls within a character. -/
theorem isBoundary_offset (p : Position) : IsBoundary source.toList ((ofText source).offset p) := by
  have hall : IsBoundary source.toList (ofText source).size :=
    ⟨source.toList, [], (List.append_nil _).symm, rfl⟩
  cases p with
  | start => exact ⟨[], source.toList, rfl, rfl⟩
  | stop => exact hall
  | loc p =>
    cases h : (ofText source).lines[p.line.toNat - 1]? with
    | none =>
      rw [offset_loc_of_beyond h]
      exact hall
    | some line =>
      rw [offset_loc_of_line h]
      obtain ⟨before, after, htext, hstart⟩ := part_of_mem_placeRows (List.mem_of_getElem? h)
      obtain ⟨first, rest, hline, hsize⟩ := isBoundary_floorColumn p.column.toNat line.chars
      rw [textOfRows_rowsOf, hline] at htext
      refine ⟨before ++ first, rest ++ after, ?_, ?_⟩
      · rw [htext, List.append_assoc, List.append_assoc]
      · rw [Text.Utf8.size_append, hsize, hstart, Nat.zero_add]

lemma size_ofText (source : String) : (ofText source).size = source.utf8ByteSize :=
  (utf8ByteSize_eq source).symm

lemma start_le_stop_range (t : LineTable) (span : Span) :
    (t.range span).start ≤ (t.range span).stop :=
  Nat.le_trans (Nat.min_le_left _ _) (Nat.le_max_left _ _)

/-- A slice is the part of the text that takes up the bytes of its range. -/
theorem slice_is_part (span : Span) : ∃ before after : String,
    source = before ++ (ofText source).slice span ++ after ∧
      before.utf8ByteSize = ((ofText source).range span).start ∧
      (before ++ (ofText source).slice span).utf8ByteSize =
        ((ofText source).range span).stop := by
  set t := ofText source with ht
  have hstart : IsBoundary source.toList (t.range span).start := by
    rcases min_choice (t.offset span.start) (t.offset span.stop) with h | h
    all_goals
      rw [range, h]
      exact isBoundary_offset _
  have hstop : IsBoundary source.toList (t.range span).stop := by
    rcases max_choice (t.offset span.start) (t.offset span.stop) with h | h
    all_goals
      rw [range, h]
      exact isBoundary_offset _
  obtain ⟨before, word, after, hsource, hbefore, hword⟩ :=
    hstart.split hstop (t.start_le_stop_range span)
  have hslice : t.slice span = String.ofList word := by
    have hpart : sliceFrom 0 _ (before ++ (word ++ after)) = word :=
      sliceFrom_part before word after
    rw [Nat.zero_add, hword, hbefore, ← hsource] at hpart
    exact congrArg String.ofList hpart
  obtain ⟨hparts, hstart, hstop⟩ := eq_append_of_toList hsource
  rw [hbefore] at hstart
  rw [Text.Utf8.size_append, hword] at hstop
  rw [hslice]
  exact ⟨String.ofList before, String.ofList after, hparts, hstart, hstop⟩

/-- The offset of any position lies within the text and not within a character. So every span, also
one that is inverted or that belongs to another text, has an ordered range and is the part of the
text that takes up these bytes. Offsets keep the order of positions whose lines start at one. -/
theorem offsets_between_chars (source : String) :
    (∀ p : Position, (ofText source).offset p ≤ source.utf8ByteSize ∧
      String.Pos.Raw.IsValid source ⟨(ofText source).offset p⟩) ∧
    (∀ span : Span, ((ofText source).range span).start ≤ ((ofText source).range span).stop ∧
      ∃ before after : String, source = before ++ (ofText source).slice span ++ after ∧
        before.utf8ByteSize = ((ofText source).range span).start ∧
        (before ++ (ofText source).slice span).utf8ByteSize =
          ((ofText source).range span).stop) ∧
    ∀ p q : Position, p.IsNumbered → p ≤ q →
      (ofText source).offset p ≤ (ofText source).offset q := by
  refine ⟨fun p => ⟨?_, isValid_of_isBoundary (isBoundary_offset p)⟩, fun span => ?_, fun p q => ?_⟩
  · rw [← size_ofText]
    exact offset_le_size p
  · exact ⟨(ofText source).start_le_stop_range span, slice_is_part span⟩
  · exact offset_mono

/-- Places within a character, after the end of a line and in a line that the text does not have. -/
theorem offsets_between_chars_foreign :
    let t := ofText "é\r\nab"
    let p : Position := .loc ⟨1, 1⟩
    let q : Position := .loc ⟨9, 0⟩
    (p.IsNumbered ∧ p ≤ q) ∧ t.offset p ≤ t.offset q ∧
      t.offset p ≤ "é\r\nab".utf8ByteSize ∧ String.Pos.Raw.IsValid "é\r\nab" ⟨t.offset p⟩ ∧
      ∃ before after : String, "é\r\nab" = before ++ t.slice ⟨q, p⟩ ++ after ∧
        before.utf8ByteSize = (t.range ⟨q, p⟩).start ∧
        (before ++ t.slice ⟨q, p⟩).utf8ByteSize = (t.range ⟨q, p⟩).stop := by
  intro t p q
  have hp : p.IsNumbered := by
    intro place hplace
    obtain rfl : ⟨1, 1⟩ = place := Position.loc.inj hplace
    decide
  have hpq : p ≤ q := by decide
  obtain ⟨hoffset, hslice, hmono⟩ := offsets_between_chars "é\r\nab"
  exact ⟨⟨hp, hpq⟩, hmono p q hp hpq, (hoffset p).1, (hoffset p).2, (hslice ⟨q, p⟩).2⟩

end LineTable

end SyntaxLens
