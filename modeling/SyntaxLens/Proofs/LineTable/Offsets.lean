import Mathlib.Tactic.Common
import SyntaxLens.LineTable
import SyntaxLens.Proofs.Order

namespace SyntaxLens

lemma floorColumn_le_size (column : Nat) (cs : List Char) :
    floorColumn column cs ≤ Text.Utf8.size cs := by
  induction cs generalizing column with
  | nil => exact Nat.le_refl 0
  | cons c cs ih =>
    rw [floorColumn, Text.Utf8.size_cons]
    by_cases h : c.utf8Size ≤ column
    · rw [if_pos h]
      exact Nat.add_le_add_left (ih _) _
    · rw [if_neg h]
      exact Nat.zero_le _

lemma floorColumn_mono {m n : Nat} (h : m ≤ n) (cs : List Char) :
    floorColumn m cs ≤ floorColumn n cs := by
  induction cs generalizing m n with
  | nil => exact Nat.le_refl 0
  | cons c cs ih =>
    rw [floorColumn, floorColumn]
    by_cases hm : c.utf8Size ≤ m
    · rw [if_pos hm, if_pos (Nat.le_trans hm h)]
      exact Nat.add_le_add_left (ih (Nat.sub_le_sub_right h _)) _
    · rw [if_neg hm]
      exact Nat.zero_le _

/-- The characters of a line with its line break. -/
def Row.text (row : Row) : List Char :=
  row.chars ++ row.ending.chars

def textOfRows (rows : List Row) : List Char :=
  rows.flatMap Row.text

@[simp] lemma textOfRows_nil : textOfRows [] = [] := rfl

@[simp] lemma textOfRows_cons (row : Row) (rows : List Row) :
    textOfRows (row :: rows) = row.chars ++ (row.ending.chars ++ textOfRows rows) := by
  rw [textOfRows, List.flatMap_cons, Row.text, List.append_assoc, ← textOfRows]

lemma textOfRows_pushChar (c : Char) (rows : List Row) :
    textOfRows (pushChar c rows) = c :: textOfRows rows := by
  cases rows with
  | nil => rfl
  | cons row rows => rw [pushChar, textOfRows_cons, textOfRows_cons, List.cons_append]

theorem textOfRows_rowsOf (cs : List Char) : textOfRows (rowsOf cs) = cs := by
  induction cs using rowsOf.induct with
  | case1 => rfl
  | case2 cs ih => rw [rowsOf, textOfRows_cons, ih]; rfl
  | case3 cs ih => rw [rowsOf, textOfRows_cons, ih]; rfl
  | case4 cs hlf ih =>
    rw [rowsOf, textOfRows_cons, ih]
    · rfl
    · exact hlf
  | case5 c cs hlf hcrlf hcr ih =>
    rw [rowsOf, textOfRows_pushChar, ih]
    · exact hlf
    · exact hcrlf
    · exact hcr

variable {start : Nat} {rows : List Row}

lemma range_of_mem_placeRows {line : Line} (h : line ∈ placeRows start rows) :
    start ≤ line.range.start ∧ line.range.stop = line.range.start + Text.Utf8.size line.chars ∧
      line.range.stop ≤ start + Text.Utf8.size (textOfRows rows) := by
  induction rows generalizing start with
  | nil => exact absurd h List.not_mem_nil
  | cons row rows ih =>
    rw [textOfRows_cons, Text.Utf8.size_append, Text.Utf8.size_append]
    rcases List.mem_cons.mp h with rfl | h
    · exact ⟨Nat.le_refl _, rfl, Nat.add_le_add_left (Nat.le_add_right _ _) _⟩
    · obtain ⟨hstart, hstop, hle⟩ := ih h
      refine ⟨?_, hstop, ?_⟩ <;> omega

theorem pairwise_placeRows :
    (placeRows start rows).Pairwise (fun l m => l.range.stop ≤ m.range.start) := by
  induction rows generalizing start with
  | nil => exact .nil
  | cons row rows ih =>
    refine List.pairwise_cons.mpr ⟨fun line hline => ?_, ih⟩
    exact Nat.le_trans (Nat.le_add_right _ _) (range_of_mem_placeRows hline).1

namespace LineTable

variable {source : String}

lemma range_of_mem_lines {line : Line} (h : line ∈ (ofText source).lines) :
    line.range.stop = line.range.start + Text.Utf8.size line.chars ∧
      line.range.stop ≤ (ofText source).size := by
  obtain ⟨-, hstop, hle⟩ := range_of_mem_placeRows h
  rw [textOfRows_rowsOf, Nat.zero_add] at hle
  exact ⟨hstop, hle⟩

lemma offset_loc_of_line {p : LineCol} {line : Line} {t : LineTable}
    (h : t.lines[p.line.toNat - 1]? = some line) :
    t.offset (.loc p) = line.range.start + floorColumn p.column.toNat line.chars := by
  rw [offset, h]

lemma offset_loc_of_beyond {p : LineCol} {t : LineTable}
    (h : t.lines[p.line.toNat - 1]? = none) : t.offset (.loc p) = t.size := by
  rw [offset, h]

lemma start_add_floorColumn_le {line : Line} (h : line ∈ (ofText source).lines) (column : Nat) :
    line.range.start + floorColumn column line.chars ≤ line.range.stop := by
  rw [(range_of_mem_lines h).1]
  exact Nat.add_le_add_left (floorColumn_le_size column line.chars) _

theorem offset_le_size (p : Position) : (ofText source).offset p ≤ (ofText source).size := by
  cases p with
  | start => exact Nat.zero_le _
  | stop => exact Nat.le_refl _
  | loc p =>
    cases h : (ofText source).lines[p.line.toNat - 1]? with
    | none => exact Nat.le_of_eq (offset_loc_of_beyond h)
    | some line =>
      have hline := List.mem_of_getElem? h
      rw [offset_loc_of_line h]
      exact Nat.le_trans (start_add_floorColumn_le hline _) (range_of_mem_lines hline).2

lemma offset_loc_mono {p q : LineCol} (hp : 1 ≤ p.line) (h : p ≤ q) :
    (ofText source).offset (.loc p) ≤ (ofText source).offset (.loc q) := by
  cases hq : (ofText source).lines[q.line.toNat - 1]? with
  | none =>
    rw [offset_loc_of_beyond hq]
    exact offset_le_size (.loc p)
  | some m =>
    rw [offset_loc_of_line hq]
    rcases LineCol.le_iff.mp h with hline | ⟨hline, hcolumn⟩
    · have hlt : p.line.toNat - 1 < q.line.toNat - 1 := by
        rw [UInt32.le_iff_toNat_le] at hp
        rw [UInt32.lt_iff_toNat_lt] at hline
        exact Nat.sub_lt_sub_right hp hline
      obtain ⟨hj, rfl⟩ := List.getElem?_eq_some_iff.mp hq
      have hi := Nat.lt_trans hlt hj
      have hbefore := List.pairwise_iff_getElem.mp pairwise_placeRows _ _ hi hj hlt
      rw [offset_loc_of_line (List.getElem?_eq_getElem hi)]
      have hcut := start_add_floorColumn_le (List.getElem_mem hi) p.column.toNat
      exact Nat.le_trans hcut (Nat.le_trans hbefore (Nat.le_add_right _ _))
    · rw [← hline] at hq
      rw [offset_loc_of_line hq]
      exact Nat.add_le_add_left (floorColumn_mono (UInt32.le_iff_toNat_le.mp hcolumn) _) _

/-- The offsets of positions keep their order, if the first one is not in a line zero. -/
theorem offset_mono {p q : Position} (hp : p.IsNumbered) (h : p ≤ q) :
    (ofText source).offset p ≤ (ofText source).offset q := by
  cases q with
  | stop => exact offset_le_size p
  | start =>
    cases p with
    | start => exact Nat.le_refl _
    | loc p => exact absurd h Position.not_loc_le_start
    | stop => exact absurd h Position.not_stop_le_start
  | loc q =>
    cases p with
    | start => exact Nat.zero_le _
    | loc p => exact offset_loc_mono (hp p rfl) (Position.loc_le_loc.mp h)
    | stop => exact absurd h Position.not_stop_le_loc

end LineTable

end SyntaxLens
