import Mathlib
import SyntaxLens.Export.Table
import SyntaxLens.Proofs.Text.Lines

/-!
# Aligned lines

A line shows the cells of a row from the same places on as all other lines of its table. What it
leaves out of the padded cells is spaces at the end and nothing else, if every cell is a text that
may end a line.
-/

namespace SyntaxLens.Export

open Text

/-- The number of characters of a padded row. -/
def fullWidth (ws : List Nat) : Nat :=
  ws.sum + 2 * (ws.length - 1)

/-- The number of characters in front of a column. -/
def columnStart (ws : List Nat) (j : Nat) : Nat :=
  (ws.take j).sum + 2 * j

/-- The padded cells of a row with two spaces between them. -/
def paddedRow (ws : List Nat) (row : List String) : List Char :=
  List.intercalate [' ', ' '] (List.zipWith (fun s w => s.toList.rightpad w ' ') row ws)

/-- The text is a line that shows the cells of a row. -/
structure IsLine (ws : List Nat) (row : List String) (text : String) : Prop where
  /-- The text is one line, and it does not end in a blank. -/
  fits : FitsLine text.toList
  /-- Padded to the full width it is the padded cells. -/
  padded : text.toList.rightpad (fullWidth ws) ' ' = paddedRow ws row
  /-- Each cell is found where its column starts. -/
  cells : ∀ j s, row[j]? = some s →
    s.toList <+: (text.toList.rightpad (fullWidth ws) ' ').drop (columnStart ws j)

/-- The cells are texts that fit a line and are not longer than their columns are wide. -/
def Fits (ws : List Nat) (row : List String) : Prop :=
  List.Forall₂ (fun s w => FitsLine s.toList ∧ s.length ≤ w) row ws

variable {ws : List Nat} {row : List String} {s : String} {w : Nat}

lemma joinedCells_eq (ws : List Nat) (row : List String) :
    joinedCells ws row = paddedRow ws row := by
  have hpad : pad = fun s w => s.toList.rightpad w ' ' := by
    funext s w
    rw [pad, List.rightpad, String.length_toList]
  rw [joinedCells, hpad, paddedRow]

lemma paddedRow_singleton (s : String) (w : Nat) : paddedRow [w] [s] = s.toList.rightpad w ' ' :=
  List.intercalate_singleton

lemma paddedRow_cons (s s' : String) (w w' : Nat) : paddedRow (w :: w' :: ws) (s :: s' :: row) =
    s.toList.rightpad w ' ' ++ ([' ', ' '] ++ paddedRow (w' :: ws) (s' :: row)) :=
  List.intercalate_cons_cons.trans (List.append_assoc ..)

lemma length_rightpad_of_le {cs : List Char} (h : cs.length ≤ w) :
    (cs.rightpad w ' ').length = w := by
  rw [List.length_rightpad, Nat.max_eq_left h]

/-- Induction on rows that fit: one cell, or a cell in front of others. -/
lemma Fits.induction {P : List Nat → List String → Prop} (nil : P [] [])
    (single : ∀ s w, FitsLine s.toList → s.length ≤ w → P [w] [s])
    (cons : ∀ s w s' w' row ws, FitsLine s.toList → s.length ≤ w → P (w' :: ws) (s' :: row) →
      P (w :: w' :: ws) (s :: s' :: row)) {ws : List Nat} {row : List String} (h : Fits ws row) :
    P ws row := by
  induction h with
  | nil => exact nil
  | @cons s w row ws hs h ih =>
    cases h with
    | nil => exact single s w hs.1 hs.2
    | @cons s' w' row ws => exact cons s w s' w' row ws hs.1 hs.2 ih

lemma length_paddedRow (h : Fits ws row) : (paddedRow ws row).length = fullWidth ws := by
  refine h.induction (P := fun ws row => (paddedRow ws row).length = fullWidth ws) rfl ?_ ?_
  · intro s w hs hw
    rw [paddedRow_singleton, length_rightpad_of_le (by rwa [String.length_toList])]
    rfl
  · intro s w s' w' row ws hs hw ih
    rw [paddedRow_cons, List.length_append, List.length_append, ih,
      length_rightpad_of_le (by rwa [String.length_toList])]
    simp only [fullWidth, List.sum_cons, List.length_cons, List.length_nil]
    omega

lemma spaced_paddedRow (h : Fits ws row) : Spaced (paddedRow ws row) := by
  refine h.induction (P := fun ws row => Spaced (paddedRow ws row)) .nil ?_ ?_
  · intro s w hs hw
    rw [paddedRow_singleton]
    exact .rightpad hs w
  · intro s w s' w' row ws hs hw ih
    rw [paddedRow_cons]
    exact (Spaced.rightpad hs w).append ((Spaced.replicate 2).append ih)

lemma prefix_drop_paddedRow (h : Fits ws row) {j : Nat} (hj : row[j]? = some s) :
    s.toList <+: (paddedRow ws row).drop (columnStart ws j) := by
  revert j
  refine h.induction (P := fun ws row => ∀ {j : Nat}, row[j]? = some s →
    s.toList <+: (paddedRow ws row).drop (columnStart ws j)) nofun ?_ ?_
  · intro s' w hs hw j hj
    rw [paddedRow_singleton]
    cases j with
    | zero =>
      cases hj
      exact List.prefix_append _ _
    | succ j => cases hj
  · intro s' w s'' w' row ws hs hw ih j hj
    rw [paddedRow_cons]
    cases j with
    | zero =>
      cases hj
      exact (List.prefix_append _ _).trans (List.prefix_append _ _)
    | succ j =>
      have hlength : (s'.toList.rightpad w ' ' ++ [' ', ' ']).length = w + 2 := by
        rw [List.length_append, length_rightpad_of_le (by rwa [String.length_toList])]
        rfl
      have hstart : columnStart (w :: w' :: ws) (j + 1) =
          (s'.toList.rightpad w ' ' ++ [' ', ' ']).length + columnStart (w' :: ws) j := by
        rw [hlength]
        simp only [columnStart, List.take_succ_cons, List.sum_cons]
        omega
      rw [hstart, ← List.append_assoc, List.drop_length_add_append]
      exact ih hj

theorem isLine_line (h : Fits ws row) : IsLine ws row (line ws row) := by
  obtain ⟨n, hfits, hrow⟩ := (spaced_paddedRow h).trimEnd
  have htext : (line ws row).toList = trimEnd (paddedRow ws row) := by
    rw [line, String.toList_ofList, joinedCells_eq]
  have hpadded : (line ws row).toList.rightpad (fullWidth ws) ' ' = paddedRow ws row := by
    have hn : fullWidth ws - (trimEnd (paddedRow ws row)).length = n := by
      have hlength := congrArg List.length hrow
      rw [length_paddedRow h, List.length_append, List.length_replicate] at hlength
      omega
    rw [htext, List.rightpad, hn]
    exact hrow.symm
  refine ⟨by rwa [htext], hpadded, fun j s hj => ?_⟩
  rw [hpadded]
  exact prefix_drop_paddedRow h hj

lemma exists_paddedRow_eq (h : Fits ws row) (hs : row.getLast? = some s) :
    ∃ front n, paddedRow ws row = front ++ (s.toList ++ List.replicate n ' ') := by
  revert hs
  refine h.induction (P := fun ws row => row.getLast? = some s →
    ∃ front n, paddedRow ws row = front ++ (s.toList ++ List.replicate n ' ')) nofun ?_ ?_
  · intro s' w hs hw hlast
    cases hlast
    exact ⟨[], _, paddedRow_singleton _ w⟩
  · intro s' w s'' w' row ws hs hw ih hlast
    rw [List.getLast?_cons_cons] at hlast
    obtain ⟨front, n, hfront⟩ := ih hlast
    refine ⟨s'.toList.rightpad w ' ' ++ ([' ', ' '] ++ front), n, ?_⟩
    rw [paddedRow_cons, hfront, List.append_assoc, List.append_assoc]

lemma IsLine.suffix {text : String} (h : IsLine ws row text) (hfits : Fits ws row)
    (hs : row.getLast? = some s) (hne : s.toList ≠ []) (hlast : FitsLine s.toList) :
    s.toList <:+ text.toList := by
  obtain ⟨front, n, hrow⟩ := exists_paddedRow_eq hfits hs
  have hpadded := h.padded
  rw [hrow, List.rightpad, ← List.append_assoc] at hpadded
  have hfront : ∀ c ∈ (front ++ s.toList).getLast?, isBlank c = false := by
    rw [List.getLast?_append_of_ne_nil front hne]
    exact hlast.last
  have htrim := congrArg trimEnd hpadded
  rw [h.fits.trimEnd_append, trimEnd_append_of_isBlank _ (isBlank_replicate n),
    trimEnd_of_last hfront] at htrim
  exact ⟨front, htrim.symm⟩

/-- The widths of columns after more rows: none of the cells is longer, and a width that has grown
is the length of one of them. -/
lemma foldl_widths (rows : List (List String)) (acc : List Nat) {j w : Nat}
    (hw : (rows.foldl (List.zipWith fun w s => max w s.length) acc)[j]? = some w) :
    ∃ a, acc[j]? = some a ∧ a ≤ w ∧ (∀ row ∈ rows, ∀ s ∈ row[j]?, s.length ≤ w) ∧
      (w = a ∨ ∃ row ∈ rows, ∃ s ∈ row[j]?, s.length = w) := by
  induction rows generalizing acc with
  | nil => exact ⟨w, hw, Nat.le_refl w, nofun, .inl rfl⟩
  | cons row rows ih =>
    obtain ⟨b, hb, hle, hrows, hfound⟩ := ih _ hw
    rw [List.getElem?_zipWith] at hb
    cases ha : acc[j]? with
    | none => rw [ha] at hb; cases hb
    | some a =>
      cases hs : row[j]? with
      | none => rw [ha, hs] at hb; cases hb
      | some s =>
        rw [ha, hs] at hb
        cases hb
        refine ⟨a, rfl, (Nat.le_max_left _ _).trans hle, ?_, ?_⟩
        · intro r hr s' hs'
          rcases List.mem_cons.mp hr with rfl | hr
          · rw [hs] at hs'
            cases hs'
            exact (Nat.le_max_right _ _).trans hle
          · exact hrows r hr s' hs'
        · rcases hfound with rfl | ⟨r, hr, s', hs', hlength⟩
          · rcases Nat.le_total a s.length with hmax | hmax
            · refine .inr ⟨row, List.mem_cons_self, s, hs, ?_⟩
              exact (Nat.max_eq_right hmax).symm
            · exact .inl (Nat.max_eq_left hmax)
          · exact .inr ⟨r, List.mem_cons_of_mem row hr, s', hs', hlength⟩

/-- The lengths of the cells in a column. -/
def cellLengths (rows : List (List String)) (j : Nat) : Set Nat :=
  {k | ∃ row ∈ rows, ∃ s, row[j]? = some s ∧ s.length = k}

section

variable {rows : List (List String)} {count : Nat} (hrows : ∀ row ∈ rows, row.length = count)
include hrows

lemma length_widths : (widths count rows).length = count := by
  have hfold (acc : List Nat) (hacc : acc.length = count) :
      (rows.foldl (List.zipWith fun w s => max w s.length) acc).length = count := by
    induction rows generalizing acc with
    | nil => exact hacc
    | cons row rows ih =>
      refine ih (fun r hr => hrows r (List.mem_cons_of_mem row hr)) _ ?_
      rw [List.length_zipWith, hacc, hrows row List.mem_cons_self, Nat.min_self]
  exact hfold _ List.length_replicate

theorem isGreatest_widths (hne : rows ≠ []) {j w : Nat} (hw : (widths count rows)[j]? = some w) :
    IsGreatest (cellLengths rows j) w := by
  have hj : j < count := by
    rw [← length_widths hrows]
    exact (List.getElem?_eq_some_iff.mp hw).1
  obtain ⟨a, ha, -, hle, hfound⟩ := foldl_widths rows _ hw
  have hzero : a = 0 := List.eq_of_mem_replicate (List.mem_of_getElem? ha)
  refine ⟨?_, ?_⟩
  · rcases hfound with rfl | ⟨row, hrow, s, hs, hlength⟩
    · -- no cell is longer than zero, and there is one
      obtain ⟨row, hrow⟩ := List.exists_mem_of_ne_nil rows hne
      have hs := List.getElem?_eq_getElem (hj.trans_eq (hrows row hrow).symm)
      exact ⟨row, hrow, _, hs, Nat.le_antisymm (hle row hrow _ hs) (hzero ▸ Nat.zero_le _)⟩
    · exact ⟨row, hrow, s, hs, hlength⟩
  · rintro k ⟨row, hrow, s, hs, rfl⟩
    exact hle row hrow s hs

lemma fits_widths {row : List String} (hrow : row ∈ rows)
    (hcells : ∀ s ∈ row, FitsLine s.toList) : Fits (widths count rows) row := by
  rw [Fits, List.forall₂_iff_get]
  refine ⟨by rw [hrows row hrow, length_widths hrows], fun j hj hw => ?_⟩
  obtain ⟨a, -, -, hle, -⟩ := foldl_widths rows _ (List.getElem?_eq_getElem hw)
  exact ⟨hcells _ (List.getElem_mem hj), hle row hrow _ (List.getElem?_eq_getElem hj)⟩

end

end SyntaxLens.Export
