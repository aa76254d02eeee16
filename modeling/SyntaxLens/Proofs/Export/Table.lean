import Mathlib
import SyntaxLens.Proofs.Export.Alignment
import SyntaxLens.Proofs.Export.Listing
import SyntaxLens.Proofs.Outline.Following
import SyntaxLens.Proofs.Outline.Wording
import SyntaxLens.Proofs.Selection

/-!
# Tables of loaded trees

The table of a loaded tree has one line for its headings, if it has them, and one for every node
that is shown, in pre-order. All lines are aligned in columns that are as wide as their longest
cells. In a last column of spans, a mark at the end of a line tells a node that is out of order.
-/

namespace SyntaxLens.Export

open Text

/-- The nodes that are shown, each before its children, with their routes. -/
structure IsListing (x : Expansion) (o : Outline) (listing : List (List Nat × Outline)) : Prop where
  ordered : listing.Pairwise fun p q => p.1 < q.1
  mem_iff : ∀ route n, (route, n) ∈ listing ↔ IsShown x o route n

/-- The cells of a listed node, which is as deep as its route is long. -/
def cellsOf (view : View) (p : List Nat × Outline) : List String :=
  view.columns.map (cell p.1.length p.2)

/-- The row of headings, if there is one. -/
def headings (view : View) (hasHeader : Bool) : List (List String) :=
  if hasHeader then [view.columns.map Column.header] else []

/-- The lines are those of the headings and of a listing, in columns of the given widths. -/
structure IsAligned (view : View) (hasHeader : Bool) (listing : List (List Nat × Outline))
    (ws : List Nat) (heading lines : List String) : Prop where
  length_widths : ws.length = view.columns.length
  isGreatest : ∀ j w, ws[j]? = some w →
    IsGreatest (cellLengths (headings view hasHeader ++ listing.map (cellsOf view)) j) w
  heading : List.Forall₂ (IsLine ws) (headings view hasHeader) heading
  lines : List.Forall₂ (fun p => IsLine ws (cellsOf view p)) listing lines

/-- The last character of the line marks a node that is out of order. -/
def IsMarked (text : String) : Prop :=
  text.toList.getLast? = some '!'

instance : DecidablePred IsMarked :=
  fun text => inferInstanceAs (Decidable (text.toList.getLast? = some '!'))

variable {view : View} {o n : Outline} {x : Expansion}

lemma isListing_shown (x : Expansion) (o : Outline) : IsListing x o (shown x o) :=
  ⟨pairwise_shown x o, fun route n => mem_shown x o route n⟩

lemma mem_nodes_of_mem_shown {p : List Nat × Outline} (h : p ∈ shown x o) : p.2 ∈ o.nodes :=
  Outline.mem_nodes_of_descend? ((mem_shown x o p.1 p.2).mp h).descends

lemma isVisible_place (p : LineCol) : IsVisible p.text.toList ∧ '!' ∉ p.text.toList := by
  have hdigits (k : Nat) : IsVisible (toString k).toList ∧ '!' ∉ (toString k).toList := by
    rw [Nat.toString_eq_repr, Nat.toList_repr]
    refine ⟨isVisible_of_isDigit Numeral.isDigit_of_mem_toDigits, fun hmem => ?_⟩
    exact absurd (Numeral.isDigit_of_mem_toDigits _ hmem) (by decide)
  simp only [LineCol.text, String.toList_append, isVisible_append, List.mem_append, not_or]
  exact ⟨⟨⟨(hdigits _).1, by decide⟩, (hdigits _).1⟩, ⟨(hdigits _).2, by decide⟩, (hdigits _).2⟩

lemma isVisible_position (p : Position) :
    p.text.toList ≠ [] ∧ IsVisible p.text.toList ∧ '!' ∉ p.text.toList := by
  cases p with
  | start => decide
  | loc p =>
    refine ⟨?_, isVisible_place p⟩
    rw [Position.text, LineCol.text, String.toList_append, String.toList_append]
    exact List.append_ne_nil_of_left_ne_nil (List.append_ne_nil_of_right_ne_nil _ (by decide)) _
  | stop => decide

lemma fitsLine_span (s : Span) :
    s.text.toList ≠ [] ∧ FitsLine s.text.toList ∧ '!' ∉ s.text.toList := by
  obtain ⟨-, hstart, hmark⟩ := isVisible_position s.start
  obtain ⟨hne, hstop, hmark'⟩ := isVisible_position s.stop
  rw [Span.text, String.toList_append, String.toList_append]
  refine ⟨List.append_ne_nil_of_right_ne_nil _ hne,
    hstart.fitsLine.join (by decide) hstop.fitsLine hne, ?_⟩
  simp only [List.mem_append, not_or]
  exact ⟨⟨hmark, by decide⟩, hmark'⟩

lemma fitsLine_highlightText (o : Outline) : FitsLine (highlightText o).toList := by
  unfold highlightText
  split
  · next s hs =>
    obtain ⟨-, hspan, -⟩ := fitsLine_span s
    split
    · rw [String.toList_append]
      exact hspan.append (by decide)
    · exact hspan
  · exact fitsLine_nil

lemma isMarked_highlightText {s : Span} (h : o.span = some s) :
    (highlightText o).toList ≠ [] ∧ (IsMarked (highlightText o) ↔ o.outOfOrder = true) := by
  obtain ⟨hne, -, hmark⟩ := fitsLine_span s
  simp only [highlightText, h]
  by_cases ho : o.outOfOrder = true
  · rw [if_pos ho, IsMarked, String.toList_append]
    refine ⟨List.append_ne_nil_of_left_ne_nil hne _, iff_of_true ?_ ho⟩
    exact List.getLast?_append_of_ne_nil _ (by decide)
  · rw [if_neg ho]
    refine ⟨hne, iff_of_false (fun hlast => ?_) ho⟩
    exact hmark (List.mem_of_getLast? hlast)

lemma fitsLine_cell (h : o.entry.FitsLine) (depth : Nat) (column : Column) :
    FitsLine (cell depth o column).toList := by
  cases column with
  | node =>
    rw [cell, String.toList_append, String.toList_ofList]
    refine h.caption.append_left o.entry.caption_ne_nil fun hmem => ?_
    exact absurd (List.eq_of_mem_replicate hmem) (by decide)
  | path => exact h.path
  | field => exact h.label
  | type => exact h.typeName
  | value => exact h.valueText
  | position =>
    unfold cell
    cases o.entry.position with
    | none => exact fitsLine_nil
    | some p => exact (isVisible_place p).1.fitsLine
  | highlight => exact fitsLine_highlightText o

lemma fitsLine_header (column : Column) : FitsLine column.header.toList := by
  cases column <;> decide

lemma tableRows_eq (view : View) (hasHeader : Bool) (o : Outline) : tableRows view hasHeader o =
    headings view hasHeader ++ (shown view.expansion o).map (cellsOf view) := by
  rw [tableRows, rows_eq]
  simp only [Nat.zero_add]
  rfl

lemma tableRows_ne_nil (view : View) (hasHeader : Bool) (o : Outline) :
    tableRows view hasHeader o ≠ [] := by
  have hroot : ([], o) ∈ shown view.expansion o := (mem_shown _ o [] o).mpr (isShown_nil.mpr rfl)
  rw [tableRows_eq]
  exact List.append_ne_nil_of_right_ne_nil _ (List.ne_nil_of_mem (List.mem_map_of_mem hroot))

lemma mem_headings {hasHeader : Bool} {row : List String} (h : row ∈ headings view hasHeader) :
    row = view.columns.map Column.header := by
  unfold headings at h
  split at h
  · exact List.mem_singleton.mp h
  · cases h

lemma length_of_mem_tableRows {hasHeader : Bool} :
    ∀ row ∈ tableRows view hasHeader o, row.length = view.columns.length := by
  intro row hrow
  rw [tableRows_eq] at hrow
  rcases List.mem_append.mp hrow with h | h
  · rw [mem_headings h, List.length_map]
  · obtain ⟨p, -, rfl⟩ := List.mem_map.mp h
    exact List.length_map _

lemma fits_tableRows (hentries : ∀ m ∈ o.nodes, m.entry.FitsLine) {hasHeader : Bool} :
    ∀ row ∈ tableRows view hasHeader o,
      Fits (widths view.columns.length (tableRows view hasHeader o)) row := by
  intro row hrow
  refine fits_widths length_of_mem_tableRows hrow ?_
  rw [tableRows_eq] at hrow
  rcases List.mem_append.mp hrow with h | h
  · rw [mem_headings h, List.forall_mem_map]
    exact fun column _ => fitsLine_header column
  · obtain ⟨p, hp, rfl⟩ := List.mem_map.mp h
    rw [cellsOf, List.forall_mem_map]
    exact fun column _ => fitsLine_cell (hentries p.2 (mem_nodes_of_mem_shown hp)) _ column

lemma table_eq (view : View) (hasHeader : Bool) (o : Outline) :
    let ws := widths view.columns.length (tableRows view hasHeader o)
    table view hasHeader o = String.join (((headings view hasHeader).map (line ws) ++
      (shown view.expansion o).map fun p => line ws (cellsOf view p)).map (· ++ "\n")) := by
  intro ws
  change String.join ((tableRows view hasHeader o).map fun row => line ws row ++ "\n") = _
  rw [tableRows_eq, List.map_append, List.map_append, List.map_map, List.map_map, List.map_map]
  rfl

/-- The lines of a table are aligned if the texts of all nodes fit a line. -/
theorem isAligned_table (hentries : ∀ m ∈ o.nodes, m.entry.FitsLine) (hasHeader : Bool) :
    let ws := widths view.columns.length (tableRows view hasHeader o)
    IsAligned view hasHeader (shown view.expansion o) ws ((headings view hasHeader).map (line ws))
      ((shown view.expansion o).map fun p => line ws (cellsOf view p)) := by
  intro ws
  have hline : ∀ row ∈ headings view hasHeader ++ (shown view.expansion o).map (cellsOf view),
      IsLine ws row (line ws row) := by
    intro row hrow
    rw [← tableRows_eq] at hrow
    exact isLine_line (fits_tableRows hentries row hrow)
  refine ⟨length_widths length_of_mem_tableRows, fun j w hw => ?_, ?_, ?_⟩
  · rw [← tableRows_eq]
    exact isGreatest_widths length_of_mem_tableRows (tableRows_ne_nil view hasHeader o) hw
  · rw [List.forall₂_map_right_iff, List.forall₂_same]
    exact fun row hrow => hline row (List.mem_append_left _ hrow)
  · rw [List.forall₂_map_right_iff, List.forall₂_same]
    exact fun p hp => hline _ (List.mem_append_right _ (List.mem_map_of_mem hp))

/-- In a last column of spans, the line of a node that is out of order ends in a mark. -/
lemma isMarked_line (hentries : ∀ m ∈ o.nodes, m.entry.FitsLine) {hasHeader : Bool}
    (hcolumn : view.columns.getLast? = some .highlight) {p : List Nat × Outline}
    (hp : p ∈ shown view.expansion o) {s : Span} (hs : p.2.span = some s) :
    IsMarked (line (widths view.columns.length (tableRows view hasHeader o)) (cellsOf view p)) ↔
      p.2.outOfOrder = true := by
  have hrow : cellsOf view p ∈ tableRows view hasHeader o := by
    rw [tableRows_eq]
    exact List.mem_append_right _ (List.mem_map_of_mem hp)
  have hfits := fits_tableRows hentries _ hrow
  have hlast : (cellsOf view p).getLast? = some (highlightText p.2) := by
    rw [cellsOf, List.getLast?_map, hcolumn]
    rfl
  obtain ⟨hne, hmark⟩ := isMarked_highlightText hs
  obtain ⟨front, hfront⟩ :=
    (isLine_line hfits).suffix hfits hlast hne (fitsLine_highlightText p.2)
  rw [← hmark, IsMarked, ← hfront, List.getLast?_append_of_ne_nil front hne, IsMarked]

end SyntaxLens.Export

namespace SyntaxLens

open Export

variable {config : Config} {source dump label : String} {t : SourceTree} {view : View}

lemma fitsLine_of_load (ht : load config source dump label = .ok t)
    (hlabel : Text.FitsLine label.toList) : ∀ n ∈ t.root.nodes, n.entry.FitsLine := by
  intro n hn
  obtain ⟨tree, hread, -, hroot⟩ := load_cases ht
  rw [hroot] at hn
  obtain ⟨m, hm, hentry⟩ := Outline.exists_entry_of_mem_resolve hn
  rw [hentry]
  have hpath : Text.FitsLine "".toList := Text.fitsLine_nil
  exact Outline.fitsLine_ofNode (Dump.fitsLine_of_read hread) hlabel hpath hm

/-- The table of a loaded tree is one line for the headings, if it has them, and one for every node
that is shown, in pre-order. Columns are as wide as their longest cells, and a line that is padded
to the full width is the padded cells of its row, each of which starts where its column does. If
spans are the last column, the lines of nodes end in a mark just if the nodes are out of order, and
if all nodes are shown, there are as many such lines as nodes out of order. -/
theorem SourceTree.tableText_aligned (ht : load config source dump label = .ok t)
    (hlabel : Text.FitsLine label.toList) (hcolumns : view.columns ≠ []) (hasHeader : Bool) :
    ∃ listing ws heading lines,
      t.tableText view hasHeader none =
        .ok (String.join ((heading ++ lines).map (· ++ "\n"))) ∧
      IsListing view.expansion t.root listing ∧
      IsAligned view hasHeader listing ws heading lines ∧
      (view.columns.getLast? = some .highlight →
        List.Forall₂ (fun p text => IsMarked text ↔ p.2.outOfOrder = true) listing lines ∧
        (view.expansion = .all → lines.countP (IsMarked ·) = t.root.outOfOrderCount)) := by
  have hentries := fitsLine_of_load ht hlabel
  refine ⟨shown view.expansion t.root, _, _, _, ?_, isListing_shown _ _,
    isAligned_table hentries hasHeader, fun hcolumn => ?_⟩
  · rw [SourceTree.tableText, if_neg hcolumns, table_eq]
    rfl
  have hmarked : ∀ p ∈ shown view.expansion t.root,
      (IsMarked (line (widths view.columns.length (tableRows view hasHeader t.root))
        (cellsOf view p)) ↔ p.2.outOfOrder = true) := by
    intro p hp
    obtain ⟨s, hs, -⟩ := isNumbered_start_of_load ht (mem_nodes_of_mem_shown hp)
    exact isMarked_line hentries hcolumn hp hs
  refine ⟨?_, fun hall => ?_⟩
  · rw [List.forall₂_map_right_iff, List.forall₂_same]
    exact hmarked
  · rw [List.countP_map, Outline.outOfOrderCount, ← map_shown_all, ← hall, List.countP_map]
    refine List.countP_congr fun p hp => ?_
    simpa using hmarked p hp

/-- The items of `A(b=[C(lineno=2),D(lineno=1)])` are in the wrong order, and only the first one is
out of order itself. -/
theorem SourceTree.tableText_aligned_out_of_order :
    let view : View := ⟨[.type, .highlight], .all⟩
    ∃ t, load default "x\ny" "A(b=[C(lineno=2),D(lineno=1)])" "tree" = .ok t ∧
      Text.FitsLine "tree".toList ∧ view.columns ≠ [] ∧
      t.tableText view true none = .ok ("Class  Highlight\nA      2:0 : 2:1\n" ++
        "list   2:0 : 2:1\nC      2:0 : 1:0 !\nD      1:0 : 2:1\n") ∧
      ∃ listing ws heading lines,
        t.tableText view true none = .ok (String.join ((heading ++ lines).map (· ++ "\n"))) ∧
        IsListing view.expansion t.root listing ∧
        IsAligned view true listing ws heading lines ∧
        List.Forall₂ (fun p text => IsMarked text ↔ p.2.outOfOrder = true) listing lines ∧
        lines.countP (IsMarked ·) = t.root.outOfOrderCount ∧ t.root.outOfOrderCount = 1 := by
  intro view
  let tree : Node := .composite "A"
    [("b", .sequence .list [.composite "C" [] (some ⟨2, 0⟩), .composite "D" [] (some ⟨1, 0⟩)])] none
  let t : SourceTree := ⟨.ofText "x\ny", (Outline.ofTree "tree" tree).resolve
    (default : Config).detached (.loc (LineTable.ofText "x\ny").endOfDocument)⟩
  have hread : Dump.read "A(b=[C(lineno=2),D(lineno=1)])" = .ok tree := by cbv
  have hload : load default "x\ny" "A(b=[C(lineno=2),D(lineno=1)])" "tree" = .ok t := by
    rw [load, hread]
  have hlabel : Text.FitsLine "tree".toList := by decide
  have hcolumns : view.columns ≠ [] := List.cons_ne_nil _ _
  obtain ⟨listing, ws, heading, lines, htext, hlisting, haligned, hmarked⟩ :=
    SourceTree.tableText_aligned hload hlabel hcolumns true
  obtain ⟨hmarks, hcount⟩ := hmarked rfl
  refine ⟨t, hload, hlabel, hcolumns, ?_, listing, ws, heading, lines, htext, hlisting, haligned,
    hmarks, hcount rfl, ?_⟩
  · cbv
  · cbv

end SyntaxLens
