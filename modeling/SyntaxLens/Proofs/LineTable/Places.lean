import SyntaxLens.Proofs.LineTable.Boundaries
import SyntaxLens.Proofs.LineTable.Rows

/-!
# Places and offsets

Every offset between two characters is that of exactly one place of the text, unless it falls
within a line break of two characters. Lines are closed by breaks that are not empty, so that the
ranges of two lines do not even touch.
-/

namespace SyntaxLens

variable {cs xs ys : List Char} {offset start : Nat}

lemma isBoundary_zero (cs : List Char) : IsBoundary cs 0 :=
  ⟨[], cs, rfl, rfl⟩

lemma isBoundary_size (cs : List Char) : IsBoundary cs (Text.Utf8.size cs) :=
  ⟨cs, [], (List.append_nil cs).symm, rfl⟩

lemma IsBoundary.le_size (h : IsBoundary cs offset) : offset ≤ Text.Utf8.size cs := by
  obtain ⟨before, after, rfl, rfl⟩ := h
  rw [Text.Utf8.size_append]
  omega

lemma isBoundary_of_isValid {source : String} (h : String.Pos.Raw.IsValid source ⟨offset⟩) :
    IsBoundary source.toList offset := by
  obtain ⟨before, after, rfl, hoffset⟩ := String.Pos.Raw.isValid_iff_exists_append.mp h
  refine ⟨before.toList, after.toList, String.toList_append, ?_⟩
  rw [← utf8ByteSize_ofList, String.ofList_toList]
  exact (congrArg String.Pos.Raw.byteIdx hoffset).symm

lemma isBoundary_append (h : IsBoundary (xs ++ ys) offset) :
    IsBoundary xs offset ∨ ∃ rest, offset = Text.Utf8.size xs + rest ∧ IsBoundary ys rest := by
  obtain ⟨before, after, happend, rfl⟩ := h
  rcases List.append_eq_append_iff.mp happend with ⟨word, rfl, rfl⟩ | ⟨word, rfl, rfl⟩
  · right
    exact ⟨Text.Utf8.size word, Text.Utf8.size_append xs word, word, after, rfl, rfl⟩
  · left
    exact ⟨before, word, rfl, rfl⟩

lemma floorColumn_of_isBoundary (h : IsBoundary cs offset) : floorColumn offset cs = offset := by
  induction cs generalizing offset with
  | nil =>
    have hle := h.le_size
    rw [Text.Utf8.size_nil] at hle
    rw [floorColumn]
    omega
  | cons c cs ih =>
    obtain ⟨before, after, hcs, rfl⟩ := h
    cases before with
    | nil =>
      have hc := c.utf8Size_pos
      rw [floorColumn, Text.Utf8.size_nil, if_neg (by omega)]
    | cons d before =>
      obtain ⟨rfl, rfl⟩ := List.cons.inj hcs
      rw [floorColumn, Text.Utf8.size_cons, if_pos (by omega), Nat.add_sub_cancel_left,
        ih ⟨before, after, rfl, rfl⟩]

/-- The offset falls within a line break of two characters. -/
def WithinLineBreak (cs : List Char) (offset : Nat) : Prop :=
  ∃ before after, cs = before ++ '\r' :: '\n' :: after ∧ offset = Text.Utf8.size before + 1

lemma WithinLineBreak.append_left (h : WithinLineBreak cs offset) (xs : List Char) :
    WithinLineBreak (xs ++ cs) (Text.Utf8.size xs + offset) := by
  obtain ⟨before, after, rfl, rfl⟩ := h
  refine ⟨xs ++ before, after, (List.append_assoc _ _ _).symm, ?_⟩
  rw [Text.Utf8.size_append]
  omega

lemma LineBreak.size_pos {ending : LineBreak} (h : ending ≠ .none) :
    0 < Text.Utf8.size ending.chars := by
  cases ending with
  | none => exact absurd rfl h
  | lf | crlf | cr => decide

lemma LineBreak.isBoundary_chars {ending : LineBreak} (h : IsBoundary ending.chars offset) :
    offset = 0 ∨ offset = Text.Utf8.size ending.chars ∨ ending = .crlf ∧ offset = 1 := by
  obtain ⟨before, after, hchars, rfl⟩ := h
  cases before with
  | nil => exact .inl rfl
  | cons c before =>
    right
    cases ending with
    | none => cases hchars
    | lf | cr =>
      obtain ⟨rfl, hrest⟩ := List.cons.inj hchars
      obtain ⟨rfl, -⟩ := List.append_eq_nil_iff.mp hrest.symm
      exact .inl rfl
    | crlf =>
      obtain ⟨rfl, hrest⟩ := List.cons.inj hchars
      cases before with
      | nil => exact .inr ⟨rfl, rfl⟩
      | cons d before =>
        obtain ⟨rfl, hnil⟩ := List.cons.inj hrest
        obtain ⟨rfl, -⟩ := List.append_eq_nil_iff.mp hnil.symm
        exact .inl rfl

/-- Lines that are closed by breaks, and a last one that ends with the text. -/
def rowsBefore (closed : List Row) (last : List Char) : List Row :=
  closed ++ [⟨last, .none⟩]

lemma rowsBefore_cons (row : Row) (closed : List Row) (last : List Char) :
    rowsBefore (row :: closed) last = row :: rowsBefore closed last := rfl

lemma Parted.eq_rowsBefore {rows : List Row} (h : Parted rows) :
    ∃ closed last, rows = rowsBefore closed last ∧ ∀ row ∈ closed, row.ending ≠ .none := by
  induction h with
  | @last line hline => exact ⟨[], line, rfl, List.forall_mem_nil _⟩
  | @closed row rows hline hbreak h ih =>
    obtain ⟨closed, last, rfl, hclosed⟩ := ih
    exact ⟨row :: closed, last, rfl, List.forall_mem_cons.mpr ⟨hbreak.ending_ne_none, hclosed⟩⟩

lemma rowsOf_eq_rowsBefore (cs : List Char) :
    ∃ closed last, rowsOf cs = rowsBefore closed last ∧ ∀ row ∈ closed, row.ending ≠ .none :=
  (parted_rowsOf cs).eq_rowsBefore

/-- The offset lies between two characters of one of the lines, or at one of its ends. -/
def OnLine (lines : List Line) (offset : Nat) : Prop :=
  ∃ (i : Nat) (line : Line) (column : Nat), lines[i]? = some line ∧
    IsBoundary line.chars column ∧ offset = line.range.start + column

lemma OnLine.cons {lines : List Line} (h : OnLine lines offset) (l : Line) :
    OnLine (l :: lines) offset := by
  obtain ⟨i, line, column, hline, hcolumn, hoffset⟩ := h
  exact ⟨i + 1, line, column, hline, hcolumn, hoffset⟩

lemma onLine_placeRows_self {row : Row} {rows : List Row} {column : Nat}
    (h : IsBoundary row.chars column) : OnLine (placeRows start (row :: rows)) (start + column) :=
  ⟨0, ⟨row.chars, ⟨start, start + Text.Utf8.size row.chars⟩⟩, column, rfl, h, rfl⟩

section Rows

variable {closed : List Row} {last : List Char} (hclosed : ∀ row ∈ closed, row.ending ≠ .none)

include hclosed

lemma pairwise_lt_placeRows :
    (placeRows start (rowsBefore closed last)).Pairwise
      (fun l m => l.range.stop < m.range.start) := by
  induction closed generalizing start with
  | nil => exact List.pairwise_singleton _ _
  | cons row closed ih =>
    obtain ⟨hrow, hclosed⟩ := List.forall_mem_cons.mp hclosed
    refine List.pairwise_cons.mpr ⟨fun line hline => ?_, ih hclosed⟩
    have hbreak := LineBreak.size_pos hrow
    have hstart := (range_of_mem_placeRows hline).1
    change start + Text.Utf8.size row.chars < line.range.start
    omega

lemma add_index_le_start {i : Nat} {line : Line}
    (h : (placeRows start (rowsBefore closed last))[i]? = some line) :
    start + i ≤ line.range.start := by
  induction closed generalizing start i with
  | nil =>
    cases i with
    | zero => cases h; exact Nat.le_refl _
    | succ i => cases h
  | cons row closed ih =>
    obtain ⟨hrow, hclosed⟩ := List.forall_mem_cons.mp hclosed
    cases i with
    | zero => cases h; exact Nat.le_refl _
    | succ i =>
      have hbreak := LineBreak.size_pos hrow
      have hle := ih hclosed h
      omega

/-- An offset between two characters is on a line, if it is not within a line break. -/
lemma onLine_of_isBoundary (h : IsBoundary (textOfRows (rowsBefore closed last)) offset)
    (hbreak : ¬WithinLineBreak (textOfRows (rowsBefore closed last)) offset) :
    OnLine (placeRows start (rowsBefore closed last)) (start + offset) := by
  induction closed generalizing start offset with
  | nil =>
    have htext : textOfRows (rowsBefore [] last) = last := by
      simp [rowsBefore, LineBreak.chars]
    rw [htext] at h
    exact onLine_placeRows_self h
  | cons row closed ih =>
    obtain ⟨-, hclosed⟩ := List.forall_mem_cons.mp hclosed
    rw [rowsBefore_cons, textOfRows_cons] at h hbreak
    have hlater {rest : Nat} (hrest : IsBoundary (textOfRows (rowsBefore closed last)) rest)
        (hoffset : offset =
          Text.Utf8.size row.chars + (Text.Utf8.size row.ending.chars + rest)) :
        OnLine (placeRows start (rowsBefore (row :: closed) last)) (start + offset) := by
      have houtside : ¬WithinLineBreak (textOfRows (rowsBefore closed last)) rest := by
        intro hwithin
        apply hbreak
        rw [hoffset]
        exact (hwithin.append_left _).append_left _
      rw [hoffset, ← Nat.add_assoc, ← Nat.add_assoc]
      exact (ih hclosed hrest houtside).cons _
    rcases isBoundary_append h with hrow | ⟨past, rfl, hpast⟩
    · exact onLine_placeRows_self hrow
    rcases isBoundary_append hpast with hending | ⟨rest, rfl, hrest⟩
    · rcases LineBreak.isBoundary_chars hending with rfl | rfl | ⟨hcrlf, rfl⟩
      · exact onLine_placeRows_self (isBoundary_size row.chars)
      · exact hlater (isBoundary_zero _) rfl
      · refine absurd ⟨row.chars, textOfRows (rowsBefore closed last), ?_, rfl⟩ hbreak
        rw [hcrlf]
        rfl
    · exact hlater hrest rfl

end Rows

namespace LineTable

variable {source : String}

/-- A place of the text: a line that the text has, which starts at one, and a column between two
characters of the line or at one of its ends. -/
structure HasPlace (t : LineTable) (p : LineCol) : Prop where
  one_le : 1 ≤ p.line
  line_le : p.line.toNat ≤ t.lines.length
  column : ∃ line, t.lines[p.line.toNat - 1]? = some line ∧
    p.column.toNat ≤ line.range.length ∧ IsBoundary line.chars p.column.toNat

lemma lines_eq_placeRows (source : String) :
    ∃ closed last, (ofText source).lines = placeRows 0 (rowsBefore closed last) ∧
      source.toList = textOfRows (rowsBefore closed last) ∧
      ∀ row ∈ closed, row.ending ≠ .none := by
  obtain ⟨closed, last, hrows, hclosed⟩ := rowsOf_eq_rowsBefore source.toList
  refine ⟨closed, last, ?_, ?_, hclosed⟩
  · rw [ofText, hrows]
  · rw [← hrows, textOfRows_rowsOf]

lemma lines_apart :
    (ofText source).lines.Pairwise (fun l m => l.range.stop < m.range.start) := by
  obtain ⟨closed, last, hlines, -, hclosed⟩ := lines_eq_placeRows source
  rw [hlines]
  exact pairwise_lt_placeRows hclosed

lemma HasPlace.offset_eq {t : LineTable} {p : LineCol} (h : t.HasPlace p) :
    ∃ line, t.lines[p.line.toNat - 1]? = some line ∧ p.column.toNat ≤ line.range.length ∧
      t.offset (.loc p) = line.range.start + p.column.toNat := by
  obtain ⟨line, hline, hle, hcolumn⟩ := h.column
  refine ⟨line, hline, hle, ?_⟩
  rw [offset_loc_of_line hline, floorColumn_of_isBoundary hcolumn]

lemma HasPlace.inj {p q : LineCol} (hp : (ofText source).HasPlace p)
    (hq : (ofText source).HasPlace q)
    (h : (ofText source).offset (.loc p) = (ofText source).offset (.loc q)) : p = q := by
  obtain ⟨l, hl, hple, hpoffset⟩ := hp.offset_eq
  obtain ⟨m, hm, hqle, hqoffset⟩ := hq.offset_eq
  obtain ⟨hi, rfl⟩ := List.getElem?_eq_some_iff.mp hl
  obtain ⟨hj, rfl⟩ := List.getElem?_eq_some_iff.mp hm
  have hlstop := (range_of_mem_lines (List.getElem_mem hi)).1
  have hmstop := (range_of_mem_lines (List.getElem_mem hj)).1
  rw [hpoffset, hqoffset] at h
  rw [ByteSpan.length] at hple hqle
  have hpone := UInt32.le_iff_toNat_le.mp hp.one_le
  have hqone := UInt32.le_iff_toNat_le.mp hq.one_le
  have hindex : p.line.toNat - 1 = q.line.toNat - 1 := by
    rcases Nat.lt_trichotomy (p.line.toNat - 1) (q.line.toNat - 1) with hlt | heq | hgt
    · have hlt := List.pairwise_iff_getElem.mp lines_apart _ _ hi hj hlt
      omega
    · exact heq
    · have hgt := List.pairwise_iff_getElem.mp lines_apart _ _ hj hi hgt
      omega
  have hline : p.line = q.line := by
    apply UInt32.toNat_inj.mp
    change 1 ≤ p.line.toNat at hpone
    change 1 ≤ q.line.toNat at hqone
    omega
  have hcolumn : p.column = q.column := by
    simp only [hindex] at h
    exact UInt32.toNat_inj.mp (by omega)
  cases p
  cases q
  rw [LineCol.mk.injEq]
  exact ⟨hline, hcolumn⟩

lemma exists_place {offset : Nat} (hsize : source.utf8ByteSize ≤ UInt32.size - 2)
    (h : IsBoundary source.toList offset) (hbreak : ¬WithinLineBreak source.toList offset) :
    ∃ p : LineCol, (ofText source).HasPlace p ∧ (ofText source).offset (.loc p) = offset := by
  obtain ⟨closed, last, hlines, htext, hclosed⟩ := lines_eq_placeRows source
  have hle : offset ≤ source.utf8ByteSize := by
    rw [← size_ofText]
    exact h.le_size
  rw [htext] at h hbreak
  have honLine : OnLine (placeRows 0 (rowsBefore closed last)) (0 + offset) :=
    onLine_of_isBoundary hclosed h hbreak
  obtain ⟨i, line, column, hline, hcolumn, hoffset⟩ := honLine
  have hi := add_index_le_start hclosed hline
  rw [← hlines] at hline
  have hstop := (range_of_mem_lines (List.mem_of_getElem? hline)).1
  have hin := hcolumn.le_size
  have hlength := (List.getElem?_eq_some_iff.mp hline).1
  -- a text of this size has less than `UInt32.size` lines
  rw [UInt32.size] at hsize
  have hnumber : (UInt32.ofNat (i + 1)).toNat = i + 1 := by
    apply UInt32.toNat_ofNat_of_lt'
    rw [UInt32.size]
    omega
  have hwidth : (UInt32.ofNat column).toNat = column := by
    apply UInt32.toNat_ofNat_of_lt'
    rw [UInt32.size]
    omega
  have hplace : (ofText source).HasPlace ⟨UInt32.ofNat (i + 1), UInt32.ofNat column⟩ := by
    refine ⟨?_, ?_, line, ?_, ?_, ?_⟩
    · rw [UInt32.le_iff_toNat_le, hnumber]
      change 1 ≤ i + 1
      omega
    · rw [hnumber]
      omega
    · rw [hnumber]
      exact hline
    · rw [hwidth, ByteSpan.length]
      omega
    · rw [hwidth]
      exact hcolumn
  refine ⟨_, hplace, ?_⟩
  obtain ⟨line', hline', -, hoffset'⟩ := hplace.offset_eq
  rw [hnumber] at hline'
  obtain rfl : line = line' := Option.some.inj (hline.symm.trans hline')
  rw [hoffset', hwidth]
  omega

lemma saturate_toNat (n : UInt32) : saturate n.toNat = n := by
  have hn := n.toNat_lt
  have hmin : min n.toNat (UInt32.size - 1) = n.toNat := by
    apply Nat.min_eq_left
    rw [UInt32.size]
    omega
  rw [saturate, hmin, UInt32.ofNat_toNat]

lemma HasPlace.eq_endOfDocument {p : LineCol} (h : (ofText source).HasPlace p)
    (hoffset : (ofText source).offset (.loc p) = (ofText source).size) :
    p = (ofText source).endOfDocument := by
  obtain ⟨line, hline, hle, hplace⟩ := h.offset_eq
  obtain ⟨hi, rfl⟩ := List.getElem?_eq_some_iff.mp hline
  obtain ⟨hstop, hsize⟩ := range_of_mem_lines (List.getElem_mem hi)
  have hone : 1 ≤ p.line.toNat := UInt32.le_iff_toNat_le.mp h.one_le
  have hlast : p.line.toNat = (ofText source).lines.length := by
    by_contra hne
    have hj : p.line.toNat < (ofText source).lines.length := by
      have := h.line_le
      omega
    have hnext := List.pairwise_iff_getElem.mp lines_apart _ _ hi hj (by omega)
    obtain ⟨hstop', hsize'⟩ := range_of_mem_lines (List.getElem_mem hj)
    rw [ByteSpan.length] at hle
    omega
  have hcolumn : p.column.toNat = ((ofText source).lines[p.line.toNat - 1]).range.length := by
    rw [ByteSpan.length] at hle ⊢
    omega
  have hgetLast : (ofText source).lines.getLast? =
      some (ofText source).lines[p.line.toNat - 1] := by
    rw [List.getLast?_eq_getElem?, ← hlast]
    exact hline
  rw [endOfDocument, hgetLast, Option.elim_some, ← hlast, ← hcolumn, saturate_toNat,
    saturate_toNat]

lemma not_withinLineBreak_size (cs : List Char) : ¬WithinLineBreak cs (Text.Utf8.size cs) := by
  rintro ⟨before, after, hcs, hsize⟩
  have hcr : '\r'.utf8Size = 1 := rfl
  have hlf := '\n'.utf8Size_pos
  rw [hcs, Text.Utf8.size_append, Text.Utf8.size_cons, Text.Utf8.size_cons] at hsize
  omega

/-- In a text that is not too long for 32 bits, every offset between two characters that does not
fall within a line break is that of exactly one place. At the end of the text it is the place after
the last character, so that the text is the slice up to there. -/
theorem existsUnique_place {source : String} (hsize : source.utf8ByteSize ≤ UInt32.size - 2) :
    (∀ offset, String.Pos.Raw.IsValid source ⟨offset⟩ → ¬WithinLineBreak source.toList offset →
      ∃! p : LineCol,
        (ofText source).HasPlace p ∧ (ofText source).offset (.loc p) = offset) ∧
    (∀ p : LineCol, (ofText source).HasPlace p ∧
      (ofText source).offset (.loc p) = source.utf8ByteSize ↔
        p = (ofText source).endOfDocument) ∧
    (ofText source).slice ⟨.start, .loc (ofText source).endOfDocument⟩ = source := by
  have hend : (ofText source).HasPlace (ofText source).endOfDocument ∧
      (ofText source).offset (.loc (ofText source).endOfDocument) = (ofText source).size := by
    obtain ⟨p, hp, hoffset⟩ := exists_place hsize (isBoundary_size source.toList)
      (not_withinLineBreak_size source.toList)
    obtain rfl := hp.eq_endOfDocument hoffset
    exact ⟨hp, hoffset⟩
  refine ⟨fun offset hvalid hbreak => ?_, fun p => ⟨?_, ?_⟩, ?_⟩
  · obtain ⟨p, hp, hoffset⟩ := exists_place hsize (isBoundary_of_isValid hvalid) hbreak
    exact ⟨p, ⟨hp, hoffset⟩, fun q hq => hq.1.inj hp (hq.2.trans hoffset.symm)⟩
  · rintro ⟨hp, hoffset⟩
    rw [← size_ofText] at hoffset
    exact hp.eq_endOfDocument hoffset
  · rintro rfl
    rw [← size_ofText]
    exact hend
  · have hstart : (ofText source).offset .start = 0 := rfl
    rw [slice_of_le (by rw [hstart]; exact Nat.zero_le _), hend.2, hstart]
    change String.ofList (sliceFrom 0 ⟨0, Text.Utf8.size source.toList⟩ source.toList) = source
    rw [sliceFrom_of_within source.toList (Nat.le_refl 0) (Nat.zero_add _).le,
      String.ofList_toList]

/-- The end of a line in front of its break, in a text that ends with an empty line. -/
theorem existsUnique_place_crlf :
    let source := "é\r\n"
    let t := ofText source
    (source.utf8ByteSize ≤ UInt32.size - 2 ∧ String.Pos.Raw.IsValid source ⟨2⟩ ∧
        ¬WithinLineBreak source.toList 2) ∧
      (∃! p : LineCol, t.HasPlace p ∧ t.offset (.loc p) = 2) ∧ t.endOfDocument = ⟨2, 0⟩ ∧
      t.slice ⟨.start, .loc ⟨2, 0⟩⟩ = source := by
  intro source t
  have hsize : source.utf8ByteSize ≤ UInt32.size - 2 := by decide
  have hvalid : String.Pos.Raw.IsValid source ⟨2⟩ :=
    isValid_of_isBoundary ⟨['é'], ['\r', '\n'], by decide, rfl⟩
  have hbreak : ¬WithinLineBreak source.toList 2 := by
    have htext : source.toList = ['é', '\r', '\n'] := by decide
    rw [htext]
    rintro ⟨before, after, hsource, hoffset⟩
    cases before with
    | nil => cases hoffset
    | cons c before =>
      obtain ⟨rfl, -⟩ := List.cons.inj hsource
      have hwidth : 'é'.utf8Size = 2 := rfl
      rw [Text.Utf8.size_cons] at hoffset
      omega
  have hend : t.endOfDocument = ⟨2, 0⟩ := by decide
  obtain ⟨hplaces, -, hslice⟩ := existsUnique_place hsize
  rw [hend] at hslice
  exact ⟨⟨hsize, hvalid, hbreak⟩, hplaces 2 hvalid hbreak, hend, hslice⟩

end LineTable

end SyntaxLens
