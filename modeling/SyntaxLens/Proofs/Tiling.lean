import Mathlib
import SyntaxLens.Proofs.LineTable.Boundaries
import SyntaxLens.Proofs.Outline.Following
import SyntaxLens.Proofs.Selection

/-!
# Tiling the source text

The items of a sequence in a loaded tree that stand in order tile what is highlighted for the
sequence: each one is highlighted from its own position up to that of the next one, and the last one
up to what follows the sequence.
-/

namespace SyntaxLens

open Outline

variable {config : Config} {source dump label : String} {t : SourceTree}

lemma one_le_line_of_load (h : load config source dump label = .ok t) {n : Outline}
    (hn : n ∈ t.root.nodes) {p : LineCol} (hp : n.entry.position = some p) : 1 ≤ p.line := by
  obtain ⟨tree, hread, -, hroot⟩ := load_cases h
  rw [hroot] at hn
  obtain ⟨m, hm, hentry⟩ := exists_entry_of_mem_resolve hn
  rw [hentry] at hp
  exact one_le_line_ofNode (Dump.isNumbered_read hread) hm hp

lemma position_of_sequence_of_load (h : load config source dump label = .ok t) {n : Outline}
    (hn : n ∈ t.root.nodes) (hkind : n.entry.kind = .sequence) : n.entry.position = none := by
  obtain ⟨tree, -, -, hroot⟩ := load_cases h
  rw [hroot] at hn
  obtain ⟨m, hm, hentry⟩ := exists_entry_of_mem_resolve hn
  rw [hentry] at hkind ⊢
  exact position_of_sequence hm hkind

/-- An exposed node of a loaded tree is placed before the first position that follows it or else
before the end of the document. -/
lemma exists_surroundings_of_load (h : load config source dump label = .ok t) {route : List Nat}
    {n : Outline} (hn : t.root.exposedAt? config.detached route = some n) :
    ∃ s : Surroundings, n = n.place config.detached s ∧
      s.next = .loc ((t.root.positionAfter? config.detached route).getD t.documentEnd) := by
  obtain ⟨tree, -, hsource, hroot⟩ := load_cases h
  rw [hroot] at hn
  obtain ⟨s, hplace, hnext⟩ := eq_place_of_exposedAt?_resolve hn
  refine ⟨s, hplace, ?_⟩
  rw [hnext, ← hroot, SourceTree.documentEnd, hsource]
  cases t.root.positionAfter? config.detached route <;> rfl

/-- The text is what a source has between two offsets. -/
def IsBetween (source : String) (start stop : Nat) (text : String) : Prop :=
  ∃ before after : String, source = before ++ text ++ after ∧
    before.utf8ByteSize = start ∧ (before ++ text).utf8ByteSize = stop

lemma isBetween_slice {table : LineTable} (htable : table = LineTable.ofText source) {p q : LineCol}
    (hp : 1 ≤ p.line) (hpq : p < q) :
    IsBetween source (table.offset (.loc p)) (table.offset (.loc q))
      (table.slice ⟨.loc p, .loc q⟩) := by
  subst htable
  have hle : (LineTable.ofText source).offset (.loc p) ≤
      (LineTable.ofText source).offset (.loc q) :=
    LineTable.offset_loc_mono hp (le_of_lt hpq)
  obtain ⟨before, after, hsource, hstart, hstop⟩ :=
    @LineTable.slice_is_part source ⟨.loc p, .loc q⟩
  rw [LineTable.range, Nat.min_eq_left hle] at hstart
  rw [LineTable.range, Nat.max_eq_right hle] at hstop
  exact ⟨before, after, hsource, hstart, hstop⟩

lemma getElem?_spansBetween {ps : List LineCol} {q p p' : LineCol} {i : Nat}
    (hp : (ps ++ [q])[i]? = some p) (hp' : (ps ++ [q])[i + 1]? = some p') :
    (spansBetween ps (.loc q))[i]? = some ⟨.loc p, .loc p'⟩ := by
  induction ps generalizing i with
  | nil => simp at hp'
  | cons r ps ih =>
    cases ps with
    | nil =>
      cases i with
      | zero =>
        obtain rfl : r = p := Option.some.inj hp
        obtain rfl : q = p' := Option.some.inj hp'
        rfl
      | succ i => simp at hp'
    | cons r' ps =>
      cases i with
      | zero =>
        obtain rfl : r = p := Option.some.inj hp
        obtain rfl : r' = p' := Option.some.inj hp'
        rfl
      | succ i => exact ih hp hp'

lemma join_slice_spansBetween (source : String) {p q : LineCol} {ps : List LineCol}
    (hline : ∀ r ∈ p :: ps, 1 ≤ r.line) (hlt : (p :: ps ++ [q]).IsChain (· < ·)) :
    String.join ((spansBetween (p :: ps) (.loc q)).map (LineTable.ofText source).slice) =
      (LineTable.ofText source).slice ⟨.loc p, .loc q⟩ := by
  have hmono {r r' : LineCol} (hr : 1 ≤ r.line) (hrr : r < r') :
      (LineTable.ofText source).offset (.loc r) ≤ (LineTable.ofText source).offset (.loc r') :=
    LineTable.offset_loc_mono hr (le_of_lt hrr)
  induction ps generalizing p with
  | nil => simp [spansBetween]
  | cons p' ps ih =>
    rw [List.cons_append, List.isChain_cons] at hlt
    have hp := hline p List.mem_cons_self
    have hp' := hline p' (List.mem_cons_of_mem p List.mem_cons_self)
    have hpp : p < p' := hlt.1 p' rfl
    have hpq : p' < q := hlt.2.rel_cons (by simp)
    rw [spansBetween, List.map_cons, String.join_cons,
      ih (fun r hr => hline r (List.mem_cons_of_mem p hr)) hlt.2,
      LineTable.slice_append_slice (hmono hp hpp) (hmono hp' hpq)]

/-- The items of a sequence that stand in order are spans that meet, and so is the sequence. -/
lemma spans_of_sequence (ht : load config source dump label = .ok t) {route : List Nat}
    {s : Outline} (hs : t.root.exposedAt? config.detached route = some s)
    (hkind : s.entry.kind = .sequence) (hlabel : s.entry.label ∉ config.detached)
    {p q : LineCol} {ps : List LineCol}
    (hq : (t.root.positionAfter? config.detached route).getD t.documentEnd = q)
    (hps : s.children.map (·.entry.position) = (p :: ps).map some)
    (hlt : (p :: ps ++ [q]).IsChain (· < ·)) :
    s.children.map (·.span) = (spansBetween (p :: ps) (.loc q)).map some ∧
      s.span = some ⟨.loc p, .loc q⟩ := by
  have hmem : s ∈ t.root.nodes := mem_nodes_of_descend? (descend?_of_exposedAt? hs)
  obtain ⟨surroundings, hplace, hnext⟩ := exists_surroundings_of_load ht hs
  rw [hq] at hnext
  obtain ⟨c, later, hchildren, hp, -⟩ := List.map_eq_cons_iff.mp hps
  have hpq : p < q := hlt.rel_cons (by simp)
  constructor
  · conv_lhs => rw [hplace, place_children, hnext]
    exact spans_placeAll hlabel _ hps hlt
  · have hfirst := first?_of_first_child (position_of_sequence_of_load ht hmem hkind) hlabel
      hchildren hp
    rw [hplace, span_place_of_lt hfirst (by rw [hnext]; exact Position.loc_lt_loc.mpr hpq), hnext]

/-- Let the items of an exposed sequence have positions that increase from item to item, the last
one before the first position that follows the sequence or else the end of the document. Then each
item is highlighted from its position up to the next one of these, and the texts that are
highlighted for the items make up the one for the sequence, which is what the source has from the
first of these positions up to the last one. -/
theorem highlightText_sequence (ht : load config source dump label = .ok t) {route : List Nat}
    {s : Outline} (hs : t.root.exposedAt? config.detached route = some s)
    (hkind : s.entry.kind = .sequence) (hlabel : s.entry.label ∉ config.detached)
    (hne : s.children ≠ []) {ps : List LineCol} {q : LineCol}
    (hps : s.children.map (·.entry.position) = ps.map some)
    (hq : (t.root.positionAfter? config.detached route).getD t.documentEnd = q)
    (hlt : (ps ++ [q]).IsChain (· < ·)) :
    ∃ texts : List String, s.children.map t.highlightText? = texts.map some ∧
      t.highlightText? s = some (String.join texts) ∧
      (∀ p ∈ ps.head?, IsBetween source (t.source.offset (.loc p)) (t.source.offset (.loc q))
        (String.join texts)) ∧
      ∀ (i : Nat) (p p' : LineCol) (text : String), (ps ++ [q])[i]? = some p →
        (ps ++ [q])[i + 1]? = some p' → texts[i]? = some text →
        IsBetween source (t.source.offset (.loc p)) (t.source.offset (.loc p')) text := by
  have hmem : s ∈ t.root.nodes := mem_nodes_of_descend? (descend?_of_exposedAt? hs)
  have hline : ∀ p ∈ ps, 1 ≤ p.line := by
    intro p hp
    have hsome : some p ∈ s.children.map (·.entry.position) := by
      rw [hps]
      exact List.mem_map_of_mem hp
    obtain ⟨c, hc, hcp⟩ := List.mem_map.mp hsome
    have hchild : c ∈ s.nodes := mem_nodes.mpr (.inr ⟨c, hc, self_mem_nodes c⟩)
    exact one_le_line_of_load ht (mem_nodes_trans hchild hmem) hcp
  obtain ⟨tree, -, hsource, -⟩ := load_cases ht
  obtain ⟨p, ps, rfl⟩ : ∃ p ps', ps = p :: ps' := by
    apply List.exists_cons_of_ne_nil
    rintro rfl
    exact hne (List.map_eq_nil_iff.mp hps)
  obtain ⟨hitems, hspan⟩ := spans_of_sequence ht hs hkind hlabel hq hps hlt
  have hjoin : String.join ((spansBetween (p :: ps) (.loc q)).map t.source.slice) =
      t.source.slice ⟨.loc p, .loc q⟩ := by
    rw [hsource]
    exact join_slice_spansBetween source hline hlt
  refine ⟨(spansBetween (p :: ps) (.loc q)).map t.source.slice, ?_, ?_, ?_, ?_⟩
  · calc s.children.map t.highlightText?
        = (s.children.map (·.span)).map (·.map t.source.slice) := by rw [List.map_map]; rfl
      _ = ((spansBetween (p :: ps) (.loc q)).map t.source.slice).map some := by
        rw [hitems, List.map_map, List.map_map]
        rfl
  · rw [hjoin, SourceTree.highlightText?, hspan]
    rfl
  · intro p' hp'
    obtain rfl : p = p' := Option.some.inj hp'
    rw [hjoin]
    exact isBetween_slice hsource (hline p List.mem_cons_self) (hlt.rel_cons (by simp))
  · intro i r r' text hr hr' htext
    have hspan : (spansBetween (p :: ps) (.loc q))[i]? = some ⟨.loc r, .loc r'⟩ :=
      getElem?_spansBetween hr hr'
    rw [List.getElem?_map, hspan] at htext
    obtain rfl : t.source.slice ⟨.loc r, .loc r'⟩ = text := Option.some.inj htext
    obtain ⟨hi, rfl⟩ := List.getElem?_eq_some_iff.mp hr
    obtain ⟨hi', rfl⟩ := List.getElem?_eq_some_iff.mp hr'
    apply isBetween_slice hsource
    · apply hline
      have hlength : i < (p :: ps).length := by simpa using hi'
      rw [List.getElem_append_left hlength]
      exact List.getElem_mem hlength
    · exact List.isChain_iff_getElem.mp hlt i hi'

/-- Two statements on lines with different breaks, the first one with a part that stands after both
of them, and a comment. -/
theorem highlightText_sequence_body :
    let source := "é = 1\r\npass\n# end"
    let dump := "M(body=[E(v=N(lineno=9),lineno=1),P(lineno=2)],c=A(lineno=3))"
    let ps : List LineCol := [⟨1, 0⟩, ⟨2, 0⟩]
    let q : LineCol := ⟨3, 0⟩
    let texts := ["é = 1\r\n", "pass\n"]
    ∃ t s, load default source dump "tree" = .ok t ∧
      t.root.exposedAt? (default : Config).detached [0] = some s ∧ s.entry.kind = .sequence ∧
      s.entry.label ∉ (default : Config).detached ∧ s.children ≠ [] ∧
      s.children.map (·.entry.position) = ps.map some ∧
      (t.root.positionAfter? (default : Config).detached [0]).getD t.documentEnd = q ∧
      (ps ++ [q]).IsChain (· < ·) ∧ s.children.map t.highlightText? = texts.map some ∧
      t.highlightText? s = some "é = 1\r\npass\n" ∧ IsBetween source 0 13 "é = 1\r\npass\n" ∧
      IsBetween source 0 8 "é = 1\r\n" ∧ IsBetween source 8 13 "pass\n" := by
  intro source dump ps q texts
  let tree : Node := .composite "M"
    [("body", .sequence .list
        [.composite "E" [("v", .composite "N" [] (some ⟨9, 0⟩))] (some ⟨1, 0⟩),
          .composite "P" [] (some ⟨2, 0⟩)]),
      ("c", .composite "A" [] (some ⟨3, 0⟩))] none
  let t : SourceTree := ⟨.ofText source, (Outline.ofTree "tree" tree).resolve
    (default : Config).detached (.loc (LineTable.ofText source).endOfDocument)⟩
  let late : Outline := ⟨⟨"v", "N", "", "body[0].v", .composite, some ⟨9, 0⟩⟩,
    some ⟨.loc ⟨9, 0⟩, .loc ⟨2, 0⟩⟩, true, []⟩
  let s : Outline := ⟨⟨"body", "list", "", "body", .sequence, none⟩,
    some ⟨.loc ⟨1, 0⟩, .loc ⟨3, 0⟩⟩, false,
    [⟨⟨"body[0]", "E", "", "body[0]", .composite, some ⟨1, 0⟩⟩,
        some ⟨.loc ⟨1, 0⟩, .loc ⟨2, 0⟩⟩, false, [late]⟩,
      ⟨⟨"body[1]", "P", "", "body[1]", .composite, some ⟨2, 0⟩⟩,
        some ⟨.loc ⟨2, 0⟩, .loc ⟨3, 0⟩⟩, false, []⟩]⟩
  have hread : Dump.read dump = .ok tree := by cbv
  have hload : load default source dump "tree" = .ok t := by rw [load, hread]
  have hs : t.root.exposedAt? (default : Config).detached [0] = some s := by cbv
  have hlabel : s.entry.label ∉ (default : Config).detached := by decide
  have hne : s.children ≠ [] := List.cons_ne_nil _ _
  have hps : s.children.map (·.entry.position) = ps.map some := rfl
  have hafter : t.root.positionAfter? (default : Config).detached [0] = some q := by cbv
  have hq : (t.root.positionAfter? (default : Config).detached [0]).getD t.documentEnd = q := by
    rw [hafter]
    rfl
  have hlt : (ps ++ [q]).IsChain (· < ·) := by decide
  have htexts : s.children.map t.highlightText? = texts.map some := by cbv
  have hfirst : t.source.offset (.loc ⟨1, 0⟩) = 0 := by cbv
  have hsecond : t.source.offset (.loc ⟨2, 0⟩) = 8 := by cbv
  have hthird : t.source.offset (.loc ⟨3, 0⟩) = 13 := by cbv
  obtain ⟨texts', htexts', hjoin, hwhole, hitems⟩ :=
    highlightText_sequence hload hs rfl hlabel hne hps hq hlt
  obtain rfl : texts = texts' :=
    List.map_injective_iff.mpr (Option.some_injective _) (htexts.symm.trans htexts')
  have hwhole' := hwhole ⟨1, 0⟩ rfl
  have hitem := hitems 0 ⟨1, 0⟩ ⟨2, 0⟩ _ rfl rfl rfl
  have hitem' := hitems 1 ⟨2, 0⟩ ⟨3, 0⟩ _ rfl rfl rfl
  rw [hfirst, hthird] at hwhole'
  rw [hfirst, hsecond] at hitem
  rw [hsecond, hthird] at hitem'
  exact ⟨t, s, hload, hs, rfl, hlabel, hne, hps, hq, hlt, htexts, hjoin, hwhole', hitem, hitem'⟩

end SyntaxLens
