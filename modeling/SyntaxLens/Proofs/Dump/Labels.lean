import SyntaxLens.Proofs.Dump.Excerpts

/-!
# Where diagnostics point

A dump that is refused has either one diagnostic for each fault of its text, in their order, or one
for its tokens. Each of them has one label, and all labels lie within the dump. They start and end
between characters, but for the label of a character that starts no token, which ends after the
first byte of the character.
-/

namespace SyntaxLens.Dump

variable {cs before after : List Char} {c : Char} {offset : Nat} {kind : DiagnosticKind}
  {span : ByteSpan} {dump : String} {ds : List Diagnostic} {d : Diagnostic}

lemma IsPart.bounds (h : IsPart cs span) :
    span.start ≤ span.stop ∧ span.stop ≤ Text.Utf8.size cs := by
  obtain ⟨before, word, after, rfl, rfl⟩ := h
  simp only [Text.Utf8.size_append]
  omega

lemma code_of_problem (p : Problem) : p.kind.code ∈ ["E100", "E101", "E102", "E103"] := by
  cases p <;> simp [Problem.kind, DiagnosticKind.code]

lemma exists_label (hd : d.IsAt kind span)
    (hspan : span.start ≤ span.stop ∧ span.stop ≤ Text.Utf8.size dump.toList) :
    ∃ label, d.labels = [label] ∧ label.isPrimary = true ∧
      label.span.start ≤ label.span.stop ∧ label.span.stop ≤ dump.utf8ByteSize := by
  rw [utf8ByteSize_eq]
  exact ⟨_, hd.2, rfl, hspan⟩

lemma labels_of_faults (cs : List Char) :
    let spans := ((faultsFrom 0 (pieces cs)).flatMap (·.labels)).map (·.span)
    (∀ span ∈ spans, span.start < span.stop) ∧
      spans.Pairwise fun a b => a.start < b.start ∧ a.stop ≤ b.start := by
  intro spans
  have hnonempty : ∀ span ∈ spans, span.start < span.stop := by
    intro span hspan
    obtain ⟨label, hlabel, rfl⟩ := List.mem_map.mp hspan
    obtain ⟨d, hd, hlabel⟩ := List.mem_flatMap.mp hlabel
    obtain ⟨kind, span, hmarks, -, hlabels⟩ := marks_of_mem_faultsFrom hd
    rw [hlabels, List.mem_singleton] at hlabel
    rw [hlabel]
    exact hmarks.bounds.1
  obtain ⟨hpairs, -⟩ := pairwise_labels (fun p hp f => isMarked_of_mem_pieces hp) 0
  refine ⟨hnonempty, hpairs.imp_of_mem fun {a b} ha _ hab => ?_⟩
  have hlt := hnonempty a ha
  exact ⟨by omega, hab⟩

/-- The diagnostics of a dump that is refused: their codes, and where their labels are. -/
theorem labels_of_read_error (h : read dump = .error ds) :
    let spans := (ds.flatMap (·.labels)).map (·.span)
    ((ds ≠ [] ∧
        (∀ d ∈ ds, ∃ kind, d.kind = some kind ∧ kind.code ∈ ["E001", "E002", "E003"]) ∧
        (∀ span ∈ spans, span.start < span.stop) ∧
        spans.Pairwise fun a b => a.start < b.start ∧ a.stop ≤ b.start) ∨
      ∃ d kind, ds = [d] ∧ d.kind = some kind ∧
        kind.code ∈ ["E100", "E101", "E102", "E103"]) ∧
    ∀ d ∈ ds, ∃ label, d.labels = [label] ∧ label.isPrimary = true ∧
      label.span.start ≤ label.span.stop ∧ label.span.stop ≤ dump.utf8ByteSize := by
  intro spans
  rcases read_error_cases h with ⟨hne, rfl⟩ | ⟨ls, p, hls, hp, rfl⟩
  · refine ⟨.inl ⟨hne, fun d hd => ?_, labels_of_faults dump.toList⟩, fun d hd => ?_⟩
    · obtain ⟨kind, span, hmarks, hkind, -⟩ := marks_of_mem_faultsFrom hd
      exact ⟨kind, hkind, hmarks.code⟩
    · obtain ⟨kind, span, hmarks, hat⟩ := marks_of_mem_faultsFrom hd
      obtain ⟨hlt, hle⟩ := hmarks.bounds
      exact exists_label hat ⟨hlt.le, hle⟩
  · refine ⟨.inr ⟨p.diagnostic, p.kind, rfl, rfl, code_of_problem p⟩, ?_⟩
    have hat : p.diagnostic.IsAt p.kind p.span := ⟨rfl, rfl⟩
    exact List.forall_mem_singleton.mpr (exists_label hat (isPart_of_ofLexemes hls hp).bounds)

/-- A character that starts no token, then a bad escape in a literal, and the quote after it. -/
theorem labels_of_read_error_three :
    let dump := "é'\\q'"
    let ds := [Fault.strayCharacter.diagnostic 0 ['é'],
      (Fault.badEscape .text 1).diagnostic 2 ['\'', '\\', 'q'],
      (Fault.unterminated 1).diagnostic 5 ['\'']]
    read dump = .error ds ∧
      (ds.flatMap (·.labels)).map (·.span) = [⟨0, 1⟩, ⟨3, 4⟩, ⟨5, 6⟩] ∧
      ∀ d ∈ ds, ∃ label, d.labels = [label] ∧ label.isPrimary = true ∧
        label.span.start ≤ label.span.stop ∧ label.span.stop ≤ dump.utf8ByteSize := by
  intro dump ds
  have hread : read dump = .error ds := by cbv
  exact ⟨hread, rfl, (labels_of_read_error hread).2⟩

/-- A character of several bytes starts at the offset. -/
def IsWideAt (cs : List Char) (offset : Nat) : Prop :=
  ∃ before c after, cs = before ++ c :: after ∧ Text.Utf8.size before = offset ∧ 1 < c.utf8Size

lemma not_isBoundary_within {k : Nat} (hcs : cs = before ++ c :: after) (hk : 0 < k)
    (hc : k < c.utf8Size) : ¬IsBoundary cs (Text.Utf8.size before + k) := by
  intro h
  rw [hcs] at h
  rcases isBoundary_append h with h | ⟨rest, hrest, h⟩
  · have hle := h.le_size
    omega
  · obtain ⟨first, last, hfirst, hsize⟩ := h
    cases first with
    | nil =>
      rw [Text.Utf8.size_nil] at hsize
      omega
    | cons d first =>
      obtain ⟨rfl, -⟩ := List.cons.inj hfirst
      rw [Text.Utf8.size_cons] at hsize
      omega

/-- What is labelled for a fault starts between two characters. It ends within one exactly if this
is a character of several bytes that starts no token. -/
lemma Marks.boundaries (h : Marks cs kind span) : IsBoundary cs span.start ∧
    (IsBoundary cs span.stop ↔ ¬(kind = .unexpectedCharacter ∧ IsWideAt cs span.start)) := by
  cases h with
  | @part _ before word after hkind hcs hword =>
    refine ⟨⟨before, word ++ after, hcs, rfl⟩, ?_⟩
    have hstop : IsBoundary cs (Text.Utf8.size (before ++ word)) :=
      ⟨before ++ word, after, by rw [hcs, List.append_assoc], rfl⟩
    refine iff_of_true hstop fun ⟨hstray, _⟩ => ?_
    rcases hkind with rfl | rfl <;> cases hstray
  | @byte before after c hcs =>
    refine ⟨⟨before, c :: after, hcs, rfl⟩, fun hstop => ?_, fun hnarrow => ?_⟩
    · rintro ⟨-, before', c', after', hcs', hsize, hwide⟩
      refine not_isBoundary_within hcs' Nat.one_pos hwide ?_
      rw [hsize]
      exact hstop
    · have hone : c.utf8Size = 1 := by
        have hpos := c.utf8Size_pos
        by_contra hne
        exact hnarrow ⟨rfl, before, c, after, hcs, rfl, by omega⟩
      exact ⟨before ++ [c], after, by rw [hcs, List.append_assoc]; rfl, by simp [hone]⟩

lemma IsPart.boundaries (h : IsPart cs span) :
    IsBoundary cs span.start ∧ IsBoundary cs span.stop := by
  obtain ⟨before, word, after, rfl, rfl⟩ := h
  exact ⟨⟨before, word ++ after, rfl, rfl⟩, before ++ word, after, (List.append_assoc ..).symm, rfl⟩

lemma isValid_iff_isBoundary :
    String.Pos.Raw.IsValid dump ⟨offset⟩ ↔ IsBoundary dump.toList offset :=
  ⟨isBoundary_of_isValid, isValid_of_isBoundary⟩

/-- The labels of a dump that is refused start between two characters. They also end so, unless a
character of several bytes starts no token. -/
theorem isValid_of_label (h : read dump = .error ds) :
    ∀ d ∈ ds, ∀ label ∈ d.labels, String.Pos.Raw.IsValid dump ⟨label.span.start⟩ ∧
      (String.Pos.Raw.IsValid dump ⟨label.span.stop⟩ ↔
        ¬(d.kind = some .unexpectedCharacter ∧ IsWideAt dump.toList label.span.start)) := by
  intro d hd label hlabel
  rw [isValid_iff_isBoundary, isValid_iff_isBoundary]
  rcases read_error_cases h with ⟨-, rfl⟩ | ⟨ls, p, hls, hp, rfl⟩
  · obtain ⟨kind, span, hmarks, hkind, hlabels⟩ := marks_of_mem_faultsFrom hd
    rw [hlabels, List.mem_singleton] at hlabel
    rw [hlabel, hkind, Option.some_inj]
    exact hmarks.boundaries
  · obtain rfl := List.mem_singleton.mp hd
    obtain rfl := List.mem_singleton.mp hlabel
    obtain ⟨hstart, hstop⟩ := (isPart_of_ofLexemes hls hp).boundaries
    refine ⟨hstart, iff_of_true hstop fun ⟨hkind, _⟩ => ?_⟩
    cases p <;> cases hkind

/-- A bad escape after a character of two bytes in a literal. -/
theorem isValid_of_label_escape :
    let dump := "'é\\q"
    let d := (Fault.badEscape .text 2).diagnostic 0 ['\'', 'é', '\\', 'q']
    let label : Label := ⟨⟨3, 4⟩, "invalid escape sequence", true⟩
    read dump = .error [d] ∧ d ∈ [d] ∧ label ∈ d.labels ∧
      String.Pos.Raw.IsValid dump ⟨3⟩ ∧ String.Pos.Raw.IsValid dump ⟨4⟩ := by
  intro dump d label
  have hread : read dump = .error [d] := by cbv
  have hmem : d ∈ [d] := List.mem_singleton_self d
  have hlabel : label ∈ d.labels := List.mem_singleton_self label
  obtain ⟨hstart, hstop⟩ := isValid_of_label hread d hmem label hlabel
  refine ⟨hread, hmem, hlabel, hstart, hstop.mpr ?_⟩
  rintro ⟨⟨⟩, -⟩

/-- The label of `é`, which starts no token, ends within it. -/
theorem not_isValid_of_label :
    ¬∀ dump ds, read dump = .error ds → ∀ d ∈ ds, ∀ label ∈ d.labels,
      String.Pos.Raw.IsValid dump ⟨label.span.start⟩ ∧
        String.Pos.Raw.IsValid dump ⟨label.span.stop⟩ := by
  intro hall
  have hread : read "é" = .error [Fault.strayCharacter.diagnostic 0 ['é']] := by cbv
  obtain ⟨-, hstop⟩ := hall _ _ hread _ List.mem_cons_self _ List.mem_cons_self
  have hcs : "é".toList = [] ++ 'é' :: [] := by decide
  exact not_isBoundary_within hcs Nat.one_pos (by decide) (isBoundary_of_isValid hstop)

end SyntaxLens.Dump
