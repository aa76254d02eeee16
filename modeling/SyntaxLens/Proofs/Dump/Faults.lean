import SyntaxLens.Proofs.Dump.Cutting
import SyntaxLens.Proofs.LineTable.Places

/-!
# Labels of faults

A fault labels a part of its piece, but for a character that starts no token, of which it labels the
first byte. The pieces of a text make up the text, so that the labels lie in it one after the other.
-/

namespace SyntaxLens

/-- A range from another offset on. -/
def ByteSpan.shift (offset : Nat) (span : ByteSpan) : ByteSpan :=
  ⟨offset + span.start, offset + span.stop⟩

/-- The diagnostic is of a kind and has one label, a primary one. -/
def Diagnostic.IsAt (d : Diagnostic) (kind : DiagnosticKind) (span : ByteSpan) : Prop :=
  d.kind = some kind ∧ d.labels = [⟨span, kind.description, true⟩]

namespace Dump

open Literal

/-- What is labelled in a text for a fault of a kind. -/
inductive Marks (cs : List Char) : DiagnosticKind → ByteSpan → Prop
  /-- A part of the text. -/
  | part {kind : DiagnosticKind} {before word after : List Char}
    (hkind : kind = .unterminatedLiteral ∨ kind = .invalidEscape)
    (hcs : cs = before ++ (word ++ after)) (hword : word ≠ []) :
    Marks cs kind ⟨Text.Utf8.size before, Text.Utf8.size (before ++ word)⟩
  /-- The first byte of a character. -/
  | byte {before after : List Char} {c : Char} (hcs : cs = before ++ c :: after) :
    Marks cs .unexpectedCharacter ⟨Text.Utf8.size before, Text.Utf8.size before + 1⟩

section Marks

variable {cs before word after : List Char} {kind : DiagnosticKind} {span : ByteSpan} {c : Char}
  {offset : Nat}

lemma Marks.shift (h : Marks cs kind span) (pre post : List Char) :
    Marks (pre ++ (cs ++ post)) kind (span.shift (Text.Utf8.size pre)) := by
  cases h with
  | @part _ before word after hkind hcs hword =>
    have hpart : pre ++ (cs ++ post) = (pre ++ before) ++ (word ++ (after ++ post)) := by
      simp only [hcs, List.append_assoc]
    have hmarks := Marks.part hkind hpart hword
    rwa [List.append_assoc, Text.Utf8.size_append pre, Text.Utf8.size_append pre] at hmarks
  | @byte before after c hcs =>
    have hbyte : pre ++ (cs ++ post) = (pre ++ before) ++ c :: (after ++ post) := by
      simp only [hcs, List.append_assoc, List.cons_append]
    have hmarks := Marks.byte hbyte
    rwa [Text.Utf8.size_append, Nat.add_assoc] at hmarks

lemma size_pos {cs : List Char} (h : cs ≠ []) : 0 < Text.Utf8.size cs :=
  Nat.pos_of_ne_zero fun hsize => h (size_eq_zero_iff.mp hsize)

lemma Marks.bounds (h : Marks cs kind span) :
    span.start < span.stop ∧ span.stop ≤ Text.Utf8.size cs := by
  cases h with
  | part hkind hcs hword =>
    have hpos := size_pos hword
    simp only [hcs, Text.Utf8.size_append]
    omega
  | @byte before after c hcs =>
    have hpos := c.utf8Size_pos
    simp only [hcs, Text.Utf8.size_append, Text.Utf8.size_cons]
    omega

lemma Marks.code (h : Marks cs kind span) : kind.code ∈ ["E001", "E002", "E003"] := by
  cases h with
  | part hkind hcs hword => rcases hkind with rfl | rfl <;> decide
  | byte hcs => decide

end Marks

lemma Literal.Body.push_eq_badEscape {c : Char} {k n : Nat} {b : Body}
    (h : b.push c k = .badEscape n) : ∃ n', b = .badEscape n' ∧ n = k + n' := by
  cases b with
  | closed content n' => simp [Body.push] at h
  | unterminated n' => simp [Body.push] at h
  | badEscape n' =>
    simp only [Body.push, Body.badEscape.injEq] at h
    exact ⟨n', rfl, h.symm⟩

lemma backslash_of_body {kind : QuotedKind} {quote : Char} {cs : List Char} :
    ∀ {n : Nat}, body kind quote cs = .badEscape n →
      ∃ before after, cs = before ++ '\\' :: after ∧ n = before.length := by
  induction cs using body.induct kind quote with
  | case1 =>
    intro n h
    simp [body] at h
  | case2 cs =>
    intro n h
    rw [body, if_pos rfl] at h
    cases h
  | case3 cs hq =>
    intro n h
    rw [body, if_neg hq, if_pos rfl] at h
    cases h
  | case4 cs he hq hn =>
    intro n h
    rw [body, if_neg hq, if_neg hn, if_pos rfl, he] at h
    cases h
    exact ⟨[], cs, rfl, rfl⟩
  | case5 cs d k he hq hn ih =>
    intro n h
    rw [body, if_neg hq, if_neg hn, if_pos rfl, he] at h
    obtain ⟨n', hb, rfl⟩ := Body.push_eq_badEscape h
    obtain ⟨escaped, rest, rfl, rfl, -⟩ := escape?_split he
    rw [List.drop_left] at ih hb
    obtain ⟨before, after, rfl, rfl⟩ := ih hb
    refine ⟨'\\' :: (escaped ++ before), after, by simp, ?_⟩
    rw [List.length_cons, List.length_append]
    omega
  | case6 c cs hq hn hb ih =>
    intro n h
    rw [body, if_neg hq, if_neg hn, if_neg hb] at h
    obtain ⟨n', hb', rfl⟩ := Body.push_eq_badEscape h
    obtain ⟨before, after, rfl, rfl⟩ := ih hb'
    exact ⟨c :: before, after, rfl, Nat.add_comm _ _⟩

/-- The diagnostic of the fault of a piece labels a part of the piece. -/
def Fault.IsMarked (f : Fault) (text : List Char) : Prop :=
  ∃ kind span, Marks text kind span ∧
    ∀ offset, (f.diagnostic offset text).IsAt kind (span.shift offset)

lemma isMarked_of_literalPiece {kind : QuotedKind} {quote c : Char} (opening : List Char)
    {rest : List Char} {f : Fault} {n : Nat}
    (h : literalPiece kind (c :: opening).length quote rest = (.fault f, n)) :
    f.IsMarked (c :: (opening ++ rest).take (n - 1)) := by
  unfold literalPiece at h
  cases hb : body kind quote rest with
  | closed content k =>
    rw [hb] at h
    cases h
  | unterminated k =>
    rw [hb] at h
    cases h
    generalize htext : c :: (opening ++ rest).take _ = text
    have hne : text ≠ [] := by
      rw [← htext]
      exact List.cons_ne_nil _ _
    have hword : text.take ((c :: opening).length + k) ≠ [] := by
      simp [hne]
    have hsplit : text = [] ++ (text.take ((c :: opening).length + k) ++
        text.drop ((c :: opening).length + k)) := (List.take_append_drop _ text).symm
    exact ⟨.unterminatedLiteral, _, .part (.inl rfl) hsplit hword, fun offset => ⟨rfl, rfl⟩⟩
  | badEscape k =>
    rw [hb] at h
    cases h
    obtain ⟨before, after, rfl, rfl⟩ := backslash_of_body hb
    have htext : c :: (opening ++ (before ++ '\\' :: after)).take
        ((c :: opening).length + before.length + 2 - 1) =
        (c :: opening ++ before) ++ (['\\'] ++ after.take 1) := by
      change (c :: (opening ++ (before ++ '\\' :: after))).take
        ((c :: opening).length + before.length + 2) = _
      rw [← List.cons_append, ← List.append_assoc, ← List.length_append,
        List.take_length_add_append]
      rfl
    rw [htext]
    refine ⟨.invalidEscape, _, .part (.inr rfl) rfl (List.cons_ne_nil _ _), fun offset => ?_⟩
    have hlength : (c :: opening).length + before.length = (c :: opening ++ before).length :=
      List.length_append.symm
    refine ⟨rfl, ?_⟩
    rw [Fault.diagnostic, hlength, List.take_left, Text.Utf8.size_append (_ ++ _)]
    rfl

lemma isMarked_of_pieceAt {c : Char} {cs : List Char} {f : Fault} {n : Nat}
    (h : pieceAt c cs = (.fault f, n)) : f.IsMarked (c :: cs.take (n - 1)) := by
  have hpiece := isPieceAt_pieceAt c cs
  rw [h] at hpiece
  cases hpiece with
  | literal hl =>
    obtain ⟨quote, rest, -, ⟨hcs, hfound⟩ | ⟨hcs, hfound⟩⟩ := literal?_cases hl
    · cases hcs
      exact isMarked_of_literalPiece [] hfound.symm
    · cases hcs
      exact isMarked_of_literalPiece [quote] hfound.symm
  | stray =>
    have hsplit : c :: cs.take (1 - 1) = [] ++ c :: [] := rfl
    exact ⟨.unexpectedCharacter, _, .byte hsplit, fun offset => ⟨rfl, rfl⟩⟩

lemma textOf_pieces (cs : List Char) : textOf (pieces cs) = cs := by
  induction cs using pieces.induct with
  | case1 =>
    rw [pieces]
    rfl
  | case2 c cs content n hpiece ih =>
    rw [pieces, hpiece]
    change c :: (cs.take (n - 1) ++ textOf (pieces (cs.drop (n - 1)))) = c :: cs
    rw [ih, List.take_append_drop]

lemma isMarked_of_mem_pieces {cs : List Char} {p : Piece} {f : Fault} (hp : p ∈ pieces cs)
    (hf : p.content = .fault f) : f.IsMarked p.text := by
  induction cs using pieces.induct with
  | case1 =>
    rw [pieces] at hp
    cases hp
  | case2 c cs content n hpiece ih =>
    rw [pieces, hpiece] at hp
    rcases List.mem_cons.mp hp with rfl | hp
    · cases hf
      exact isMarked_of_pieceAt hpiece
    · exact ih hp

lemma mem_faultsFrom {ps : List Piece} {d : Diagnostic} {offset : Nat}
    (h : d ∈ faultsFrom offset ps) : ∃ done p later f, ps = done ++ p :: later ∧
      p.content = .fault f ∧ d = f.diagnostic (offsetAfter done offset) p.text := by
  induction ps generalizing offset with
  | nil => cases h
  | cons p ps ih =>
    have hlater (hd : d ∈ faultsFrom (offset + Text.Utf8.size p.text) ps) :
        ∃ done q later f, p :: ps = done ++ q :: later ∧ q.content = .fault f ∧
          d = f.diagnostic (offsetAfter done offset) q.text := by
      obtain ⟨done, q, later, f, rfl, hf, rfl⟩ := ih hd
      exact ⟨p :: done, q, later, f, rfl, hf, by rw [offsetAfter_cons]⟩
    obtain ⟨content, text⟩ := p
    cases content with
    | blank | token t => exact hlater h
    | fault f =>
      rcases List.mem_cons.mp h with rfl | h
      · exact ⟨[], _, ps, f, rfl, rfl, rfl⟩
      · exact hlater h

/-- Every diagnostic of a text labels something in it. -/
theorem marks_of_mem_faultsFrom {cs : List Char} {d : Diagnostic}
    (h : d ∈ faultsFrom 0 (pieces cs)) : ∃ kind span, Marks cs kind span ∧ d.IsAt kind span := by
  obtain ⟨done, p, later, f, hpieces, hf, rfl⟩ := mem_faultsFrom h
  have hp : p ∈ pieces cs := by
    rw [hpieces]
    exact List.mem_append_right _ List.mem_cons_self
  obtain ⟨kind, span, hmarks, hd⟩ := isMarked_of_mem_pieces hp hf
  have htext : cs = textOf done ++ (p.text ++ textOf later) := by
    rw [← textOf_pieces cs, hpieces]
    exact textOf_append done (p :: later)
  have hoffset : offsetAfter done 0 = Text.Utf8.size (textOf done) := Nat.zero_add _
  refine ⟨kind, _, ?_, hd _⟩
  rw [hoffset, htext]
  exact hmarks.shift (textOf done) (textOf later)

lemma pairwise_labels {ps : List Piece}
    (h : ∀ p ∈ ps, ∀ f, p.content = .fault f → f.IsMarked p.text) (offset : Nat) :
    (((faultsFrom offset ps).flatMap (·.labels)).map (·.span)).Pairwise
        (fun a b => a.stop ≤ b.start) ∧
      ∀ span ∈ ((faultsFrom offset ps).flatMap (·.labels)).map (·.span), offset ≤ span.start := by
  induction ps generalizing offset with
  | nil => exact ⟨.nil, nofun⟩
  | cons p ps ih =>
    obtain ⟨hp, hps⟩ := List.forall_mem_cons.mp h
    obtain ⟨hpairs, hstarts⟩ := ih hps (offset + Text.Utf8.size p.text)
    have hrest : ∀ span ∈ ((faultsFrom (offset + Text.Utf8.size p.text) ps).flatMap
        (·.labels)).map (·.span), offset ≤ span.start :=
      fun span hspan => Nat.le_trans (Nat.le_add_right _ _) (hstarts span hspan)
    obtain ⟨content, text⟩ := p
    cases content with
    | blank | token t => exact ⟨hpairs, hrest⟩
    | fault f =>
      obtain ⟨kind, span, hmarks, hd⟩ := hp f rfl
      obtain ⟨-, hbound⟩ := hmarks.bounds
      have hlabels := (hd offset).2
      simp only [faultsFrom, List.flatMap_cons, hlabels, List.singleton_append, List.map_cons]
      refine ⟨List.pairwise_cons.mpr ⟨fun later hlater => ?_, hpairs⟩,
        List.forall_mem_cons.mpr ⟨Nat.le_add_right _ _, hrest⟩⟩
      have hstart := hstarts later hlater
      simp only [ByteSpan.shift] at *
      omega

end Dump

end SyntaxLens
