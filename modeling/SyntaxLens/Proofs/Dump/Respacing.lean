import Mathlib
import SyntaxLens.Proofs.Dump.Erasure
import SyntaxLens.Proofs.Dump.Scanning
import SyntaxLens.Proofs.LineTable.Slices

/-!
# Layout does not matter

The gaps between the tokens of a dump may be any separators, as long as two tokens that were apart
stay apart: the tokens are the same, and they are read as the same tree or refused with the same
message. Tokens that touch may be pulled apart, since each of them ends before the next one as well
as before any separator.
-/

namespace SyntaxLens.Dump

/-- The texts of tokens of a dump, each with the gap after it. -/
def respaced (dump : List Char) (spaced : List (Lexeme × List Char)) : List Char :=
  spaced.flatMap fun a => sliceFrom 0 a.1.span dump ++ a.2

/-- Tokens that are apart stay apart. -/
def KeepsApart (spaced : List (Lexeme × List Char)) : Prop :=
  spaced.IsChain fun a b => a.1.span.stop ≠ b.1.span.start → a.2 ≠ []

variable {dump : List Char}

/-- A row of separators and words with other gaps: it scans to the same tokens, and it starts with
the same character if it starts with a token. -/
lemma Cut.scans_respaced {cs : List Char} {ps : List Piece} (h : Cut cs ps) :
    ∀ {pre : List Char} {spaced : List (Lexeme × List Char)}, dump = pre ++ cs →
      spaced.map (·.1) = lexemesFrom (Text.Utf8.size pre) ps →
      (∀ a ∈ spaced, ∀ c ∈ a.2, isSeparator c = true) → KeepsApart spaced →
      Scans (respaced dump spaced) (spaced.map (·.1.token)) ∧
        ∀ a ∈ spaced.head?, a.1.span.start = Text.Utf8.size pre →
          (respaced dump spaced).head? = cs.head? := by
  induction h with
  | nil =>
    intro pre spaced hdump hls hgaps hkept
    obtain rfl : spaced = [] := List.map_eq_nil_iff.mp hls
    exact ⟨scans_nil, nofun⟩
  | @gap c rest ps hc h ih =>
    intro pre spaced hdump hls hgaps hkept
    have hsize : Text.Utf8.size (pre ++ [c]) = Text.Utf8.size pre + Text.Utf8.size [c] := by
      rw [Text.Utf8.size_append]
    have hls' : spaced.map (·.1) = lexemesFrom (Text.Utf8.size (pre ++ [c])) ps := by
      rw [hls, hsize]
      rfl
    have hrest := ih (by rw [hdump, List.append_assoc]; rfl) hls' hgaps hkept
    refine ⟨hrest.1, fun a ha hstart => ?_⟩
    have hmem : a.1 ∈ lexemesFrom (Text.Utf8.size (pre ++ [c])) ps := by
      rw [← hls']
      exact List.mem_map_of_mem (List.mem_of_mem_head? ha)
    have hle := le_start_of_mem_lexemesFrom a.1 hmem
    have hpos := c.utf8Size_pos
    rw [hsize, Text.Utf8.size_cons] at hle
    omega
  | @word t w rest ps hw hr h ih =>
    intro pre spaced hdump hls hgaps hkept
    obtain ⟨⟨l, gap⟩, spaced, rfl, hl, hls'⟩ := List.map_eq_cons_iff.mp hls
    obtain rfl : l = ⟨t, ⟨Text.Utf8.size pre, Text.Utf8.size pre + Text.Utf8.size w⟩⟩ := hl
    rw [← Text.Utf8.size_append] at hls'
    have hgap := hgaps _ List.mem_cons_self
    obtain ⟨hscans, hhead⟩ := ih (by rw [hdump, List.append_assoc]) hls'
      (fun a ha => hgaps a (List.mem_cons_of_mem _ ha)) hkept.tail
    have hslice : sliceFrom 0 ⟨Text.Utf8.size pre, Text.Utf8.size pre + Text.Utf8.size w⟩ dump =
        w := by
      rw [hdump, ← Nat.zero_add (Text.Utf8.size pre)]
      exact sliceFrom_part pre w rest
    have hcons : respaced dump ((⟨t, ⟨Text.Utf8.size pre,
        Text.Utf8.size pre + Text.Utf8.size w⟩⟩, gap) :: spaced) =
        w ++ (gap ++ respaced dump spaced) := by
      rw [respaced, List.flatMap_cons, hslice, List.append_assoc]
      rfl
    -- the word ends before its gap, and before the next word if it ended there
    have hends : t.EndsBefore (gap ++ respaced dump spaced) := by
      cases gap with
      | cons c gap => exact (endsToken_separator (hgap c List.mem_cons_self) _).endsBefore t
      | nil =>
        cases spaced with
        | nil => exact endsToken_nil.endsBefore t
        | cons a spaced =>
          have htouch : Text.Utf8.size pre + Text.Utf8.size w = a.1.span.start := by
            by_contra hne
            exact (List.isChain_cons_cons.mp hkept).1 hne rfl
          refine hr.congr (hhead a rfl ?_)
          rw [Text.Utf8.size_append, htouch]
    rw [hcons]
    refine ⟨(hscans.gap hgap).word hw hends, fun a _ _ => ?_⟩
    obtain ⟨c, w, rfl⟩ := List.exists_cons_of_ne_nil hw.ne_nil
    rfl

lemma mapError_diagnostic (x : Except Problem Node) :
    (x.mapError fun p => [p.diagnostic]).mapError (·.map fun d => (d.kind, d.message)) =
      (x.mapError Problem.erase).mapError fun p => [(some p.kind, p.message)] := by
  cases x with
  | ok v => rfl
  | error p =>
    simp only [Except.mapError, Problem.kind_erase, Problem.message_erase]
    rfl

/-- A dump with other gaps has the same tokens and is read as the same tree, or is refused with the
same kind of diagnostic and the same message. -/
theorem read_respaced {dump : String} {first : List Char} {spaced : List (Lexeme × List Char)}
    (hls : tokenize dump.toList = .ok (spaced.map (·.1)))
    (hgaps : ∀ gap ∈ first :: spaced.map (·.2), ∀ c ∈ gap, isSeparator c = true)
    (hkept : KeepsApart spaced) :
    let text := String.ofList (first ++ respaced dump.toList spaced)
    (∃ ls, tokenize text.toList = .ok ls ∧ ls.map (·.token) = spaced.map (·.1.token)) ∧
      (read text).mapError (·.map fun d => (d.kind, d.message)) =
        (read dump).mapError (·.map fun d => (d.kind, d.message)) := by
  intro text
  obtain ⟨hcut, hpieces⟩ := cut_of_tokenize hls
  have hdump : dump.toList = [] ++ dump.toList := rfl
  obtain ⟨hscans, -⟩ := hcut.scans_respaced hdump hpieces
    (fun a ha => hgaps _ (List.mem_cons_of_mem _ (List.mem_map_of_mem ha))) hkept
  obtain ⟨ls, htokenize, htokens⟩ := (hscans.gap (hgaps first List.mem_cons_self)).tokenize
  have htext : tokenize text.toList = .ok ls := by
    rwa [String.toList_ofList]
  have herase : (ofLexemes ls).mapError Problem.erase =
      (ofLexemes (spaced.map (·.1))).mapError Problem.erase :=
    ofLexemes_erase_congr (by rw [htokens, List.map_map]; rfl)
  refine ⟨⟨ls, htext, htokens⟩, ?_⟩
  rw [read, read, htext, hls]
  simp only [Except.bind, mapError_diagnostic, herase]

/-- The tokens of a list that touch are pulled apart, and the number and the bracket stay apart. -/
theorem read_respaced_list :
    let spaced : List (Lexeme × List Char) :=
      [(⟨.mark .openBracket, ⟨0, 1⟩⟩, [' ']), (⟨.bytes [120, 32], ⟨1, 6⟩⟩, []),
        (⟨.mark .comma, ⟨6, 7⟩⟩, ['\r', '\n', '\t']), (⟨.number .int "-1", ⟨7, 9⟩⟩, ['\n']),
        (⟨.mark .closeBracket, ⟨10, 11⟩⟩, [])]
    (tokenize "[b'x ',-1 ]".toList = .ok (spaced.map (·.1)) ∧ KeepsApart spaced) ∧
      (read " [ b'x ',\r\n\t-1\n]").mapError (·.map fun d => (d.kind, d.message)) =
        (read "[b'x ',-1 ]").mapError (·.map fun d => (d.kind, d.message)) := by
  intro spaced
  have htokens : tokenize "[b'x ',-1 ]".toList = .ok (spaced.map (·.1)) := by
    cbv
  have hkept : KeepsApart spaced := by
    simp [KeepsApart, spaced]
  have htext : String.ofList ([' '] ++ respaced "[b'x ',-1 ]".toList spaced) =
      " [ b'x ',\r\n\t-1\n]" := by
    rfl
  have hgaps : ∀ gap ∈ [' '] :: spaced.map (·.2), ∀ c ∈ gap, isSeparator c = true := by
    simp [spaced, isSeparator]
  have hread := (read_respaced htokens hgaps hkept).2
  rw [htext] at hread
  exact ⟨⟨htokens, hkept⟩, hread⟩

end SyntaxLens.Dump
