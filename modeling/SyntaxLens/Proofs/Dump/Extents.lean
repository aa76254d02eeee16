import SyntaxLens.Proofs.Dump.Excerpts

/-!
# Where tokens are

The tokens of a text follow each other in it, and all bytes that are in none of them are separators.
The text of a token is cut into this token by itself: what a token is does not depend on the text
around it.
-/

namespace SyntaxLens.Dump

variable {c : Char} {cs : List Char} {ps : List Piece} {ls : List Lexeme} {l : Lexeme}

lemma exists_word_of_mem (h : tokenize cs = .ok ls) (hl : l ∈ ls) :
    ∃ before word after, cs = before ++ (word ++ after) ∧ word ≠ [] ∧
      l.span = ⟨Text.Utf8.size before, Text.Utf8.size (before ++ word)⟩ ∧
      tokenize word = .ok [⟨l.token, ⟨0, Text.Utf8.size word⟩⟩] := by
  obtain ⟨hcut, hls⟩ := cut_of_tokenize h
  obtain ⟨xs, ys, rfl⟩ := List.append_of_mem hl
  obtain ⟨done, word, later, hpieces, -, hspan⟩ := lexemesFrom_eq_append_cons hls.symm
  rw [hpieces] at hcut
  have hword : IsWord l.token word := hcut.isWord (List.mem_append_right _ List.mem_cons_self)
  have hrest : Cut _ ([⟨.token l.token, word⟩] ++ later) := hcut.drop
  have halone := hrest.tokenize_take
  refine ⟨textOf done, word, textOf later, ?_, hword.ne_nil, ?_, ?_⟩
  · rw [← hcut.textOf_eq, textOf_append]
    rfl
  · rw [hspan, offsetAfter, Nat.zero_add, Text.Utf8.size_append]
  · simpa [textOf, lexemesFrom] using halone

lemma pairwise_lexemesFrom (offset : Nat) (ps : List Piece) :
    (lexemesFrom offset ps).Pairwise fun a b => a.span.stop ≤ b.span.start := by
  induction ps generalizing offset with
  | nil => exact .nil
  | cons p ps ih =>
    obtain ⟨content, text⟩ := p
    cases content with
    | blank | fault f => exact ih _
    | token t => exact List.pairwise_cons.mpr ⟨le_start_of_mem_lexemesFrom, ih _⟩

lemma length_flatMap_utf8EncodeChar (cs : List Char) :
    (cs.flatMap String.utf8EncodeChar).length = Text.Utf8.size cs := by
  induction cs with
  | nil => rfl
  | cons c cs ih =>
    rw [List.flatMap_cons, List.length_append, String.length_utf8EncodeChar, ih,
      Text.Utf8.size_cons]

/-- The bytes that separate tokens: a space, a tab, a carriage return and a line feed. -/
def separatorBytes : List UInt8 :=
  [0x20, 0x09, 0x0D, 0x0A]

lemma utf8EncodeChar_of_isSeparator (h : isSeparator c = true) :
    ∃ b ∈ separatorBytes, String.utf8EncodeChar c = [b] := by
  simp only [isSeparator, Bool.or_eq_true, decide_eq_true_eq] at h
  rcases h with ((rfl | rfl) | rfl) | rfl
  · exact ⟨0x20, by decide, by decide⟩
  · exact ⟨0x09, by decide, by decide⟩
  · exact ⟨0x0D, by decide, by decide⟩
  · exact ⟨0x0A, by decide, by decide⟩

/-- In a row of separators and words, a byte that is in no token is that of a separator. -/
lemma Cut.byte_of_outside (h : Cut cs ps) (offset : Nat) {i : Nat} {b : UInt8}
    (hi : (cs.flatMap String.utf8EncodeChar)[i]? = some b)
    (hout : ∀ l ∈ lexemesFrom offset ps, offset + i < l.span.start ∨ l.span.stop ≤ offset + i) :
    b ∈ separatorBytes := by
  induction h generalizing offset i with
  | nil => cases hi
  | @gap c rest ps hc h ih =>
    obtain ⟨d, hd, hencode⟩ := utf8EncodeChar_of_isSeparator hc
    rw [List.flatMap_cons, hencode, List.singleton_append] at hi
    cases i with
    | zero =>
      obtain rfl : d = b := Option.some.inj hi
      exact hd
    | succ i =>
      have hsize : Text.Utf8.size [c] = 1 := by
        rw [← length_flatMap_utf8EncodeChar, List.flatMap_singleton, hencode]
        rfl
      have hrest : lexemesFrom offset (⟨.blank, [c]⟩ :: ps) = lexemesFrom (offset + 1) ps := by
        rw [← hsize]
        rfl
      rw [hrest] at hout
      refine ih (offset + 1) hi fun l hl => ?_
      have hl := hout l hl
      omega
  | @word t w rest ps hw hr h ih =>
    obtain ⟨hword, hrest⟩ := List.forall_mem_cons.mp hout
    -- the byte is after the word
    have hle : Text.Utf8.size w ≤ i := by
      change offset + i < offset ∨ offset + Text.Utf8.size w ≤ offset + i at hword
      omega
    rw [List.flatMap_append, List.getElem?_append_right (by rwa [length_flatMap_utf8EncodeChar]),
      length_flatMap_utf8EncodeChar] at hi
    refine ih (offset + Text.Utf8.size w) hi fun l hl => ?_
    have hl := hrest l hl
    omega

/-- The tokens of a text are not empty, they follow each other within it, and all bytes in none of
them are separators. The text of each token is cut into this token alone. -/
theorem tokens_tile {dump : String} (h : tokenize dump.toList = .ok ls) :
    (∀ l ∈ ls, l.span.start < l.span.stop ∧ l.span.stop ≤ dump.utf8ByteSize) ∧
      (ls.Pairwise fun a b => a.span.start < b.span.start ∧ a.span.stop ≤ b.span.start) ∧
      (∀ i b, (Text.Utf8.encode dump)[i]? = some b →
        (∀ l ∈ ls, i < l.span.start ∨ l.span.stop ≤ i) → b ∈ separatorBytes) ∧
      ∀ l ∈ ls, ∃ before word after : String, dump = before ++ word ++ after ∧
        l.span = ⟨before.utf8ByteSize, (before ++ word).utf8ByteSize⟩ ∧
        tokenize word.toList = .ok [⟨l.token, ⟨0, word.utf8ByteSize⟩⟩] := by
  have hbounds : ∀ l ∈ ls, l.span.start < l.span.stop ∧ l.span.stop ≤ dump.utf8ByteSize := by
    intro l hl
    obtain ⟨before, word, after, hdump, hne, hspan, -⟩ := exists_word_of_mem h hl
    have hpos := size_pos hne
    rw [hspan, utf8ByteSize_eq, hdump]
    simp only [Text.Utf8.size_append]
    omega
  obtain ⟨hcut, hls⟩ := cut_of_tokenize h
  refine ⟨hbounds, ?_, fun i b hi hout => ?_, fun l hl => ?_⟩
  · have hpairs := pairwise_lexemesFrom 0 (pieces dump.toList)
    rw [← hls] at hpairs
    refine hpairs.imp_of_mem fun {a b} ha _ hab => ?_
    have hlt := (hbounds a ha).1
    exact ⟨by omega, hab⟩
  · rw [hls] at hout
    exact hcut.byte_of_outside 0 hi (by simpa only [Nat.zero_add] using hout)
  · obtain ⟨before, word, after, hdump, -, hspan, halone⟩ := exists_word_of_mem h hl
    obtain ⟨hparts, hstart, hstop⟩ := eq_append_of_toList hdump
    refine ⟨String.ofList before, String.ofList word, String.ofList after, hparts, ?_, ?_⟩
    · rw [hspan, hstart, hstop]
    · rw [String.toList_ofList, utf8ByteSize_ofList, halone]

/-- A literal with a character of two bytes, a gap before a comma, and a number with an exponent. -/
theorem tokens_tile_list :
    let dump := "[b'é' ,\n-1e3]"
    let ls : List Lexeme := [⟨.mark .openBracket, ⟨0, 1⟩⟩, ⟨.bytes [0xE9], ⟨1, 6⟩⟩,
      ⟨.mark .comma, ⟨7, 8⟩⟩, ⟨.number .float "-1e3", ⟨9, 13⟩⟩, ⟨.mark .closeBracket, ⟨13, 14⟩⟩]
    tokenize dump.toList = .ok ls ∧
      (ls.Pairwise fun a b => a.span.start < b.span.start ∧ a.span.stop ≤ b.span.start) ∧
      (∀ i b, (Text.Utf8.encode dump)[i]? = some b →
        (∀ l ∈ ls, i < l.span.start ∨ l.span.stop ≤ i) → b ∈ separatorBytes) ∧
      ∃ before word after : String, dump = before ++ word ++ after ∧
        ByteSpan.mk 9 13 = ⟨before.utf8ByteSize, (before ++ word).utf8ByteSize⟩ ∧
        tokenize word.toList = .ok [⟨.number .float "-1e3", ⟨0, word.utf8ByteSize⟩⟩] := by
  intro dump ls
  have htokens : tokenize dump.toList = .ok ls := by cbv
  have hmem : ⟨.number .float "-1e3", ⟨9, 13⟩⟩ ∈ ls := by decide
  obtain ⟨-, hpairs, hbytes, hwords⟩ := tokens_tile htokens
  exact ⟨htokens, hpairs, hbytes, hwords _ hmem⟩

end SyntaxLens.Dump
