import SyntaxLens.Proofs.Dump.Words

/-!
# Where tokens end

A text that is empty or starts with a separator or a mark ends every token in front of it. A text
that is cut without a fault is a row of separators and words, each of which ends before the next.
-/

namespace SyntaxLens.Dump

open Literal

/-- A character that no token but a literal goes on with. -/
def isBreak (c : Char) : Bool :=
  isSeparator c || (Mark.ofChar? c).isSome

/-- The text is empty or starts with a break. -/
def EndsToken (rest : List Char) : Prop :=
  ∀ c ∈ rest.head?, isBreak c = true

lemma isBreak_cases {c : Char} (h : isBreak c = true) :
    c = ' ' ∨ c = '\t' ∨ c = '\r' ∨ c = '\n' ∨ ∃ m : Mark, c = m.char := by
  simp only [isBreak, isSeparator, Bool.or_eq_true, decide_eq_true_eq] at h
  rcases h with (((h | h) | h) | h) | h
  · exact .inl h
  · exact .inr (.inl h)
  · exact .inr (.inr (.inl h))
  · exact .inr (.inr (.inr (.inl h)))
  · obtain ⟨m, hm⟩ := Option.isSome_iff_exists.mp h
    exact .inr (.inr (.inr (.inr ⟨m, (Mark.char_of_ofChar? hm).symm⟩)))

lemma isBreak_spec {c : Char} (h : isBreak c = true) :
    isNameChar c = false ∧ isQuote c = false ∧ c ≠ '.' := by
  rcases isBreak_cases h with rfl | rfl | rfl | rfl | ⟨m, rfl⟩
  · decide
  · decide
  · decide
  · decide
  · cases m <;> decide

lemma endsToken_nil : EndsToken [] := by
  intro c hc
  cases hc

lemma endsToken_mark (m : Mark) (rest : List Char) : EndsToken (m.char :: rest) := by
  intro c hc
  obtain rfl : m.char = c := by simpa using hc
  simp [isBreak, Mark.ofChar?_char]

lemma endsToken_separator {c : Char} (h : isSeparator c = true) (rest : List Char) :
    EndsToken (c :: rest) := by
  rintro _ ⟨rfl⟩
  rw [isBreak, h, Bool.true_or]

lemma goesOnWith_eq_false {c : Char} (h : isNameChar c = false ∧ isQuote c = false ∧ c ≠ '.')
    (t : Token) : t.goesOnWith c = false := by
  obtain ⟨hname, hquote, hdot⟩ := h
  cases t with
  | name s => simp [Token.goesOnWith, hname, hquote]
  | number kind text => simp [Token.goesOnWith, hname, hdot]
  | str | bytes | mark => rfl

lemma EndsToken.endsBefore {rest : List Char} (h : EndsToken rest) (t : Token) :
    t.EndsBefore rest :=
  fun c hc => goesOnWith_eq_false (isBreak_spec (h c hc)) t

lemma Token.EndsBefore.congr {t : Token} {rest rest' : List Char} (h : t.EndsBefore rest)
    (hhead : rest'.head? = rest.head?) : t.EndsBefore rest' := by
  rw [Token.EndsBefore, hhead]
  exact h

/-- A word is cut off as its token wherever it ends. -/
theorem pieces_of_isWord {t : Token} {w rest : List Char} (hw : IsWord t w)
    (hr : t.EndsBefore rest) : pieces (w ++ rest) = ⟨.token t, w⟩ :: pieces rest := by
  obtain ⟨c, cs, rfl⟩ := List.exists_cons_of_ne_nil hw.ne_nil
  rw [List.cons_append, pieces, pieceAt_of_isWord hw hr]
  simp

lemma pieces_separator {c : Char} (h : isSeparator c = true) (rest : List Char) :
    pieces (c :: rest) = ⟨.blank, [c]⟩ :: pieces rest := by
  have hpiece : pieceAt c rest = (.blank, 1) := by
    rw [pieceAt, if_pos h]
  rw [pieces, hpiece]
  simp

/-- The text is a row of separators and words, and these are its pieces. -/
inductive Cut : List Char → List Piece → Prop
  | nil : Cut [] []
  | gap {c : Char} {rest : List Char} {ps : List Piece} (hc : isSeparator c = true)
    (h : Cut rest ps) : Cut (c :: rest) (⟨.blank, [c]⟩ :: ps)
  | word {t : Token} {w rest : List Char} {ps : List Piece} (hw : IsWord t w)
    (hr : t.EndsBefore rest) (h : Cut rest ps) : Cut (w ++ rest) (⟨.token t, w⟩ :: ps)

lemma Cut.isWord {cs w : List Char} {ps : List Piece} {t : Token} (h : Cut cs ps)
    (hp : ⟨.token t, w⟩ ∈ ps) : IsWord t w := by
  induction h with
  | nil => cases hp
  | gap hc h ih =>
    rcases List.mem_cons.mp hp with hp | hp
    · cases hp
    · exact ih hp
  | word hw hr h ih =>
    rcases List.mem_cons.mp hp with hp | hp
    · cases hp
      exact hw
    · exact ih hp

lemma literalPiece_ne_blank (kind : QuotedKind) (start : Nat) (quote : Char) (cs : List Char)
    (n : Nat) : literalPiece kind start quote cs ≠ (.blank, n) := by
  unfold literalPiece
  cases body kind quote cs <;> nofun

lemma isSeparator_of_pieceAt {c : Char} {cs : List Char} {n : Nat}
    (h : pieceAt c cs = (.blank, n)) : isSeparator c = true ∧ n = 1 := by
  have hpiece := isPieceAt_pieceAt c cs
  rw [h] at hpiece
  cases hpiece with
  | blank hc => exact ⟨hc, rfl⟩
  | literal hl =>
    obtain ⟨quote, rest, -, ⟨-, hfound⟩ | ⟨-, hfound⟩⟩ := literal?_cases hl
    · exact absurd hfound.symm (literalPiece_ne_blank _ _ _ _ _)
    · exact absurd hfound.symm (literalPiece_ne_blank _ _ _ _ _)

theorem cut_of_faultless {cs : List Char} (h : ∀ p ∈ pieces cs, ∀ f, p.content ≠ .fault f) :
    Cut cs (pieces cs) := by
  induction cs using pieces.induct with
  | case1 =>
    rw [pieces]
    exact .nil
  | case2 c cs content n hpiece ih =>
    rw [pieces, hpiece] at h ⊢
    have hrest := ih fun p hp => h p (List.mem_cons_of_mem _ hp)
    cases content with
    | fault f => exact absurd rfl (h _ List.mem_cons_self f)
    | blank =>
      obtain ⟨hc, rfl⟩ := isSeparator_of_pieceAt hpiece
      exact .gap hc hrest
    | token t =>
      obtain ⟨w, rest, hcs, rfl, hw, hr⟩ := isWord_of_pieceAt hpiece
      obtain ⟨d, ds, rfl⟩ := List.exists_cons_of_ne_nil hw.ne_nil
      rw [List.cons_append] at hcs
      obtain ⟨rfl, rfl⟩ := List.cons.inj hcs
      simp only [List.length_cons, Nat.add_sub_cancel, List.drop_left, List.take_left] at hrest ⊢
      exact .word hw hr hrest

end SyntaxLens.Dump
