import Mathlib
import SyntaxLens.Proofs.Dump.Cutting

/-!
# Foreign characters

A character that stands in no token but a literal is reported by itself, and the text after it is
cut as if it were not there. So characters of this kind that are inserted between the tokens of a
text are all that is reported of the new text.
-/

namespace SyntaxLens.Dump

open Literal

/-- The character is in no token but a literal, and it separates no tokens. -/
def isForeign (c : Char) : Bool :=
  !c.isAlphanum && c ∉ ['_', '\'', '"', ' ', '\t', '\r', '\n', '(', ')', '[', ']', ',', '=', '.',
    '+', '-']

/-- The characters of a text that are not inserted. -/
def kept (marked : List (Char × Bool)) : List Char :=
  (marked.filter fun a => !a.2).map (·.1)

/-- The offsets of the inserted characters in a text that starts at the given offset. -/
def insertedAt (offset : Nat) : List (Char × Bool) → List Nat
  | [] => []
  | (c, inserted) :: marked =>
    (if inserted then [offset] else []) ++ insertedAt (offset + c.utf8Size) marked

/-- No inserted character stands in a token. The offset is that of the first character in the text
without the inserted ones. -/
def BetweenTokens (ls : List Lexeme) : Nat → List (Char × Bool) → Prop
  | _, [] => True
  | offset, (_, true) :: marked =>
    (∀ l ∈ ls, offset ≤ l.span.start ∨ l.span.stop ≤ offset) ∧ BetweenTokens ls offset marked
  | offset, (c, false) :: marked => BetweenTokens ls (offset + c.utf8Size) marked

instance decidableBetweenTokens (ls : List Lexeme) :
    ∀ offset marked, Decidable (BetweenTokens ls offset marked)
  | _, [] => inferInstanceAs (Decidable True)
  | offset, (_, true) :: marked =>
    have := decidableBetweenTokens ls offset marked
    inferInstanceAs (Decidable (_ ∧ _))
  | offset, (c, false) :: marked => decidableBetweenTokens ls (offset + c.utf8Size) marked

variable {c : Char} {cs rest w : List Char} {marked : List (Char × Bool)} {ps : List Piece}
  {ls : List Lexeme} {offset : Nat} {t : Token}

lemma isForeign_spec (h : isForeign c = true) : isNameChar c = false ∧ isQuote c = false ∧
    isSeparator c = false ∧ Mark.ofChar? c = none ∧ c ≠ '.' ∧ c ≠ '-' := by
  simp only [isForeign, Bool.and_eq_true, Bool.not_eq_true', decide_eq_true_eq, List.mem_cons,
    List.not_mem_nil, or_false, not_or] at h
  obtain ⟨halnum, hunderscore, hapostrophe, hquotation, hspace, htab, hreturn, hfeed, hopen, hclose,
    hbracket, hend, hcomma, hequals, hpoint, -, hminus⟩ := h
  refine ⟨by simp [isNameChar, halnum, hunderscore], ?_, ?_, ?_, hpoint, hminus⟩
  · simp [isQuote, Text.Quoted.apostrophe, Text.Quoted.quotationMark, hapostrophe, hquotation]
  · simp [isSeparator, hspace, htab, hreturn, hfeed]
  · rw [Option.eq_none_iff_forall_not_mem]
    intro m hm
    obtain rfl := Mark.char_of_ofChar? hm
    cases m with
    | openParen => exact hopen rfl
    | closeParen => exact hclose rfl
    | openBracket => exact hbracket rfl
    | closeBracket => exact hend rfl
    | comma => exact hcomma rfl
    | equals => exact hequals rfl

lemma pieces_of_isForeign (h : isForeign c = true) (cs : List Char) :
    pieces (c :: cs) = ⟨.fault .strayCharacter, [c]⟩ :: pieces cs := by
  obtain ⟨hname, hquote, hsep, hmark, -, hminus⟩ := isForeign_spec h
  have hb : c ≠ 'b' := by
    rintro rfl
    exact absurd hname (by decide)
  have hdigit : c.isDigit = false := by
    by_contra hd
    rw [isNameChar_of_isDigit (eq_true_of_ne_false hd)] at hname
    cases hname
  have hstart : isNameStart c = false := by
    by_contra hs
    rw [isNameChar_of_isNameStart (eq_true_of_ne_false hs)] at hname
    cases hname
  exact pieces_stray (number?_of_head cs hminus hdigit) ⟨hsep, hquote, hb, hstart, hmark⟩

lemma endsBefore_of_isForeign (h : isForeign c = true) (t : Token) (cs : List Char) :
    t.EndsBefore (c :: cs) := by
  obtain ⟨hname, hquote, -, -, hpoint, -⟩ := isForeign_spec h
  rintro _ ⟨rfl⟩
  exact goesOnWith_eq_false ⟨hname, hquote, hpoint⟩ t

/-- Foreign characters are inserted between pieces, which are those of the other characters. -/
inductive Strewn : List (Char × Bool) → List Piece → Prop
  | nil : Strewn [] []
  | foreign {c : Char} {marked : List (Char × Bool)} {ps : List Piece} (hc : isForeign c = true)
    (h : Strewn marked ps) : Strewn ((c, true) :: marked) ps
  | gap {c : Char} {marked : List (Char × Bool)} {ps : List Piece} (hc : isSeparator c = true)
    (h : Strewn marked ps) : Strewn ((c, false) :: marked) (⟨.blank, [c]⟩ :: ps)
  | word {t : Token} {w : List Char} {marked : List (Char × Bool)} {ps : List Piece}
    (hw : IsWord t w) (hr : t.EndsBefore (kept marked)) (h : Strewn marked ps) :
    Strewn (w.map (·, false) ++ marked) (⟨.token t, w⟩ :: ps)

/-- A token ends before an inserted character as well as before the one that it ended before. -/
lemma Strewn.endsBefore (h : Strewn marked ps) (ht : t.EndsBefore (kept marked)) :
    t.EndsBefore (marked.map (·.1)) := by
  cases h with
  | nil => exact ht
  | foreign hc h => exact endsBefore_of_isForeign hc t _
  | gap hc h => exact ht.congr rfl
  | word hw hr h =>
    obtain ⟨c, w, rfl⟩ := List.exists_cons_of_ne_nil hw.ne_nil
    exact ht.congr rfl

lemma Strewn.faults (h : Strewn marked ps) (offset : Nat) :
    faultsFrom offset (pieces (marked.map (·.1))) =
      (insertedAt offset marked).map (Fault.strayCharacter.diagnostic · []) := by
  induction h generalizing offset with
  | nil =>
    rw [List.map_nil, pieces]
    rfl
  | foreign hc h ih =>
    rw [List.map_cons, pieces_of_isForeign hc, faultsFrom]
    simp only [ih, insertedAt, Text.Utf8.size_cons, Text.Utf8.size_nil, Nat.add_zero, if_true,
      List.singleton_append, List.map_cons]
    rfl
  | gap hc h ih =>
    rw [List.map_cons, pieces_separator hc, faultsFrom]
    simp only [ih, insertedAt, Text.Utf8.size_cons, Text.Utf8.size_nil, Nat.add_zero,
      Bool.false_eq_true, if_false, List.nil_append]
  | @word t w marked ps hw hr h ih =>
    have hskip (w : List Char) (offset : Nat) : insertedAt offset (w.map (·, false) ++ marked) =
        insertedAt (offset + Text.Utf8.size w) marked := by
      induction w generalizing offset with
      | nil => rfl
      | cons c w ih =>
        rw [Text.Utf8.size_cons, ← Nat.add_assoc, ← ih]
        rfl
    have htext : (w.map (·, false) ++ marked).map (·.1) = w ++ marked.map (·.1) := by
      rw [List.map_append, List.map_map]
      exact congrArg (· ++ _) (List.map_id w)
    rw [htext, pieces_of_isWord hw (h.endsBefore hr), faultsFrom, hskip]
    exact ih _

lemma BetweenTokens.split {l : Lexeme} (hl : l ∈ ls) (hstart : l.span.start < offset)
    (hstop : l.span.stop = offset + Text.Utf8.size w) (hkept : kept marked = w ++ rest)
    (h : BetweenTokens ls offset marked) :
    ∃ later, marked = w.map (·, false) ++ later ∧ kept later = rest ∧
      BetweenTokens ls (offset + Text.Utf8.size w) later := by
  induction w generalizing marked offset with
  | nil => exact ⟨marked, rfl, hkept, h⟩
  | cons c w ih =>
    have hpos := c.utf8Size_pos
    rw [Text.Utf8.size_cons, ← Nat.add_assoc] at hstop ⊢
    cases marked with
    | nil => cases hkept
    | cons a marked =>
      obtain ⟨d, inserted⟩ := a
      cases inserted with
      | true =>
        have hplace := h.1 l hl
        omega
      | false =>
        obtain ⟨rfl, hrest⟩ := List.cons.inj hkept
        obtain ⟨later, rfl, hlater, hbetween⟩ := ih (by omega) hstop hrest h
        exact ⟨later, rfl, hlater, hbetween⟩

lemma BetweenTokens.of_cons {l : Lexeme} (h : BetweenTokens (l :: ls) offset marked) :
    BetweenTokens ls offset marked := by
  induction marked generalizing offset with
  | nil => trivial
  | cons a marked ih =>
    obtain ⟨c, inserted⟩ := a
    cases inserted with
    | true => exact ⟨fun l hl => h.1 l (List.mem_cons_of_mem _ hl), ih h.2⟩
    | false =>
      have hrest : BetweenTokens (l :: ls) (offset + c.utf8Size) marked := h
      exact ih hrest

/-- Foreign characters between the tokens of a text are strewn between its pieces. -/
theorem strewn_of_cut (h : Cut (kept marked) ps)
    (hforeign : ∀ a ∈ marked, a.2 = true → isForeign a.1 = true)
    (hplaces : BetweenTokens (lexemesFrom offset ps) offset marked) : Strewn marked ps := by
  -- on the length, since a word takes several characters at once
  induction hlength : marked.length using Nat.strong_induction_on generalizing marked ps offset with
  | _ n ih =>
  generalize hcs : kept marked = cs at h
  cases marked with
  | nil =>
    cases h with
    | nil => exact .nil
    | gap hc h => cases hcs
    | word hw hr h => exact absurd (List.append_eq_nil_iff.mp hcs.symm).1 hw.ne_nil
  | cons a marked =>
    obtain ⟨c, inserted⟩ := a
    have hlt : marked.length < n := by
      rw [← hlength]
      exact Nat.lt_succ_self _
    have hrest : ∀ a ∈ marked, a.2 = true → isForeign a.1 = true :=
      fun a ha => hforeign a (List.mem_cons_of_mem _ ha)
    cases inserted with
    | true =>
      obtain rfl : kept marked = cs := hcs
      exact .foreign (hforeign _ List.mem_cons_self rfl) (ih _ hlt h hrest hplaces.2 rfl)
    | false =>
      cases h with
      | nil => cases hcs
      | gap hc h =>
        obtain ⟨rfl, rfl⟩ := List.cons.inj hcs
        exact .gap hc (ih _ hlt h hrest hplaces rfl)
      | @word t w rest ps hw hr h =>
        obtain ⟨d, w, rfl⟩ := List.exists_cons_of_ne_nil hw.ne_nil
        obtain ⟨rfl, hkept⟩ := List.cons.inj hcs
        obtain ⟨later, rfl, rfl, hbetween⟩ := BetweenTokens.split List.mem_cons_self
          (Nat.lt_add_of_pos_right c.utf8Size_pos) (Nat.add_assoc ..).symm hkept hplaces
        have hlater : later.length < n := by
          rw [List.length_append] at hlt
          omega
        rw [Nat.add_assoc, ← Text.Utf8.size_cons] at hbetween
        exact .word hw hr (ih _ hlater h (fun a ha => hrest a (List.mem_append_right _ ha))
          hbetween.of_cons rfl)

lemma insertedAt_ne_nil (h : ∃ a ∈ marked, a.2 = true) (offset : Nat) :
    insertedAt offset marked ≠ [] := by
  induction marked generalizing offset with
  | nil =>
    obtain ⟨a, ha, -⟩ := h
    cases ha
  | cons a marked ih =>
    obtain ⟨c, inserted⟩ := a
    cases inserted with
    | true => exact List.cons_ne_nil _ _
    | false =>
      obtain ⟨a, ha, hinserted⟩ := h
      rcases List.mem_cons.mp ha with rfl | ha
      · cases hinserted
      · exact ih ⟨a, ha, hinserted⟩ _

/-- Foreign characters that are inserted between the tokens of a text are reported, each of them
once and in their order, and nothing else is. -/
theorem tokenize_of_foreign (hls : tokenize (kept marked) = .ok ls)
    (hinserted : ∃ a ∈ marked, a.2 = true)
    (hforeign : ∀ a ∈ marked, a.2 = true → isForeign a.1 = true)
    (hplaces : BetweenTokens ls 0 marked) :
    ∃ ds, tokenize (marked.map (·.1)) = .error ds ∧
      ds.map (fun d => (d.kind, d.labels.map (·.span.start))) =
        (insertedAt 0 marked).map fun offset => (some .unexpectedCharacter, [offset]) := by
  obtain ⟨hcut, rfl⟩ := cut_of_tokenize hls
  have hfaults := (strewn_of_cut hcut hforeign hplaces).faults 0
  refine ⟨(insertedAt 0 marked).map (Fault.strayCharacter.diagnostic · []), ?_, ?_⟩
  · obtain ⟨o, os, hoffsets⟩ := List.exists_cons_of_ne_nil (insertedAt_ne_nil hinserted 0)
    rw [tokenize]
    simp only [hfaults, hoffsets, List.map_cons]
  · rw [List.map_map]
    rfl

/-- The text `é['$',$$ 1.5$]`, in which the dollar sign of the literal is not inserted. -/
theorem tokenize_of_foreign_dollars :
    let marked : List (Char × Bool) := [('é', true), ('[', false), ('\'', false), ('$', false),
      ('\'', false), (',', false), ('$', true), ('$', true), (' ', false), ('1', false),
      ('.', false), ('5', false), ('$', true), (']', false)]
    let ls : List Lexeme := [⟨.mark .openBracket, ⟨0, 1⟩⟩, ⟨.str "$", ⟨1, 4⟩⟩,
      ⟨.mark .comma, ⟨4, 5⟩⟩, ⟨.number .float "1.5", ⟨6, 9⟩⟩, ⟨.mark .closeBracket, ⟨9, 10⟩⟩]
    (tokenize (kept marked) = .ok ls ∧ (∃ a ∈ marked, a.2 = true) ∧
        (∀ a ∈ marked, a.2 = true → isForeign a.1 = true) ∧ BetweenTokens ls 0 marked) ∧
      ∃ ds, tokenize "é['$',$$ 1.5$]".toList = .error ds ∧
        ds.map (fun d => (d.kind, d.labels.map (·.span.start))) =
          [0, 7, 8, 13].map fun offset => (some .unexpectedCharacter, [offset]) := by
  intro marked ls
  have hls : tokenize (kept marked) = .ok ls := by cbv
  have hinserted : ∃ a ∈ marked, a.2 = true := ⟨_, List.mem_cons_self, rfl⟩
  have hforeign : ∀ a ∈ marked, a.2 = true → isForeign a.1 = true := by decide
  have hplaces : BetweenTokens ls 0 marked := by decide
  exact ⟨⟨hls, hinserted, hforeign, hplaces⟩, tokenize_of_foreign hls hinserted hforeign hplaces⟩

end SyntaxLens.Dump
