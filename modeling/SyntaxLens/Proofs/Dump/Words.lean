import SyntaxLens.Proofs.Dump.Literals
import SyntaxLens.Proofs.Dump.Numbers

/-!
# The texts of tokens

`IsWord t w` says that the text `w` is written for the token `t`. The tokens at the start of a text
are exactly these words, each of which ends where the text after it does not go on with it. Where
a word ends is seen from one character.
-/

namespace SyntaxLens.Dump

open Literal

/-- The text is written for the token. -/
inductive IsWord : Token → List Char → Prop
  | name {s : String} (h : IsName s) : IsWord (.name s) s.toList
  | number {kind : NumberKind} {cs : List Char} (h : IsNumber kind cs) :
    IsWord (.number kind (String.ofList cs)) cs
  | str {quote : Char} {w content : List Char} (hq : isQuote quote = true)
    (hw : IsBody .text quote w content) : IsWord (.str (String.ofList content)) (quote :: w)
  | bytes {quote : Char} {w content : List Char} (hq : isQuote quote = true)
    (hw : IsBody .bytes quote w content) : IsWord (.bytes (contentBytes content)) ('b' :: quote :: w)
  | mark (m : Mark) : IsWord (.mark m) [m.char]

/-- The text of a token goes on with the character. The name `b` and a quote open a literal. -/
def Token.goesOnWith : Token → Char → Bool
  | name s, c => isNameChar c || (s = "b" && isQuote c)
  | number kind _, c => isNameChar c || (kind = .int && c = '.')
  | str _, _ | bytes _, _ | mark _, _ => false

/-- A token ends where the text starts. -/
def Token.EndsBefore (t : Token) (rest : List Char) : Prop :=
  ∀ c ∈ rest.head?, t.goesOnWith c = false

lemma isNameChar_of_isDigit {c : Char} (h : c.isDigit = true) : isNameChar c = true := by
  simp [isNameChar, Char.isAlphanum, h]

lemma isNameChar_spec {c : Char} (h : isNameChar c = true) :
    isSeparator c = false ∧ isQuote c = false := by
  constructor
  · by_contra hs
    simp only [isSeparator, Bool.not_eq_false, Bool.or_eq_true, decide_eq_true_eq] at hs
    rcases hs with ((rfl | rfl) | rfl) | rfl <;> exact absurd h (by decide)
  · by_contra hq
    simp only [isQuote, Bool.not_eq_false, Bool.or_eq_true, decide_eq_true_eq] at hq
    rcases hq with rfl | rfl <;> exact absurd h (by decide)

lemma isQuote_spec {c : Char} (h : isQuote c = true) : isSeparator c = false ∧ c ≠ '\\' := by
  simp only [isQuote, Bool.or_eq_true, decide_eq_true_eq] at h
  rcases h with rfl | rfl <;> decide

lemma isNameChar_of_isNameStart {c : Char} (h : isNameStart c = true) : isNameChar c = true := by
  simp only [isNameStart, isNameChar, Char.isAlphanum, Bool.or_eq_true] at h ⊢
  exact h.imp_left .inl

lemma isDigit_of_isNameStart {c : Char} (h : isNameStart c = true) : c.isDigit = false := by
  by_contra hd
  have hle : c.val ≤ 57 := of_decide_eq_true (Bool.and_eq_true_iff.mp (eq_true_of_ne_false hd)).2
  rcases Bool.or_eq_true_iff.mp h with h | h
  · rcases Bool.or_eq_true_iff.mp h with hupper | hlower
    · have hge : 65 ≤ c.val := (of_decide_eq_true hupper).1
      exact absurd (UInt32.le_trans hge hle) (by decide)
    · have hge : 97 ≤ c.val := of_decide_eq_true (Bool.and_eq_true_iff.mp hlower).1
      exact absurd (UInt32.le_trans hge hle) (by decide)
  · rw [of_decide_eq_true h] at hle
    exact absurd hle (by decide)

lemma number?_of_head {c : Char} (cs : List Char) (hm : c ≠ '-') (hd : c.isDigit = false) :
    number? (c :: cs) = none := by
  have hsign : signLength (c :: cs) = 0 := by simp [signLength, hm]
  have hwhole : wholeEnd (c :: cs) = signLength (c :: cs) := by
    simp [wholeEnd, hsign, digitsLength, hd]
  rw [number?_eq, if_pos (.inl hwhole)]

lemma number?_of_isNameStart {c : Char} (cs : List Char) (h : isNameStart c = true) :
    number? (c :: cs) = none := by
  have hm : c ≠ '-' := by
    rintro rfl
    exact absurd h (by decide)
  exact number?_of_head cs hm (isDigit_of_isNameStart h)

lemma literal?_of_isQuote {c : Char} (cs : List Char) (h : isQuote c = true) :
    literal? (c :: cs) = some (literalPiece .text 1 c cs) := by
  simp [literal?, h]

lemma literal?_b (d : Char) (ds : List Char) :
    literal? ('b' :: d :: ds) =
      if isQuote d then some (literalPiece .bytes 2 d ds) else none := rfl

lemma literal?_of_ne {c : Char} (cs : List Char) (hq : isQuote c = false) (hb : c ≠ 'b') :
    literal? (c :: cs) = none := by
  simp [literal?, hq, hb]

lemma literal?_cases {cs : List Char} {found : Content × Nat} (h : literal? cs = some found) :
    ∃ quote rest, isQuote quote = true ∧
      (cs = quote :: rest ∧ found = literalPiece .text 1 quote rest ∨
        cs = 'b' :: quote :: rest ∧ found = literalPiece .bytes 2 quote rest) := by
  cases cs with
  | nil => cases h
  | cons c cs =>
    cases hq : isQuote c with
    | true =>
      rw [literal?_of_isQuote _ hq] at h
      exact ⟨c, cs, hq, .inl ⟨rfl, (Option.some.inj h).symm⟩⟩
    | false =>
      by_cases hb : c = 'b'
      · subst hb
        cases cs with
        | nil => cases h
        | cons d ds =>
          rw [literal?_b] at h
          split at h
          · next hd => exact ⟨d, ds, hd, .inr ⟨rfl, (Option.some.inj h).symm⟩⟩
          · cases h
      · rw [literal?_of_ne cs hq hb] at h
        cases h

lemma isWord_of_literal? {cs : List Char} {t : Token} {n : Nat}
    (h : literal? cs = some (.token t, n)) :
    ∃ w rest, cs = w ++ rest ∧ n = w.length ∧ IsWord t w ∧ t.EndsBefore rest := by
  obtain ⟨quote, after, hq, ⟨rfl, hfound⟩ | ⟨rfl, hfound⟩⟩ := literal?_cases h
  · obtain ⟨w, rest, content, rfl, rfl, hw, rfl⟩ := isBody_of_literalPiece hfound.symm
    exact ⟨quote :: w, rest, rfl, Nat.add_comm _ _, .str hq hw, fun _ _ => rfl⟩
  · obtain ⟨w, rest, content, rfl, rfl, hw, rfl⟩ := isBody_of_literalPiece hfound.symm
    exact ⟨'b' :: quote :: w, rest, rfl, Nat.add_comm _ _, .bytes hq hw, fun _ _ => rfl⟩

lemma Mark.ofChar?_char (m : Mark) : Mark.ofChar? m.char = some m := by
  cases m <;> rfl

lemma Mark.char_of_ofChar? {c : Char} {m : Mark} (h : Mark.ofChar? c = some m) : m.char = c := by
  simpa using List.find?_some h

lemma isWord_of_name? {cs : List Char} {t : Token} {n : Nat} (hl : literal? cs = none)
    (h : name? cs = some (.token t, n)) :
    ∃ w rest, cs = w ++ rest ∧ n = w.length ∧ IsWord t w ∧ t.EndsBefore rest := by
  cases cs with
  | nil => cases h
  | cons c cs =>
    cases hc : isNameStart c with
    | false => simp [name?, hc] at h
    | true =>
      simp only [name?, hc, if_true] at h
      cases h
      have hname : IsName (String.ofList (c :: cs.takeWhile isNameChar)) := by
        rw [IsName, String.toList_ofList]
        refine ⟨hc, fun d hd => ?_⟩
        rcases List.mem_cons.mp hd with rfl | hd
        · exact isNameChar_of_isNameStart hc
        · exact List.mem_takeWhile_imp hd
      have hword := IsWord.name hname
      rw [String.toList_ofList] at hword
      refine ⟨c :: cs.takeWhile isNameChar, cs.dropWhile isNameChar, ?_, rfl, hword, ?_⟩
      · rw [List.cons_append, List.takeWhile_append_dropWhile]
      intro d hd
      have hrun : isNameChar d = false := by
        simpa only [Option.mem_def.mp hd] using List.head?_dropWhile_not isNameChar cs
      rw [Token.goesOnWith, hrun, Bool.false_or]
      by_cases hb : String.ofList (c :: cs.takeWhile isNameChar) = "b"
      · -- a quote after a lone `b` would have opened a literal
        obtain ⟨rfl, hnone⟩ : c = 'b' ∧ cs.takeWhile isNameChar = [] := by
          simpa using congrArg String.toList hb
        have hcs := List.takeWhile_append_dropWhile (p := isNameChar) (l := cs)
        rw [hnone, List.nil_append] at hcs
        rw [hcs] at hd
        obtain ⟨ds, rfl⟩ := List.head?_eq_some_iff.mp hd
        rw [literal?_b] at hl
        cases hq : isQuote d with
        | false => rw [Bool.and_false]
        | true => simp [hq] at hl
      · rw [decide_eq_false hb, Bool.false_and]

lemma pieceAt_of_name {s : String} (h : IsName s) {c : Char} {cs rest : List Char}
    (hs : s.toList = c :: cs) (hr : (Token.name s).EndsBefore rest) :
    pieceAt c (cs ++ rest) = (.token (.name s), cs.length + 1) := by
  obtain ⟨hstart, hchars⟩ := h
  rw [hs] at hstart hchars
  have hc : isNameStart c = true := by simpa using hstart
  have hcs : ∀ d ∈ cs, isNameChar d = true := fun d hd => hchars d (List.mem_cons_of_mem _ hd)
  obtain ⟨hsep, hq⟩ := isNameChar_spec (hchars c List.mem_cons_self)
  have hends : ∀ d ∈ rest.head?, isNameChar d = false ∧ (s = "b" → isQuote d = false) := by
    intro d hd
    simpa [Token.goesOnWith] using hr d hd
  have hl : literal? (c :: (cs ++ rest)) = none := by
    by_cases hb : c = 'b'
    · subst hb
      cases cs with
      | nil =>
        cases rest with
        | nil => rfl
        | cons d ds =>
          have hlone : s = "b" := by rw [← String.ofList_toList (s := s), hs]
          rw [List.nil_append, literal?_b, if_neg (by simp [(hends d rfl).2 hlone])]
      | cons d ds =>
        have hd := (isNameChar_spec (hcs d List.mem_cons_self)).2
        rw [List.cons_append, literal?_b, if_neg (by simp [hd])]
    · exact literal?_of_ne _ hq hb
  have hrun : (cs ++ rest).takeWhile isNameChar = cs := by
    rw [Text.takeWhile_append_of_head cs fun d hd => (hends d hd).1,
      List.takeWhile_eq_self_iff.mpr hcs]
  have hname : name? (c :: (cs ++ rest)) = some (.token (.name s), cs.length + 1) := by
    simp only [name?, hc, if_true, hrun]
    rw [← hs, String.ofList_toList]
  simp only [pieceAt, hsep, hl, number?_of_isNameStart _ hc, hname]
  rfl

lemma starts_only_numbers {c : Char} (h : c = '-' ∨ c.isDigit = true) :
    isSeparator c = false ∧ isQuote c = false ∧ c ≠ 'b' ∧ isNameStart c = false ∧
      Mark.ofChar? c = none := by
  rcases h with rfl | hc
  · decide
  obtain ⟨hsep, hq⟩ := isNameChar_spec (isNameChar_of_isDigit hc)
  refine ⟨hsep, hq, ?_, ?_, ?_⟩
  · rintro rfl
    exact absurd hc (by decide)
  · by_contra hstart
    rw [isDigit_of_isNameStart (eq_true_of_ne_false hstart)] at hc
    cases hc
  · rw [Option.eq_none_iff_forall_not_mem]
    intro m hm
    rw [← Mark.char_of_ofChar? hm] at hc
    cases m <;> exact absurd hc (by decide)

lemma head_of_isNumber {kind : NumberKind} {w : List Char} (h : IsNumber kind w) :
    ∃ c cs, w = c :: cs ∧ (c = '-' ∨ c.isDigit = true) := by
  obtain ⟨⟨sign, whole, rfl, hsign, hne, hd⟩, -, -, -⟩ := h
  obtain ⟨d, ds, rfl⟩ := List.exists_cons_of_ne_nil hne
  rcases hsign with rfl | rfl
  · exact ⟨d, _, rfl, .inr (hd d List.mem_cons_self)⟩
  · exact ⟨'-', _, rfl, .inl rfl⟩

lemma pieceAt_of_number {kind : NumberKind} {c : Char} {cs rest : List Char}
    (h : IsNumber kind (c :: cs)) (hr : EndsNumber kind rest) :
    pieceAt c (cs ++ rest) =
      (.token (.number kind (String.ofList (c :: cs))), cs.length + 1) := by
  obtain ⟨_, _, ⟨rfl, rfl⟩, hc⟩ := head_of_isNumber h
  obtain ⟨hsep, hq, hb, -, -⟩ := starts_only_numbers hc
  have hn := number?_of_isNumber h hr
  have htake : (c :: (cs ++ rest)).take (cs.length + 1) = c :: cs := by
    rw [List.take_succ_cons, List.take_left]
  rw [List.cons_append] at hn
  simp only [pieceAt, hsep, literal?_of_ne _ hq hb, hn, List.length_cons, htake]
  rfl

lemma IsWord.ne_nil {t : Token} {w : List Char} (h : IsWord t w) : w ≠ [] := by
  rintro rfl
  generalize hw : [] = w at h
  cases h with
  | name hs =>
    rw [IsName, ← hw] at hs
    cases hs.1
  | number hn =>
    subst hw
    obtain ⟨_, _, hcons, -⟩ := head_of_isNumber hn
    cases hcons
  | str | bytes | mark => cases hw

/-- What the piece at the start of a text is. -/
inductive IsPieceAt (c : Char) (cs : List Char) : Content × Nat → Prop
  | blank (hc : isSeparator c = true) : IsPieceAt c cs (.blank, 1)
  | literal {found : Content × Nat} (h : literal? (c :: cs) = some found) : IsPieceAt c cs found
  | number {kind : NumberKind} {n : Nat} (h : number? (c :: cs) = some (kind, n)) :
    IsPieceAt c cs (.token (.number kind (String.ofList ((c :: cs).take n))), n)
  | name {t : Token} {n : Nat} (hl : literal? (c :: cs) = none)
    (h : name? (c :: cs) = some (.token t, n)) : IsPieceAt c cs (.token t, n)
  | mark {m : Mark} (h : Mark.ofChar? c = some m) : IsPieceAt c cs (.token (.mark m), 1)
  | stray : IsPieceAt c cs (.fault .strayCharacter, 1)

lemma isPieceAt_pieceAt (c : Char) (cs : List Char) : IsPieceAt c cs (pieceAt c cs) := by
  unfold pieceAt
  split
  · next hc => exact .blank hc
  split
  · next found hl => exact .literal hl
  next hl =>
  split
  · next kind n hn => exact .number hn
  split
  · next found hname =>
    cases hc : isNameStart c with
    | false => simp [name?, hc] at hname
    | true =>
      have htoken := hname
      simp only [name?, hc, if_true] at htoken
      cases htoken
      exact .name hl hname
  split
  · next m hm => exact .mark hm
  · exact .stray

theorem isWord_of_pieceAt {c : Char} {cs : List Char} {t : Token} {n : Nat}
    (h : pieceAt c cs = (.token t, n)) :
    ∃ w rest, c :: cs = w ++ rest ∧ n = w.length ∧ IsWord t w ∧ t.EndsBefore rest := by
  have hpiece := isPieceAt_pieceAt c cs
  rw [h] at hpiece
  cases hpiece with
  | literal hl => exact isWord_of_literal? hl
  | number hn =>
    obtain ⟨w, rest, hcs, rfl, hw, hr⟩ := isNumber_of_number? hn
    rw [hcs, List.take_left]
    refine ⟨w, rest, rfl, rfl, .number hw, fun d hd => ?_⟩
    have hends := hr d hd
    simpa [Token.goesOnWith] using hends
  | name hl hname => exact isWord_of_name? hl hname
  | mark hm =>
    obtain rfl := Mark.char_of_ofChar? hm
    exact ⟨_, cs, rfl, rfl, .mark _, fun _ _ => rfl⟩

theorem pieceAt_of_isWord {t : Token} {c : Char} {cs rest : List Char} (h : IsWord t (c :: cs))
    (hr : t.EndsBefore rest) : pieceAt c (cs ++ rest) = (.token t, cs.length + 1) := by
  generalize hw : c :: cs = w at h
  cases h with
  | name h => exact pieceAt_of_name h hw.symm hr
  | number h =>
    subst hw
    exact pieceAt_of_number h fun d hd => by simpa [Token.goesOnWith] using hr d hd
  | @str quote w content hq hbody =>
    obtain ⟨rfl, rfl⟩ := List.cons.inj hw
    simp only [pieceAt, (isQuote_spec hq).1, literal?_of_isQuote _ hq,
      literalPiece_of_isBody hbody 1 rest, Nat.add_comm 1]
    rfl
  | @bytes quote w content hq hbody =>
    obtain ⟨rfl, rfl⟩ := List.cons.inj hw
    simp only [pieceAt, List.cons_append, literal?_b, hq, if_true,
      literalPiece_of_isBody hbody 2 rest, Nat.add_comm 2]
    rfl
  | mark m =>
    obtain ⟨rfl, rfl⟩ := List.cons.inj hw
    cases m <;> rfl

end SyntaxLens.Dump
