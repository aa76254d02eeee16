import SyntaxLens.Proofs.Dump.Boundary

/-!
# Words that are cut off

What is left of a word once its end is cut off is a shorter word of its kind, a literal that is not
closed, or torn: a minus sign alone, a number whose exponent has no digits, or a literal that ends
within an escape. A torn word is no token. The lexer sees stray characters in the number, and in
the literal an escape that is not valid.
-/

namespace SyntaxLens.Dump

open Literal

/-- The text after an opening quote, up to a place between two characters of the content. -/
inductive IsOpen (kind : QuotedKind) (quote : Char) : List Char → Prop
  | nil : IsOpen kind quote []
  | escape {escaped u : List Char} {c : Char} (hq : '\\' ≠ quote)
    (he : escape? kind escaped = some (c, escaped.length)) (hu : IsOpen kind quote u) :
    IsOpen kind quote ('\\' :: (escaped ++ u))
  | char {u : List Char} {c : Char} (hq : c ≠ quote) (hn : c ≠ '\n') (hb : c ≠ '\\')
    (hu : IsOpen kind quote u) : IsOpen kind quote (c :: u)

lemma escape?_of_cut {kind : QuotedKind} {cs more : List Char} {c : Char}
    (h : escape? kind (cs ++ more) = some (c, (cs ++ more).length)) (hmore : more ≠ []) :
    escape? kind cs = none := by
  rw [Option.eq_none_iff_forall_not_mem]
  rintro ⟨d, n⟩ hd
  obtain ⟨escaped, after, rfl, rfl, hescape⟩ := escape?_split hd
  have hwhole := hescape (after ++ more)
  rw [← List.append_assoc, h, Option.some.injEq, Prod.mk.injEq, List.length_append,
    List.length_append] at hwhole
  have hpos := List.length_pos_iff.mpr hmore
  omega

/-- A text after an opening quote is read through to where it stops without being closed. -/
lemma body_of_isOpen {kind : QuotedKind} {quote : Char} {u rest : List Char} {stop : Nat → Body}
    (h : IsOpen kind quote u) (hpush : ∀ c k n, (stop n).push c k = stop (k + n))
    (hrest : body kind quote rest = stop 0) : body kind quote (u ++ rest) = stop u.length := by
  induction h with
  | nil => exact hrest
  | @escape escaped u c hq he hu ih =>
    rw [List.cons_append, List.append_assoc, body, if_neg hq, if_neg (by decide), if_pos rfl,
      escape?_append he (u ++ rest)]
    simp only [List.drop_left, ih, hpush, List.length_cons, List.length_append]
    rw [show escaped.length + 1 + u.length = escaped.length + u.length + 1 by omega]
  | @char u c hq hn hb hu ih =>
    rw [List.cons_append, body, if_neg hq, if_neg hn, if_neg hb, ih, hpush, List.length_cons,
      Nat.add_comm]

lemma isOpen_of_cut {kind : QuotedKind} {quote : Char} {w content : List Char}
    (h : IsBody kind quote w content) : ∀ {u more : List Char}, w = u ++ more → more ≠ [] →
      IsOpen kind quote u ∨ '\\' ≠ quote ∧ ∃ v escaped, u = v ++ '\\' :: escaped ∧
        IsOpen kind quote v ∧ escape? kind escaped = none := by
  induction h with
  | close =>
    intro u more hw hmore
    cases u with
    | nil => exact .inl .nil
    | cons c u =>
      have hnil := (List.cons.inj hw).2
      exact absurd (List.append_eq_nil_iff.mp hnil.symm).2 hmore
  | @escape escaped w content c hq he hw ih =>
    intro u more hcut hmore
    cases u with
    | nil => exact .inl .nil
    | cons d u =>
      obtain ⟨rfl, htail⟩ := List.cons.inj hcut
      -- the cut is after the escape or within it
      rcases List.append_eq_append_iff.mp htail with ⟨u, rfl, hw'⟩ | ⟨more', rfl, rfl⟩
      · rcases ih hw' hmore with hu | ⟨-, v, torn, rfl, hv, htorn⟩
        · exact .inl (.escape hq he hu)
        · refine .inr ⟨hq, '\\' :: (escaped ++ v), torn, ?_, .escape hq he hv, htorn⟩
          rw [List.cons_append, List.append_assoc]
      · by_cases hmore' : more' = []
        · subst hmore'
          rw [List.append_nil] at he
          have hu := IsOpen.escape hq he .nil
          rw [List.append_nil] at hu
          exact .inl hu
        · exact .inr ⟨hq, [], u, rfl, .nil, escape?_of_cut he hmore'⟩
  | @char w content c hq hn hb hw ih =>
    intro u more hcut hmore
    cases u with
    | nil => exact .inl .nil
    | cons d u =>
      obtain ⟨rfl, htail⟩ := List.cons.inj hcut
      rcases ih htail hmore with hu | ⟨hq', v, torn, rfl, hv, htorn⟩
      · exact .inl (.char hq hn hb hu)
      · exact .inr ⟨hq', c :: v, torn, rfl, .char hq hn hb hv, htorn⟩

/-- A number that is cut off after its sign, or within its exponent before any digit of it. -/
inductive LacksDigits : List Char → Prop
  | whole : LacksDigits ['-']
  | exponent {whole fraction sign : List Char} {letter : Char} (hw : IsInteger whole)
    (hf : fraction = [] ∨ IsFraction fraction) (hl : letter = 'e' ∨ letter = 'E')
    (hs : sign = [] ∨ sign = ['+'] ∨ sign = ['-']) :
    LacksDigits (whole ++ (fraction ++ letter :: sign))

section Cuts

variable {u more : List Char}

lemma signed_cut {sign ds : List Char} (hsign : sign.length ≤ 1) (hds : IsDigits ds)
    (h : sign ++ ds = u ++ more) : u = [] ∨ u = sign ∨ ∃ ds', IsDigits ds' ∧ u = sign ++ ds' := by
  rcases List.append_eq_append_iff.mp h with ⟨u', rfl, rfl⟩ | ⟨rest, rfl, -⟩
  · by_cases hu' : u' = []
    · rw [hu', List.append_nil]
      exact .inr (.inl rfl)
    · exact .inr (.inr ⟨u', ⟨hu', fun d hd => hds.2 d (List.mem_append_left _ hd)⟩, rfl⟩)
  · cases u with
    | nil => exact .inl rfl
    | cons c u =>
      obtain ⟨rfl, rfl⟩ : u = [] ∧ rest = [] := by
        rw [List.length_append, List.length_cons] at hsign
        exact ⟨List.length_eq_zero_iff.mp (by omega), List.length_eq_zero_iff.mp (by omega)⟩
      exact .inr (.inl rfl)

lemma isInteger_of_cut (h : IsInteger (u ++ more)) (hu : u ≠ []) : u = ['-'] ∨ IsInteger u := by
  obtain ⟨sign, ds, hcut, hsign, hds⟩ := h
  have hlength : sign.length ≤ 1 := by rcases hsign with rfl | rfl <;> decide
  rcases signed_cut hlength hds hcut.symm with rfl | rfl | ⟨ds', hds', rfl⟩
  · exact absurd rfl hu
  · exact .inl (hsign.resolve_left hu)
  · exact .inr ⟨sign, ds', rfl, hsign, hds'⟩

lemma isFraction_of_cut (h : u ++ more = [] ∨ IsFraction (u ++ more)) : u = [] ∨ IsFraction u := by
  cases u with
  | nil => exact .inl rfl
  | cons c u =>
    obtain ⟨ds, hcut, hds⟩ := h.resolve_left (List.cons_ne_nil _ _)
    obtain ⟨rfl, rfl⟩ := List.cons.inj hcut
    exact .inr ⟨u, rfl, fun d hd => hds d (List.mem_append_left _ hd)⟩

lemma isExponent_of_cut (h : u ++ more = [] ∨ IsExponent (u ++ more)) :
    (u = [] ∨ IsExponent u) ∨ ∃ letter sign, u = letter :: sign ∧ (letter = 'e' ∨ letter = 'E') ∧
      (sign = [] ∨ sign = ['+'] ∨ sign = ['-']) := by
  cases u with
  | nil => exact .inl (.inl rfl)
  | cons c u =>
    obtain ⟨letter, sign, ds, hcut, hl, hsign, hds⟩ := h.resolve_left (List.cons_ne_nil _ _)
    obtain ⟨rfl, htail⟩ := List.cons.inj hcut
    have hlength : sign.length ≤ 1 := by rcases hsign with rfl | rfl | rfl <;> decide
    rcases signed_cut hlength hds htail.symm with rfl | rfl | ⟨ds', hds', rfl⟩
    · exact .inr ⟨c, [], rfl, hl, .inl rfl⟩
    · exact .inr ⟨c, u, rfl, hl, hsign⟩
    · exact .inl (.inr ⟨c, sign, ds', rfl, hl, hsign, hds'⟩)

lemma unit_of_cut (h : u ++ more = [] ∨ u ++ more = ['j'] ∨ u ++ more = ['J']) :
    u = [] ∨ u = ['j'] ∨ u = ['J'] := by
  cases u with
  | nil => exact .inl rfl
  | cons c u =>
    rcases h with h | h | h
    · cases h
    · obtain ⟨rfl, hnil⟩ := List.cons.inj h
      rw [(List.append_eq_nil_iff.mp hnil).1]
      exact .inr (.inl rfl)
    · obtain ⟨rfl, hnil⟩ := List.cons.inj h
      rw [(List.append_eq_nil_iff.mp hnil).1]
      exact .inr (.inr rfl)

/-- What is left of a number is a number, but for one that lacks digits. -/
theorem isNumber_of_cut {kind : NumberKind} (h : IsNumber kind (u ++ more)) (hu : u ≠ []) :
    (∃ kind', IsNumber kind' u) ∨ LacksDigits u := by
  generalize hcut : u ++ more = w at h
  cases h with
  | @ofParts whole fraction exponent unit hw hf he hunit =>
  rcases List.append_eq_append_iff.mp hcut with ⟨more, rfl, -⟩ | ⟨u, rfl, htail⟩
  · rcases isInteger_of_cut hw hu with rfl | hu
    · exact .inr .whole
    · exact .inl ⟨.int, isNumber_of_isInteger hu⟩
  rcases List.append_eq_append_iff.mp htail.symm with ⟨more, rfl, -⟩ | ⟨u, rfl, hend⟩
  · have hnumber := IsNumber.ofParts hw (isFraction_of_cut hf) (.inl rfl) (.inl rfl)
    rw [List.append_nil, List.append_nil] at hnumber
    exact .inl ⟨_, hnumber⟩
  rcases List.append_eq_append_iff.mp hend.symm with ⟨more, rfl, -⟩ | ⟨u, rfl, rfl⟩
  · rcases isExponent_of_cut he with he | ⟨letter, sign, rfl, hl, hs⟩
    · have hnumber := IsNumber.ofParts hw hf he (.inl rfl)
      rw [List.append_nil] at hnumber
      exact .inl ⟨_, hnumber⟩
    · exact .inr (.exponent hw hf hl hs)
  · exact .inl ⟨_, .ofParts hw hf he (unit_of_cut hunit)⟩

end Cuts

lemma LacksDigits.spec {u : List Char} (h : LacksDigits u) :
    number? u = none ∧ ∃ c cs, u = c :: cs ∧ (c = '-' ∨ c.isDigit = true) := by
  cases h with
  | whole => exact ⟨rfl, '-', [], rfl, .inl rfl⟩
  | @exponent whole fraction sign letter hw hf hl hs =>
    have hletter : letter.isDigit = false ∧ letter ≠ '.' ∧ isNameChar letter = true := by
      rcases hl with rfl | rfl <;> decide
    have hhead : ∀ c ∈ (fraction ++ letter :: sign).head?, c.isDigit = false := by
      rcases hf with rfl | ⟨ds, rfl, -⟩
      · rintro _ ⟨rfl⟩
        exact hletter.1
      · rintro _ ⟨rfl⟩
        decide
    obtain ⟨hwhole, hsign⟩ := wholeEnd_of_isInteger hw (fraction ++ letter :: sign) hhead
    have hfraction : fractionLength (fraction ++ letter :: sign) = fraction.length := by
      apply fractionLength_of_isFraction hf
      rintro _ ⟨rfl⟩
      exact ⟨hletter.1, fun _ => hletter.2.1⟩
    have hexponent : exponentLength (letter :: sign) = 0 := by
      rcases hs with rfl | rfl | rfl <;> simp [exponentLength, exponentSignLength, digitsLength]
    have hunit : unitLength (letter :: sign) = 0 := by
      rcases hl with rfl | rfl <;> rfl
    have hparts : whole ++ (fraction ++ letter :: sign) =
        whole ++ (fraction ++ ([] ++ ([] ++ letter :: sign))) := rfl
    constructor
    · rw [number?_of_parts hparts hsign hwhole hfraction hexponent hunit, if_pos]
      simpa using hletter.2.2
    · obtain ⟨c, cs, rfl, hc⟩ := head_of_isNumber (isNumber_of_isInteger hw)
      exact ⟨c, _, rfl, hc⟩

/-- The text opens a literal of a kind with a quote. -/
inductive Opens : QuotedKind → Char → List Char → Prop
  | text {quote : Char} (h : isQuote quote = true) : Opens .text quote [quote]
  | bytes {quote : Char} (h : isQuote quote = true) : Opens .bytes quote ['b', quote]

/-- A literal that is cut off between two characters of its content. -/
inductive IsUnclosed : List Char → Prop
  | literal {kind : QuotedKind} {quote : Char} {opening u : List Char}
    (ho : Opens kind quote opening) (hu : IsOpen kind quote u) : IsUnclosed (opening ++ u)

/-- A word that is cut off so that no token starts with what is left of it, with the kind of the
diagnostic for it: a number that lacks digits, or a literal within an escape. -/
inductive IsTorn : DiagnosticKind → List Char → Prop
  | number {u : List Char} (h : LacksDigits u) : IsTorn .unexpectedCharacter u
  | escape {kind : QuotedKind} {quote : Char} {opening u escaped : List Char}
    (ho : Opens kind quote opening) (hq : '\\' ≠ quote) (hu : IsOpen kind quote u)
    (he : escape? kind escaped = none) : IsTorn .invalidEscape (opening ++ (u ++ '\\' :: escaped))

/-- What is left of a token that is cut off. Of a literal of bytes, its letter is left as a name. -/
inductive Remains : Token → List Char → Prop
  | name {name s : String} (h : IsName s) : Remains (.name name) s.toList
  | letter {data : List UInt8} : Remains (.bytes data) "b".toList
  | number {kind kind' : NumberKind} {text : String} {u : List Char} (h : IsNumber kind' u) :
    Remains (.number kind text) u
  | unclosed {t : Token} {u : List Char} (h : IsUnclosed u) : Remains t u
  | torn {t : Token} {kind : DiagnosticKind} {u : List Char} (h : IsTorn kind u) : Remains t u

lemma isName_of_cut {s : String} {u more : List Char} (h : IsName s) (hcut : s.toList = u ++ more)
    (hu : u ≠ []) : IsName (String.ofList u) := by
  obtain ⟨c, cs, rfl⟩ := List.exists_cons_of_ne_nil hu
  obtain ⟨hstart, hchars⟩ := h
  rw [hcut] at hstart hchars
  rw [IsName, String.toList_ofList]
  exact ⟨hstart, fun d hd => hchars d (List.mem_append_left _ hd)⟩

lemma remains_of_literal {t : Token} {kind : QuotedKind} {quote : Char}
    {opening w content u more : List Char} (ho : Opens kind quote opening)
    (hw : IsBody kind quote w content) (hcut : w = u ++ more) (hmore : more ≠ []) :
    Remains t (opening ++ u) := by
  rcases isOpen_of_cut hw hcut hmore with hu | ⟨hq, v, escaped, rfl, hv, he⟩
  · exact .unclosed (.literal ho hu)
  · exact .torn (.escape ho hq hv he)

theorem remains_of_cut {t : Token} {u more : List Char} (h : IsWord t (u ++ more)) (hu : u ≠ [])
    (hmore : more ≠ []) : Remains t u := by
  generalize hcut : u ++ more = w at h
  cases h with
  | @name s hs =>
    rw [← String.toList_ofList (l := u)]
    exact .name (isName_of_cut hs hcut.symm hu)
  | number hn =>
    rw [← hcut] at hn
    rcases isNumber_of_cut hn hu with ⟨kind', hnumber⟩ | hlacks
    · exact .number hnumber
    · exact .torn (.number hlacks)
  | str hq hbody =>
    obtain ⟨c, u, rfl⟩ := List.exists_cons_of_ne_nil hu
    obtain ⟨rfl, htail⟩ := List.cons.inj hcut
    exact remains_of_literal (.text hq) hbody htail.symm hmore
  | bytes hq hbody =>
    obtain ⟨c, u, rfl⟩ := List.exists_cons_of_ne_nil hu
    obtain ⟨rfl, htail⟩ := List.cons.inj hcut
    cases u with
    | nil => exact .letter
    | cons d u =>
      obtain ⟨rfl, hrest⟩ := List.cons.inj htail
      exact remains_of_literal (.bytes hq) hbody hrest.symm hmore
  | mark m =>
    obtain ⟨c, u, rfl⟩ := List.exists_cons_of_ne_nil hu
    have hnil := (List.cons.inj hcut).2
    exact absurd (List.append_eq_nil_iff.mp hnil).2 hmore

lemma pieces_stray {c : Char} {cs : List Char} (hn : number? (c :: cs) = none)
    (hc : isSeparator c = false ∧ isQuote c = false ∧ c ≠ 'b' ∧ isNameStart c = false ∧
      Mark.ofChar? c = none) :
    pieces (c :: cs) = ⟨.fault .strayCharacter, [c]⟩ :: pieces cs := by
  obtain ⟨hsep, hq, hb, hstart, hmark⟩ := hc
  have hname : name? (c :: cs) = none := by simp [name?, hstart]
  have hpiece : pieceAt c cs = (.fault .strayCharacter, 1) := by
    simp only [pieceAt, hsep, literal?_of_ne cs hq hb, hn, hname, hmark]
    rfl
  rw [pieces, hpiece]
  rfl

lemma pieces_of_opens {kind : QuotedKind} {quote : Char} {opening rest : List Char} {f : Fault}
    {n : Nat} (ho : Opens kind quote opening)
    (hpiece : literalPiece kind opening.length quote rest = (.fault f, n + 1)) :
    pieces (opening ++ rest) = ⟨.fault f, (opening ++ rest).take (n + 1)⟩ ::
      pieces ((opening ++ rest).drop (n + 1)) := by
  cases ho with
  | @text quote hq =>
    have hfound : pieceAt quote rest = (.fault f, n + 1) := by
      simp only [pieceAt, (isQuote_spec hq).1, literal?_of_isQuote _ hq]
      exact hpiece
    rw [List.singleton_append, pieces, hfound]
    rfl
  | @bytes quote hq =>
    have hfound : pieceAt 'b' (quote :: rest) = (.fault f, n + 1) := by
      simp only [pieceAt, literal?_b, hq, if_true]
      exact hpiece
    rw [List.cons_append, List.singleton_append, pieces, hfound]
    rfl

theorem pieces_of_isUnclosed {u : List Char} (h : IsUnclosed u) :
    pieces u = [⟨.fault (.unterminated u.length), u⟩] := by
  cases h with
  | @literal kind quote opening u ho hu =>
    have hend : body kind quote [] = .unterminated 0 := by rw [body]
    have hbody := body_of_isOpen hu (fun _ _ _ => rfl) hend
    rw [List.append_nil] at hbody
    have hpiece : literalPiece kind opening.length quote u =
        (.fault (.unterminated (opening.length + u.length)), opening.length + u.length + 1) := by
      rw [literalPiece, hbody]
    rw [pieces_of_opens ho hpiece, ← List.length_append, List.take_of_length_le (Nat.le_succ _),
      List.drop_of_length_le (Nat.le_succ _), pieces]

/-- A torn word starts with a fault that is reported as the kind says. -/
theorem pieces_of_isTorn {kind : DiagnosticKind} {u : List Char} (h : IsTorn kind u) :
    ∃ f text ps, pieces u = ⟨.fault f, text⟩ :: ps ∧
      ∀ offset, (f.diagnostic offset text).kind = some kind := by
  cases h with
  | number hlacks =>
    obtain ⟨hnone, c, cs, rfl, hc⟩ := hlacks.spec
    exact ⟨_, _, _, pieces_stray hnone (starts_only_numbers hc), fun _ => rfl⟩
  | @escape kind quote opening u escaped ho hq hu he =>
    have htorn : body kind quote ('\\' :: escaped) = .badEscape 0 := by
      rw [body, if_neg hq, if_neg (by decide), if_pos rfl, he]
    have hbody := body_of_isOpen hu (fun _ _ _ => rfl) htorn
    have hpiece : literalPiece kind opening.length quote (u ++ '\\' :: escaped) =
        (.fault (.badEscape kind (opening.length + u.length)),
          opening.length + u.length + 1 + 1) := by
      rw [literalPiece, hbody]
    exact ⟨_, _, _, pieces_of_opens ho hpiece, fun _ => rfl⟩

end SyntaxLens.Dump
