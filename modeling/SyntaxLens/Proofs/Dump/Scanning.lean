import SyntaxLens.Proofs.Dump.Boundary
import SyntaxLens.Proofs.Dump.Spelling

namespace SyntaxLens.Dump

/-- The token of a piece that is one. -/
def Content.token? : Content → Option Token
  | token t => some t
  | blank | fault _ => none

/-- The text is cut into the given tokens and blanks, without a fault. -/
structure Scans (cs : List Char) (ts : List Token) : Prop where
  faultless : ∀ p ∈ pieces cs, ∀ f, p.content ≠ .fault f
  tokens : (pieces cs).filterMap (·.content.token?) = ts

lemma scans_nil : Scans [] [] where
  faultless := by simp [pieces]
  tokens := by simp [pieces]

lemma Scans.push {cs rest : List Char} {ts : List Token} {p : Piece} (h : Scans rest ts)
    (hcs : pieces cs = p :: pieces rest) (hp : ∀ f, p.content ≠ .fault f) :
    Scans cs (p.content.token?.toList ++ ts) where
  faultless := by
    rw [hcs]
    intro q hq
    rcases List.mem_cons.mp hq with rfl | hq
    · exact hp
    · exact h.faultless q hq
  tokens := by
    rw [hcs, List.filterMap_cons, h.tokens]
    cases p.content.token? <;> rfl

lemma Scans.word {w rest : List Char} {t : Token} {ts : List Token} (h : Scans rest ts)
    (hw : IsWord t w) (hr : t.EndsBefore rest) : Scans (w ++ rest) (t :: ts) :=
  h.push (pieces_of_isWord hw hr) nofun

lemma Scans.mark {rest : List Char} {ts : List Token} (h : Scans rest ts) (m : Mark) :
    Scans (m.char :: rest) (.mark m :: ts) :=
  h.word (.mark m) fun _ _ => rfl

lemma Scans.gap {gap rest : List Char} {ts : List Token} (h : Scans rest ts)
    (hgap : ∀ c ∈ gap, isSeparator c = true) : Scans (gap ++ rest) ts := by
  induction gap with
  | nil => exact h
  | cons c gap ih =>
    have hrest := ih fun d hd => hgap d (List.mem_cons_of_mem _ hd)
    exact hrest.push (pieces_separator (hgap c List.mem_cons_self) _) nofun

lemma faultsFrom_eq_nil {ps : List Piece} (h : ∀ p ∈ ps, ∀ f, p.content ≠ .fault f) (offset : Nat) :
    faultsFrom offset ps = [] := by
  induction ps generalizing offset with
  | nil => rfl
  | cons p ps ih =>
    have hrest := ih (fun q hq => h q (List.mem_cons_of_mem _ hq))
    obtain ⟨content, text⟩ := p
    cases content with
    | blank => simp only [faultsFrom, hrest]
    | token t => simp only [faultsFrom, hrest]
    | fault f => exact absurd rfl (h _ List.mem_cons_self f)

lemma forall_of_faultsFrom {offset : Nat} {ps : List Piece} (h : faultsFrom offset ps = []) :
    ∀ p ∈ ps, ∀ f, p.content ≠ .fault f := by
  induction ps generalizing offset with
  | nil => nofun
  | cons p ps ih =>
    obtain ⟨content, text⟩ := p
    cases content with
    | token t | blank =>
      intro q hq
      rcases List.mem_cons.mp hq with rfl | hq
      · nofun
      · exact ih h q hq
    | fault f => cases h

lemma cut_of_tokenize {cs : List Char} {ls : List Lexeme} (h : tokenize cs = .ok ls) :
    Cut cs (pieces cs) ∧ ls = lexemesFrom 0 (pieces cs) := by
  rw [tokenize] at h
  cases hfaults : faultsFrom 0 (pieces cs) with
  | nil =>
    simp only [hfaults] at h
    cases h
    exact ⟨cut_of_faultless (forall_of_faultsFrom hfaults), rfl⟩
  | cons f fs =>
    simp only [hfaults] at h
    cases h

lemma map_token_lexemesFrom (ps : List Piece) (offset : Nat) :
    (lexemesFrom offset ps).map (·.token) = ps.filterMap (·.content.token?) := by
  induction ps generalizing offset with
  | nil => rfl
  | cons p ps ih =>
    obtain ⟨content, text⟩ := p
    cases content with
    | blank => simp only [lexemesFrom, ih, List.filterMap_cons, Content.token?]
    | token t => simp only [lexemesFrom, List.map_cons, ih, List.filterMap_cons, Content.token?]
    | fault f => simp only [lexemesFrom, ih, List.filterMap_cons, Content.token?]

lemma le_start_of_mem_lexemesFrom {offset : Nat} {ps : List Piece} :
    ∀ l ∈ lexemesFrom offset ps, offset ≤ l.span.start := by
  induction ps generalizing offset with
  | nil => nofun
  | cons p ps ih =>
    intro l hl
    obtain ⟨content, text⟩ := p
    cases content with
    | token t =>
      rcases List.mem_cons.mp hl with rfl | hl
      · exact Nat.le_refl _
      · exact Nat.le_trans (Nat.le_add_right _ _) (ih l hl)
    | blank | fault f => exact Nat.le_trans (Nat.le_add_right _ _) (ih l hl)

lemma Scans.tokenize {cs : List Char} {ts : List Token} (h : Scans cs ts) :
    ∃ ls, Dump.tokenize cs = .ok ls ∧ ls.map (·.token) = ts := by
  refine ⟨lexemesFrom 0 (pieces cs), ?_, ?_⟩
  · simp only [Dump.tokenize, faultsFrom_eq_nil h.faultless]
  · rw [map_token_lexemesFrom, h.tokens]

/-- The text is cut into the given tokens in front of any break. -/
def PrintsAs (cs : List Char) (ts : List Token) : Prop :=
  ∀ rest us, EndsToken rest → Scans rest us → Scans (cs ++ rest) (ts ++ us)

lemma printsAs_word {w : List Char} {t : Token} (hw : IsWord t w) : PrintsAs w [t] :=
  fun _ _ hr h => h.word hw (hr.endsBefore t)

lemma PrintsAs.open {cs : List Char} {ts : List Token} (h : PrintsAs cs ts) (m : Mark) :
    PrintsAs (m.char :: cs) (.mark m :: ts) :=
  fun rest us hr hs => (h rest us hr hs).mark m

lemma PrintsAs.close {cs : List Char} {ts : List Token} (h : PrintsAs cs ts) (m : Mark) :
    PrintsAs (cs ++ [m.char]) (ts ++ [.mark m]) := by
  intro rest us _ hs
  rw [List.append_assoc, List.append_assoc]
  exact h _ _ (endsToken_mark m rest) (hs.mark m)

lemma PrintsAs.named {name : String} {cs : List Char} {ts : List Token} (h : PrintsAs cs ts)
    (hname : IsName name) (m : Mark) :
    PrintsAs (name.toList ++ m.char :: cs) (.name name :: .mark m :: ts) := by
  intro rest us hr hs
  rw [List.append_assoc]
  exact (h.open m rest us hr hs).word (.name hname) ((endsToken_mark m _).endsBefore _)

section Separated

variable {α : Type} {f : α → List Char} {g : α → List Token}

lemma commaSeparated_cons_cons (x y : α) (xs : List α) :
    commaSeparated ((x :: y :: xs).map f) =
      f x ++ ',' :: ' ' :: commaSeparated ((y :: xs).map f) := by
  simp [commaSeparated, List.intercalate]

lemma commaTokens_cons_cons (x y : α) (xs : List α) :
    commaTokens ((x :: y :: xs).map g) = g x ++ .mark .comma :: commaTokens ((y :: xs).map g) := by
  simp [commaTokens, List.intercalate]

lemma commaSeparated_singleton (x : α) : commaSeparated ([x].map f) = f x := by
  simp [commaSeparated, List.intercalate]

lemma commaTokens_singleton (x : α) : commaTokens ([x].map g) = g x := by
  simp [commaTokens, List.intercalate]

lemma printsAs_commaSeparated {xs : List α} (h : ∀ x ∈ xs, PrintsAs (f x) (g x)) :
    PrintsAs (commaSeparated (xs.map f)) (commaTokens (xs.map g)) := by
  induction xs with
  | nil => exact fun rest us _ hs => hs
  | cons x xs ih =>
    have hx := h x List.mem_cons_self
    have hxs := ih (fun y hy => h y (List.mem_cons_of_mem _ hy))
    cases xs with
    | nil => rwa [commaSeparated_singleton, commaTokens_singleton]
    | cons y xs =>
      intro rest us hr hs
      rw [commaSeparated_cons_cons, commaTokens_cons_cons, List.append_assoc, List.append_assoc]
      have hblank : ∀ c ∈ [' '], isSeparator c = true := by simp [isSeparator]
      exact hx _ _ (endsToken_mark .comma _) (((hxs rest us hr hs).gap hblank).mark .comma)

end Separated

lemma forall_arguments {P : String → Node → Prop} {fields : List (String × Node)}
    (position : Option LineCol) (hfields : ∀ f ∈ fields, P f.1 f.2)
    (hline : ∀ n, P "lineno" (.scalar (.int n)))
    (hcolumn : ∀ n, P "col_offset" (.scalar (.int n))) :
    ∀ f ∈ Node.arguments fields position, P f.1 f.2 := by
  intro f hf
  rcases List.mem_append.mp hf with hf | hf
  · exact hfields f hf
  · cases position with
    | none => simp [positionFields] at hf
    | some p =>
      simp only [positionFields, List.map_cons, List.map_nil, List.mem_cons, List.not_mem_nil,
        or_false] at hf
      rcases hf with rfl | rfl
      · exact hline _
      · exact hcolumn _

/-- The dump of a printable tree is cut into the tokens of the tree. -/
theorem printsAs_tokens {v : Node} (h : v.IsPrintable) : PrintsAs v.printed v.tokens := by
  have hleaf (value : Scalar) (hv : value.IsPrintable) :
      PrintsAs (Node.scalar value).printed (Node.scalar value).tokens :=
    printsAs_word (isWord_token hv).1
  induction h with
  | @composite typeName fields position name fieldNames line values ih =>
    rw [Node.printed, Node.tokens, Node.printed_arguments, Node.tokens_arguments]
    have hargs := forall_arguments position
      (P := fun name v => PrintsAs (printedArgument name v.printed) (argumentTokens name v.tokens))
      (fun f hf => (ih f hf).named (fieldNames f hf).1 .equals)
      (fun n => (hleaf (.int n) trivial).named (by decide) .equals)
      (fun n => (hleaf (.int n) trivial).named (by decide) .equals)
    exact ((printsAs_commaSeparated hargs).close .closeParen).named name .openParen
  | @sequence kind items values ih =>
    have hitems := printsAs_commaSeparated ih
    cases kind with
    | list =>
      rw [Node.printed, Node.tokens, Node.printedItems_eq_map, Node.itemTokens_eq_map]
      exact (hitems.close .closeBracket).open .openBracket
    | tuple =>
      rw [Node.printed, Node.tokens, Node.printedItems_eq_map, Node.itemTokens_eq_map]
      by_cases hone : items.length = 1
      · have hclosed := (hitems.close .comma).close .closeParen
        rw [List.append_assoc, List.append_assoc] at hclosed
        rw [if_pos hone, if_pos hone]
        exact hclosed.open .openParen
      · rw [if_neg hone, if_neg hone]
        exact (hitems.close .closeParen).open .openParen
  | scalar leaf => exact hleaf _ leaf

end SyntaxLens.Dump
