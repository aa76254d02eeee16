import Mathlib
import SyntaxLens.Proofs.Dump.Blame
import SyntaxLens.Proofs.Dump.Erasure
import SyntaxLens.Proofs.Dump.Faults

/-!
# The text of a value

Tokens in the middle of those of a text are the tokens of a part of the text, which is cut in the
same way by itself. So the text under the label of an argument that is refused is the dump of a
value, and the text before it ends where the argument starts.
-/

namespace SyntaxLens.Dump

/-- The range is that of a part of the text. -/
def IsPart (cs : List Char) (span : ByteSpan) : Prop :=
  ∃ before word after, cs = before ++ (word ++ after) ∧
    span = ⟨Text.Utf8.size before, Text.Utf8.size (before ++ word)⟩

variable {cs : List Char} {ps : List Piece} {ls xs ys before vs after : List Lexeme} {l : Lexeme}
  {offset : Nat} {span : ByteSpan} {p : Problem} {v : Node} {ds : List Diagnostic} {d : Diagnostic}

lemma lexemesFrom_eq_append_cons (h : lexemesFrom offset ps = xs ++ l :: ys) :
    ∃ done w later, ps = done ++ ⟨.token l.token, w⟩ :: later ∧ lexemesFrom offset done = xs ∧
      l.span = ⟨offsetAfter done offset, offsetAfter done offset + Text.Utf8.size w⟩ := by
  induction ps generalizing offset xs with
  | nil => simp [lexemesFrom] at h
  | cons p ps ih =>
    obtain ⟨content, text⟩ := p
    cases content with
    | blank | fault f =>
      obtain ⟨done, w, later, rfl, rfl, hspan⟩ := ih h
      rw [← offsetAfter_cons ⟨_, text⟩] at hspan
      exact ⟨_ :: done, w, later, rfl, rfl, hspan⟩
    | token t =>
      cases xs with
      | nil =>
        obtain ⟨rfl, -⟩ := List.cons.inj h
        exact ⟨[], text, ps, rfl, rfl, rfl⟩
      | cons x xs =>
        obtain ⟨rfl, hrest⟩ := List.cons.inj h
        obtain ⟨done, w, later, rfl, rfl, hspan⟩ := ih hrest
        rw [← offsetAfter_cons ⟨_, text⟩] at hspan
        exact ⟨_ :: done, w, later, rfl, rfl, hspan⟩

lemma Cut.drop {done later : List Piece} (h : Cut cs (done ++ later)) :
    Cut (textOf later) later := by
  induction done generalizing cs with
  | nil =>
    rw [List.nil_append] at h
    rw [h.textOf_eq]
    exact h
  | cons p done ih =>
    cases h with
    | gap hc h => exact ih h
    | word hw hr h => exact ih h

lemma Cut.tokenize_take {done later : List Piece} (h : Cut cs (done ++ later)) :
    tokenize (textOf done) = .ok (lexemesFrom 0 done) := by
  have hpieces : pieces (textOf done) = done ++ [] := by
    have hlater : textOf later = [] ++ textOf later := rfl
    have hcut := h.pieces_eq rfl hlater
    rwa [List.append_nil, pieces] at hcut
  have hdone : ∀ p ∈ done, ∀ f, p.content ≠ .fault f :=
    fun p hp => h.faultless p (List.mem_append_left _ hp)
  rw [tokenize_of_pieces hdone hpieces rfl, lexemesFrom, List.append_nil]

/-- Tokens in the middle of those of a text are the tokens of a part of the text. -/
theorem exists_excerpt (h : tokenize cs = .ok (before ++ (vs ++ after))) (hvs : vs ≠ []) :
    ∃ pre word post, cs = pre ++ (word ++ post) ∧
      spanOf vs = ⟨Text.Utf8.size pre, Text.Utf8.size (pre ++ word)⟩ ∧
      tokenize pre = .ok before ∧
      ∃ ls, tokenize word = .ok ls ∧ ls.map (·.token) = vs.map (·.token) := by
  obtain ⟨hcut, hls⟩ := cut_of_tokenize h
  -- the part starts with the piece of the first token and ends with that of the last one
  obtain ⟨first, rest, hfirst⟩ := List.exists_cons_of_ne_nil hvs
  obtain ⟨init, last, hlast⟩ := (List.eq_nil_or_concat' vs).resolve_left hvs
  have hsplit : lexemesFrom 0 (pieces cs) = before ++ first :: (rest ++ after) := by
    rw [← hls, hfirst, List.cons_append]
  obtain ⟨done, w, later, hpieces, hbefore, hstart⟩ := lexemesFrom_eq_append_cons hsplit
  have hmiddle : lexemesFrom (offsetAfter done 0) (⟨.token first.token, w⟩ :: later) =
      init ++ last :: after := by
    rw [hpieces, lexemesFrom_append, hbefore] at hls
    rw [← List.append_cancel_left hls, hlast, List.append_assoc]
    rfl
  obtain ⟨mid, w', post, hmid, hinit, hstop⟩ := lexemesFrom_eq_append_cons hmiddle
  have hword : ⟨.token first.token, w⟩ :: later = (mid ++ [⟨.token last.token, w'⟩]) ++ post := by
    rw [hmid, List.append_assoc]
    rfl
  rw [hpieces] at hcut
  have hcut' := hcut.drop
  rw [hword] at hcut'
  refine ⟨textOf done, textOf (mid ++ [⟨.token last.token, w'⟩]), textOf post, ?_, ?_, ?_,
    _, hcut'.tokenize_take, ?_⟩
  · rw [← hcut.textOf_eq, hword, textOf_append, textOf_append]
  · have hhead : vs.head?.map (·.span.start) = some (Text.Utf8.size (textOf done)) := by
      rw [hfirst, List.head?_cons, Option.map_some, hstart, offsetAfter, Nat.zero_add]
    have hend : stopOf vs =
        Text.Utf8.size (textOf done ++ textOf (mid ++ [⟨.token last.token, w'⟩])) := by
      rw [hlast, stopOf, List.getLast?_concat, Option.map_some, hstop]
      simp [offsetAfter, textOf, Nat.add_assoc]
    rw [spanOf, hhead, hend]
    rfl
  · rw [← hbefore]
    exact hcut.tokenize_take
  · have htokens : lexemesFrom (offsetAfter done 0) (mid ++ [⟨.token last.token, w'⟩]) = vs := by
      rw [lexemesFrom_append, hinit, hlast]
      simp only [lexemesFrom, ← hstop]
    rw [map_token_lexemesFrom, ← map_token_lexemesFrom _ (offsetAfter done 0), htokens]

lemma isPart_of_tokenize (h : tokenize cs = .ok (before ++ (vs ++ after))) (hvs : vs ≠ []) :
    IsPart cs (spanOf vs) := by
  obtain ⟨pre, word, post, hcs, hspan, -⟩ := exists_excerpt h hvs
  exact ⟨pre, word, post, hcs, hspan⟩

lemma HasArgument.isPart {name : Option String} (h : HasArgument name v span ls)
    (hls : tokenize cs = .ok ls) : IsPart cs span := by
  obtain ⟨before, vs, after, rfl, -, hvs⟩ := h
  rw [← hvs.span]
  exact isPart_of_tokenize hls hvs.nonempty

theorem isPart_of_ofLexemes (hls : tokenize cs = .ok ls) (hp : ofLexemes ls = .error p) :
    IsPart cs p.span := by
  cases pointsAt_of_ofLexemes hp with
  | @unexpected found expected hfound =>
    obtain ⟨before, after, rfl⟩ := List.append_of_mem hfound
    have hsplit : tokenize cs = .ok (before ++ ([found] ++ after)) := hls
    exact isPart_of_tokenize hsplit (List.cons_ne_nil _ _)
  | @incomplete expected =>
    rcases List.eq_nil_or_concat' ls with rfl | ⟨init, last, rfl⟩
    · exact ⟨[], [], cs, rfl, rfl⟩
    · have hsplit : tokenize cs = .ok (init ++ ([last] ++ [])) := by
        rwa [List.append_nil]
      obtain ⟨pre, word, post, hcs, hspan⟩ := isPart_of_tokenize hsplit (List.cons_ne_nil _ _)
      have hstop : stopOf (init ++ [last]) = Text.Utf8.size (pre ++ word) := by
        rw [stopOf, List.getLast?_concat]
        exact congrArg ByteSpan.stop hspan
      refine ⟨pre ++ word, [], post, by rw [hcs, List.append_assoc]; rfl, ?_⟩
      rw [Problem.span, hstop, List.append_nil]
      rfl
  | positional h => exact h.isPart hls
  | badPosition h hv => exact h.isPart hls

lemma read_of_tokens {word : List Char} (hls : tokenize word = .ok ls)
    (htokens : ls.map (·.token) = vs.map (·.token)) (hv : ofLexemes vs = .ok v) :
    read (String.ofList word) = .ok v := by
  have herase := ofLexemes_erase_congr htokens
  rw [hv] at herase
  cases hread : ofLexemes ls with
  | error p =>
    rw [hread] at herase
    cases herase
  | ok v' =>
    rw [hread] at herase
    cases herase
    rw [read, String.toList_ofList, hls]
    simp only [Except.bind, hread, Except.mapError]

lemma HasArgument.exists_word {name : Option String} {dump : String}
    (h : HasArgument name v span ls) (hls : tokenize dump.toList = .ok ls) :
    ∃ before word after ls', dump = before ++ word ++ after ∧
      span = ⟨before.utf8ByteSize, (before ++ word).utf8ByteSize⟩ ∧ read word = .ok v ∧
      tokenize before.toList = .ok ls' ∧ AtArgument name (ls'.map (·.token)) := by
  obtain ⟨before, vs, after, rfl, hplace, hvs⟩ := h
  obtain ⟨pre, word, post, hdump, hspan, hbefore, ls, hword, htokens⟩ :=
    exists_excerpt hls hvs.nonempty
  obtain ⟨hparts, hstart, hstop⟩ := eq_append_of_toList hdump
  refine ⟨String.ofList pre, String.ofList word, String.ofList post, before, hparts, ?_,
    read_of_tokens hword htokens hvs.value, ?_, hplace⟩
  · rw [← hvs.span, hspan, hstart, hstop]
  · rwa [String.toList_ofList]

/-- A dump is refused for the faults of its text or for the problem of its tokens. -/
lemma read_error_cases {dump : String} (h : read dump = .error ds) :
    (ds ≠ [] ∧ ds = faultsFrom 0 (pieces dump.toList)) ∨
      ∃ ls p, tokenize dump.toList = .ok ls ∧ ofLexemes ls = .error p ∧ ds = [p.diagnostic] := by
  cases hls : tokenize dump.toList with
  | ok ls =>
    obtain ⟨p, hp, hds⟩ := read_error hls h
    exact .inr ⟨ls, p, rfl, hp, hds⟩
  | error faults =>
    rw [read, hls] at h
    cases h
    rw [tokenize] at hls
    cases hfaults : faultsFrom 0 (pieces dump.toList) with
    | nil =>
      simp only [hfaults] at hls
      cases hls
    | cons f fs =>
      simp only [hfaults] at hls
      cases hls
      exact .inl ⟨List.cons_ne_nil _ _, rfl⟩

/-- A dump that is refused for an argument without a name, or for a line or a column, has a value
under the label. The value is that of the argument, and no line or column. -/
theorem exists_value_under_label {dump : String} (h : read dump = .error ds) (hd : d ∈ ds)
    (hkind : d.kind = some .positionalArgument ∨ d.kind = some .invalidPosition) :
    ∃ before word after ls v, dump = before ++ word ++ after ∧
      d.primarySpan? = some ⟨before.utf8ByteSize, (before ++ word).utf8ByteSize⟩ ∧
      read word = .ok v ∧ tokenize before.toList = .ok ls ∧
      (d.kind = some .positionalArgument → AtArgument none (ls.map (·.token))) ∧
      (d.kind = some .invalidPosition → ∃ part : PositionPart,
        AtArgument (some part.attribute) (ls.map (·.token)) ∧ ¬part.Takes v) := by
  rcases read_error_cases h with ⟨-, rfl⟩ | ⟨ls, p, hls, hp, rfl⟩
  · obtain ⟨kind, span, hmarks, hlexical, -⟩ := marks_of_mem_faultsFrom hd
    have hcode := hmarks.code
    rw [hlexical] at hkind
    rcases hkind with hkind | hkind <;> cases hkind <;> exact absurd hcode (by decide)
  · obtain rfl := List.mem_singleton.mp hd
    cases pointsAt_of_ofLexemes hp with
    | unexpected hfound | incomplete => rcases hkind with hkind | hkind <;> cases hkind
    | positional hargument =>
      obtain ⟨before, word, after, ls', hdump, rfl, hword, hbefore, hplace⟩ :=
        hargument.exists_word hls
      exact ⟨before, word, after, ls', _, hdump, rfl, hword, hbefore, fun _ => hplace, nofun⟩
    | @badPosition part v span hint hargument hv =>
      obtain ⟨before, word, after, ls', hdump, rfl, hword, hbefore, hplace⟩ :=
        hargument.exists_word hls
      exact ⟨before, word, after, ls', _, hdump, rfl, hword, hbefore, nofun,
        fun _ => ⟨part, hplace, hv⟩⟩

/-- The value of the line in `A(s='é',lineno=[0])`. -/
theorem exists_value_under_label_line :
    let dump := "A(s='é',lineno=[0])"
    let d := (Problem.badPosition ⟨16, 19⟩ (some .line)).diagnostic
    (read dump = .error [d] ∧ d ∈ [d] ∧
        (d.kind = some .positionalArgument ∨ d.kind = some .invalidPosition)) ∧
      ∃ before word after v, dump = before ++ word ++ after ∧
        ByteSpan.mk 16 19 = ⟨before.utf8ByteSize, (before ++ word).utf8ByteSize⟩ ∧
        read word = .ok v := by
  intro dump d
  let ls : List Lexeme := [⟨.name "A", ⟨0, 1⟩⟩, ⟨.mark .openParen, ⟨1, 2⟩⟩, ⟨.name "s", ⟨2, 3⟩⟩,
    ⟨.mark .equals, ⟨3, 4⟩⟩, ⟨.str "é", ⟨4, 8⟩⟩, ⟨.mark .comma, ⟨8, 9⟩⟩, ⟨.name "lineno", ⟨9, 15⟩⟩,
    ⟨.mark .equals, ⟨15, 16⟩⟩, ⟨.mark .openBracket, ⟨16, 17⟩⟩, ⟨.number .int "0", ⟨17, 18⟩⟩,
    ⟨.mark .closeBracket, ⟨18, 19⟩⟩, ⟨.mark .closeParen, ⟨19, 20⟩⟩]
  have htokens : tokenize dump.toList = .ok ls := by cbv
  have hproblem : ofLexemes ls = .error (.badPosition ⟨16, 19⟩ (some .line)) := by rfl
  have hread : read dump = .error [d] := by
    simp only [read, htokens, Except.bind, hproblem, Except.mapError, d]
  have hmem : d ∈ [d] := List.mem_singleton_self d
  have hkind : d.kind = some .positionalArgument ∨ d.kind = some .invalidPosition := .inr rfl
  obtain ⟨before, word, after, _, v, hdump, hspan, hword, -⟩ :=
    exists_value_under_label hread hmem hkind
  exact ⟨⟨hread, hmem, hkind⟩, before, word, after, v, hdump, Option.some.inj hspan, hword⟩

end SyntaxLens.Dump
