import Mathlib
import SyntaxLens.Proofs.Dump.Closing
import SyntaxLens.Proofs.Dump.Cutting

/-!
# Dumps that are cut off

If what is left of the word at the cut is not torn, then the tokens before the cut are read as they
are in the dump, and the reading ends in the middle of a value. The one exception is a constant that
is left where the dump has the name of an argument, since it reads as an argument without a name.
-/

namespace SyntaxLens.Dump

open Literal

section Cuts

variable {v : Node} {p : Problem} {done later : List Lexeme} {span span' : ByteSpan}

lemma cut_between {xs ys : List Lexeme} (h : ofLexemes (xs ++ ys) = .ok v)
    (hcut : ofLexemes xs = .error p) :
    p.kind = .incompleteInput ∨ ∃ done text span span' later, (constant? text).isSome = true ∧
      xs = done ++ [⟨.name text, span⟩] ∧ ys = ⟨.mark .equals, span'⟩ :: later := by
  rcases List.eq_nil_or_concat xs with rfl | ⟨done, x, rfl⟩
  · cases hcut
    exact .inl rfl
  rw [List.concat_eq_append] at h hcut
  rw [List.append_assoc] at h
  obtain ⟨s, stop, hstate⟩ := exists_state h
  have hrun : run s stop (x :: ys) = .ok v := by rw [← hstate]; exact h
  obtain ⟨s', hstep, hys⟩ := run_cons_ok hrun
  have hfinish : finish x.span.stop s' = .error p := by
    have hlast : run s stop [x] = .error p := by rw [← hstate]; exact hcut
    rw [run, hstep] at hlast
    exact hlast
  rcases finish_error hfinish with hkind | ⟨_, _, _, _, text, span, rfl, hconstant, -⟩
  · exact .inl hkind
  · obtain rfl := (move_of_step hstep).eq_name
    obtain ⟨span', later, rfl⟩ := equals_of_run hys
    exact .inr ⟨done, text, span, span', later, hconstant, List.concat_eq_append, rfl⟩

lemma cut_name {name text : String} (h : ofLexemes (done ++ ⟨.name name, span⟩ :: later) = .ok v)
    (hcut : ofLexemes (done ++ [⟨.name text, span'⟩]) = .error p) :
    p.kind = .incompleteInput ∨ (constant? text).isSome = true ∧
      ∃ span'' later', later = ⟨.mark .equals, span''⟩ :: later' := by
  obtain ⟨s, frames, stop, s', hawaits, hstarts, hlater, hstate⟩ := exists_awaiting h nofun
  rw [hstate, run, step_name_of_awaits hawaits] at hcut
  rcases finish_error hcut with hkind | ⟨_, _, _, _, _, _, hname, hconstant, -⟩
  · exact .inl hkind
  · cases hname
    cases hstarts with
    | name ht =>
      obtain ⟨span'', later', rfl⟩ := equals_of_run hlater
      exact .inr ⟨hconstant, span'', later', rfl⟩
    | list ht | tuple ht | leaf ht hr => cases ht

lemma cut_number {kind kind' : NumberKind} {text : String} {u : List Char} (hu : IsNumber kind' u)
    (h : ofLexemes (done ++ ⟨.number kind text, span⟩ :: later) = .ok v)
    (hcut : ofLexemes (done ++ [⟨.number kind' (String.ofList u), span'⟩]) = .error p) :
    p.kind = .incompleteInput := by
  obtain ⟨s, frames, stop, s', hawaits, hstarts, -, hstate⟩ := exists_awaiting h nofun
  obtain ⟨leaf, hleaf⟩ := exists_leaf_of_isNumber hu
  cases hstarts with
  | name ht | list ht | tuple ht => cases ht
  | leaf ht hr =>
    obtain ⟨r, hsettle⟩ := exists_settle (outer_of_settle hr).2 (.scalar leaf) span'
    rw [hstate, run, step_literal_of_awaits hawaits hleaf, hsettle] at hcut
    rcases finish_error hcut with hkind | ⟨_, _, _, _, _, _, hname, -, -⟩
    · exact hkind
    · cases hname

lemma cut_letter {data : List UInt8} (h : ofLexemes (done ++ ⟨.bytes data, span⟩ :: later) = .ok v)
    (hcut : ofLexemes (done ++ [⟨.name "b", span'⟩]) = .error p) : p.kind = .incompleteInput := by
  obtain ⟨s, frames, stop, s', hawaits, -, -, hstate⟩ := exists_awaiting h nofun
  rw [hstate, run, step_name_of_awaits hawaits] at hcut
  rcases finish_error hcut with hkind | ⟨_, _, _, _, _, _, hname, hconstant, -⟩
  · exact hkind
  · cases hname
    exact absurd hconstant (by decide)

end Cuts

/-- A dump that is cut off within a word, with what is left of the word. -/
def CutsWord (dump pre u : List Char) : Prop :=
  ∃ done t rest later, pieces dump = done ++ ⟨.token t, u ++ rest⟩ :: later ∧ pre = textOf done ++ u

/-- A dump that is cut off at or in the name of an argument, so that the name of a constant is
left. -/
def EndsInConstant (dump pre : List Char) : Prop :=
  ∃ done text name span span' span'' later, (constant? text).isSome = true ∧
    tokenize pre = .ok (done ++ [⟨.name text, span⟩]) ∧
    tokenize dump = .ok (done ++ ⟨.name name, span'⟩ :: ⟨.mark .equals, span''⟩ :: later)

/-- It is reported that the dump, or a literal in it, ends too early, and nothing else. -/
def ReportIncomplete (ds : List Diagnostic) : Prop :=
  ds ≠ [] ∧ ∀ d ∈ ds, d.kind = some .unterminatedLiteral ∨ d.kind = some .incompleteInput

lemma reportIncomplete_singleton {d : Diagnostic}
    (h : d.kind = some .unterminatedLiteral ∨ d.kind = some .incompleteInput) :
    ReportIncomplete [d] :=
  ⟨List.cons_ne_nil _ _, List.forall_mem_singleton.mpr h⟩

lemma reportIncomplete_of_kind {p : Problem} (h : p.kind = .incompleteInput) :
    ReportIncomplete [p.diagnostic] :=
  reportIncomplete_singleton (.inr (congrArg some h))

section Reading

variable {dump pre : String} {v : Node} {done : List Piece} {u : List Char} {ds : List Diagnostic}
  (h : read dump = .ok v)

include h

lemma pieces_of_cut {later : List Piece} {more : List Char}
    (hpieces : pieces dump.toList = done ++ later) (hlater : textOf later = u ++ more)
    (hpre : pre.toList = textOf done ++ u) :
    pieces pre.toList = done ++ pieces u ∧ ∀ p ∈ done, ∀ f, p.content ≠ .fault f := by
  obtain ⟨ls, htokens, -⟩ := read_ok h
  obtain ⟨hcut, -⟩ := cut_of_tokenize htokens
  constructor
  · rw [hpre]
    exact hcut.pieces_eq hpieces hlater
  · intro p hp
    apply hcut.faultless
    rw [hpieces]
    exact List.mem_append_left _ hp

lemma read_of_between {later : List Piece} (hpieces : pieces dump.toList = done ++ later)
    (hpre : pre.toList = textOf done) (hconstant : ¬EndsInConstant dump.toList pre.toList)
    (hds : read pre = .error ds) : ReportIncomplete ds := by
  obtain ⟨ls, htokens, hv⟩ := read_ok h
  obtain ⟨-, rfl⟩ := cut_of_tokenize htokens
  rw [hpieces, lexemesFrom_append] at htokens hv
  have hlater : textOf later = [] ++ textOf later := rfl
  obtain ⟨hcut, hdone⟩ := pieces_of_cut h hpieces hlater (by rw [hpre, List.append_nil])
  rw [pieces] at hcut
  have hleft := tokenize_of_pieces hdone hcut rfl
  rw [lexemesFrom, List.append_nil] at hleft
  obtain ⟨p, hp, rfl⟩ := read_error hleft hds
  rcases cut_between hv hp with hkind | ⟨before, text, span, span', after, hleaf, hxs, hys⟩
  · exact reportIncomplete_of_kind hkind
  · rw [hxs] at hleft htokens
    rw [hys, List.append_assoc] at htokens
    exact absurd ⟨_, _, _, _, _, _, _, hleaf, hleft, htokens⟩ hconstant

variable {later : List Piece} {t : Token} {rest : List Char}
  (hpieces : pieces dump.toList = done ++ ⟨.token t, u ++ rest⟩ :: later)

include hpieces

lemma tokens_of_pieces :
    ∃ span ls, tokenize dump.toList = .ok (lexemesFrom 0 done ++ ⟨t, span⟩ :: ls) ∧
      ofLexemes (lexemesFrom 0 done ++ ⟨t, span⟩ :: ls) = .ok v := by
  obtain ⟨ls, htokens, hv⟩ := read_ok h
  obtain ⟨-, rfl⟩ := cut_of_tokenize htokens
  rw [hpieces, lexemesFrom_append, lexemesFrom] at htokens hv
  exact ⟨_, _, htokens, hv⟩

variable (hpre : pre.toList = textOf done ++ u)

include hpre

lemma pieces_within_word : pieces pre.toList = done ++ pieces u ∧
    ∀ p ∈ done, ∀ f, p.content ≠ .fault f :=
  pieces_of_cut h hpieces (List.append_assoc u rest (textOf later)) hpre

lemma tokenize_of_left {t' : Token} (hu : IsWord t' u) :
    ∃ span, tokenize pre.toList = .ok (lexemesFrom 0 done ++ [⟨t', span⟩]) := by
  obtain ⟨hcut, hdone⟩ := pieces_within_word h hpieces hpre
  have hword := pieces_of_isWord hu (endsToken_nil.endsBefore t')
  rw [List.append_nil, pieces] at hword
  rw [hword] at hcut
  exact ⟨_, tokenize_of_pieces hdone hcut rfl⟩

lemma read_of_fault {f : Fault} {text : List Char} {ps : List Piece}
    (hu : pieces u = ⟨.fault f, text⟩ :: ps) :
    read pre = .error (f.diagnostic (offsetAfter done 0) text ::
      faultsFrom (offsetAfter done 0 + Text.Utf8.size text) ps) := by
  obtain ⟨hcut, hdone⟩ := pieces_within_word h hpieces hpre
  rw [hu] at hcut
  rw [read, tokenize_of_faults hdone hcut rfl]
  rfl

/-- A dump that is cut off within a word, of which something is left that is not torn. -/
lemma read_of_remains (hu : Remains t u) (htorn : ∀ kind, ¬IsTorn kind u)
    (hconstant : ¬EndsInConstant dump.toList pre.toList) (hds : read pre = .error ds) :
    ReportIncomplete ds := by
  obtain ⟨span, ls, htokens, hv⟩ := tokens_of_pieces h hpieces
  cases hu with
  | @name name s hs =>
    obtain ⟨span', hleft⟩ := tokenize_of_left h hpieces hpre (.name hs)
    obtain ⟨p, hp, rfl⟩ := read_error hleft hds
    rcases cut_name hv hp with hkind | ⟨hleaf, span'', later', rfl⟩
    · exact reportIncomplete_of_kind hkind
    · exact absurd ⟨_, _, _, _, _, _, _, hleaf, hleft, htokens⟩ hconstant
  | letter =>
    obtain ⟨span', hleft⟩ := tokenize_of_left h hpieces hpre (.name (by decide))
    obtain ⟨p, hp, rfl⟩ := read_error hleft hds
    exact reportIncomplete_of_kind (cut_letter hv hp)
  | number hnumber =>
    obtain ⟨span', hleft⟩ := tokenize_of_left h hpieces hpre (.number hnumber)
    obtain ⟨p, hp, rfl⟩ := read_error hleft hds
    exact reportIncomplete_of_kind (cut_number hnumber hv hp)
  | unclosed hunclosed =>
    rw [read_of_fault h hpieces hpre (pieces_of_isUnclosed hunclosed)] at hds
    cases hds
    exact reportIncomplete_singleton (.inl rfl)
  | torn hu => exact absurd hu (htorn _)

end Reading

/-- A constant that is left of the name of an argument is taken for an argument without a name. -/
theorem read_of_endsInConstant {dump pre : String} {v : Node} (h : read dump = .ok v)
    (hend : EndsInConstant dump.toList pre.toList) :
    ∃ d, read pre = .error [d] ∧ d.kind = some .positionalArgument := by
  obtain ⟨done, text, name, span, span', span'', later, hconstant, hleft, htokens⟩ := hend
  obtain ⟨leaf, hleaf⟩ := Option.isSome_iff_exists.mp hconstant
  obtain ⟨ls, hls, hv⟩ := read_ok h
  obtain rfl := Except.ok.inj (htokens.symm.trans hls)
  obtain ⟨s, frames, stop, s', hawaits, hstarts, hlater, hstate⟩ := exists_awaiting hv nofun
  obtain rfl : s' = .name frames name span' := by
    cases hstarts with
    | name ht => cases ht; rfl
    | list ht | tuple ht | leaf ht hr => cases ht
  obtain ⟨s', hstep, -⟩ := run_cons_ok hlater
  obtain ⟨typeName, start, arguments, below, rfl⟩ := (move_of_step hstep).frames_of_equals
  have hlast : ofLexemes (done ++ [⟨.name text, span⟩]) = .error (.positional span) := by
    rw [hstate, run, step_name_of_awaits hawaits]
    simp only [run, finish, hleaf]
    rfl
  refine ⟨(Problem.positional span).diagnostic, ?_, rfl⟩
  rw [read, hleft]
  simp only [Except.bind, hlast, Except.mapError]

/-- What is reported for a dump that is cut off. A torn word is reported as no token or as an
escape that is not valid. Everything else is reported as incomplete, but for the name of a constant
that is left of the name of an argument. -/
theorem read_of_cut {dump pre : String} {v : Node} (h : read dump = .ok v)
    (hpre : pre.toList <+: dump.toList) :
    (∀ kind u, CutsWord dump.toList pre.toList u → IsTorn kind u →
      ∃ d ds, read pre = .error (d :: ds) ∧ d.kind = some kind) ∧
    ((∀ kind u, CutsWord dump.toList pre.toList u → ¬IsTorn kind u) →
      ¬EndsInConstant dump.toList pre.toList →
        ∀ ds, read pre = .error ds → ReportIncomplete ds) := by
  constructor
  · rintro kind u ⟨done, t, rest, later, hpieces, htext⟩ hu
    obtain ⟨f, text, ps, hfault, hkind⟩ := pieces_of_isTorn hu
    exact ⟨_, _, read_of_fault h hpieces htext hfault, hkind _⟩
  intro htorn hconstant ds hds
  obtain ⟨more, hmore⟩ := hpre
  obtain ⟨ls, htokens, -⟩ := read_ok h
  obtain ⟨hcut, -⟩ := cut_of_tokenize htokens
  rcases hcut.split hmore.symm with
    ⟨done, later, hpieces, htext⟩ | ⟨done, t, u, rest, later, hpieces, htext, hw, hu, hrest⟩
  · exact read_of_between h hpieces htext hconstant hds
  · have hleft := remains_of_cut hw hu hrest
    have hwhole (kind : DiagnosticKind) : ¬IsTorn kind u :=
      htorn kind u ⟨done, t, rest, later, hpieces, htext⟩
    exact read_of_remains h hpieces htext hleft hwhole hconstant hds

/-- A literal that is cut off within its escape, and in front of it. -/
theorem read_of_cut_literal :
    let dump := "'a\\x41'"
    (read dump = .ok (.scalar (.str "aA")) ∧ "'a\\x4".toList <+: dump.toList ∧
        "'a".toList <+: dump.toList) ∧
      (∃ d ds, read "'a\\x4" = .error (d :: ds) ∧ d.kind = some .invalidEscape) ∧
      ∀ ds, read "'a" = .error ds → ReportIncomplete ds := by
  intro dump
  have hread : read dump = .ok (.scalar (.str "aA")) := by cbv
  have hpieces : pieces dump.toList =
      [] ++ [⟨.token (.str "aA"), ['\'', 'a', '\\', 'x', '4', '1', '\'']⟩] := by cbv
  have hwithin : "'a\\x4".toList <+: dump.toList := by decide
  have hbefore : "'a".toList <+: dump.toList := by decide
  refine ⟨⟨hread, hwithin, hbefore⟩, ?_, ?_⟩
  · have hcut : CutsWord dump.toList "'a\\x4".toList ['\'', 'a', '\\', 'x', '4'] :=
      ⟨[], .str "aA", ['1', '\''], [], hpieces, rfl⟩
    have htorn : IsTorn .invalidEscape ['\'', 'a', '\\', 'x', '4'] :=
      .escape (.text rfl) (by decide) (.char (by decide) (by decide) (by decide) .nil)
        (show escape? .text ['x', '4'] = none by decide)
    exact (read_of_cut hread hwithin).1 _ _ hcut htorn
  · have hwhole : ∀ kind u, CutsWord dump.toList "'a".toList u → ¬IsTorn kind u := by
      rintro kind u ⟨done, t, rest, later, hdump, hpre⟩ htorn
      rw [hpieces] at hdump
      obtain rfl : done = [] := by
        cases done with
        | nil => rfl
        | cons p done => exact absurd (List.cons.inj hdump).2.symm (by simp)
      obtain rfl : ['\'', 'a'] = u := hpre
      generalize hu : ['\'', 'a'] = u at htorn
      cases htorn with
      | number hlacks =>
        obtain ⟨-, c, cs, rfl, hc⟩ := hlacks.spec
        obtain ⟨rfl, -⟩ := List.cons.inj hu
        exact absurd hc (by decide)
      | @escape kind quote opening u escaped =>
        have hmem : '\\' ∈ ['\'', 'a'] := by simp [hu]
        exact absurd hmem (by decide)
    have hconstant : ¬EndsInConstant dump.toList "'a".toList := by
      rintro ⟨done, text, name, span, span', span'', later, -, htokens, -⟩
      have hfault : (tokenize "'a".toList).toOption = none := by cbv
      rw [htokens] at hfault
      cases hfault
    exact (read_of_cut hread hbefore).2 hwhole hconstant

/-- A dump that is cut off need not be reported as incomplete. -/
theorem not_reportIncomplete_within_escape :
    ¬∀ (dump pre : String) (v : Node), read dump = .ok v → pre.toList <+: dump.toList →
      pre ≠ dump → ∀ ds, read pre = .error ds → ReportIncomplete ds := by
  intro hall
  have hread : read "'\\x41'" = .ok (.scalar (.str "A")) := by cbv
  have hcut : read "'\\x4" = .error [Fault.diagnostic 0 "'\\x".toList (.badEscape .text 1)] := by
    cbv
  have hreport := (hall _ _ _ hread (by decide) (by decide) _ hcut).2 _ List.mem_cons_self
  exact absurd hreport (by decide)

end SyntaxLens.Dump
