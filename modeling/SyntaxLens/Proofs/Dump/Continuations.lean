import SyntaxLens.Proofs.Dump.Naming

/-!
# Tokens that can be continued

Tokens that are reported as incomplete can be continued to a value, by closing the open frames from
the innermost one to the outermost.

An argument without a name is read to its end before it is refused. So the continuation is derived
in the grammar in which arguments may lack their names, and in the grammar proper exactly if no such
argument has been opened. Nothing is said of tokens that end with a name after a value, nor of lone
commas.
-/

namespace SyntaxLens.Dump

/-- The tokens after which a value or an argument may start. -/
def startingPoints : List Token :=
  [.mark .openParen, .mark .openBracket, .mark .comma, .mark .equals]

/-- The last token is a name, and it stands where none may stand. -/
def EndsInStrayName (ts : List Token) : Prop :=
  ∃ done t text, ts = done ++ [t, .name text] ∧ t ∉ startingPoints

variable {unnamed : Bool} {ts pre body : List Token} {groups : List (List Token)} {v : Node}
  {s s' : State} {r : Settled} {frame : Frame} {frames below : List Frame} {stop : Nat}
  {p : Problem}

lemma NoLoneComma.left (h : NoLoneComma (ts ++ body)) : NoLoneComma ts :=
  List.IsChain.left_of_append h

lemma NoLoneComma.concat {t : Token} (h : NoLoneComma ts) (ht : t ≠ .mark .comma) :
    NoLoneComma (ts ++ [t]) := by
  apply List.IsChain.append h (.singleton t)
  intro _ _ u hu _
  obtain rfl : t = u := by simpa using hu
  exact ht

/-- The tokens are an entry of the frame. -/
def Frame.IsEntry (unnamed : Bool) (g : List Token) : Frame → Prop
  | node _ _ _ _ => ∃ name value, g = partTokens name value ∧ Derivable unnamed value ∧
      (unnamed = true ∨ name.isSome = true)
  | sequence _ _ _ => Derivable unnamed g

lemma derivable_of_entries (hentries : ∀ g ∈ groups, frame.IsEntry unnamed g)
    (hbody : Separated false groups body) :
    Derivable unnamed (frame.opening ++ (body ++ [.mark frame.closing])) := by
  cases frame with
  | sequence kind start items =>
    cases kind with
    | list => exact .sequence .list hentries hbody
    | tuple => exact .sequence .tuple hentries hbody
  | node typeName start arguments field =>
    choose! name value heq hvalue hnamed using hentries
    have htokens : (groups.map fun g => partTokens (name g) (value g)) = groups :=
      (List.map_congr_left fun g hg => (heq g hg).symm).trans (List.map_id groups)
    exact derivable_node typeName name value hvalue hnamed (by rwa [htokens])

lemma noLoneComma_of_mem (h : Separated false groups body) (hbody : body <:+: ts)
    (hlone : NoLoneComma ts) : ∀ g ∈ groups, NoLoneComma g :=
  fun _ hg => List.IsChain.infix hlone ((h.isInfix_of_mem hg).trans hbody)

lemma noLoneComma_of_awaiting
    (hlone : NoLoneComma (pre ++ (frame.opening ++ (commaTerminated groups ++ frame.pending)))) :
    ∀ g ∈ groups, NoLoneComma g :=
  noLoneComma_of_mem (separated_commaTerminated false groups)
    ⟨pre ++ frame.opening, frame.pending, by simp only [List.append_assoc]⟩ hlone

lemma strict_argument {name : String} (h : Denotes true ts v)
    (hlone : NoLoneComma (argumentTokens name ts)) : Denotes false ts v :=
  h.strict (List.IsChain.suffix hlone (List.suffix_append [Token.name name, .mark .equals] ts))

lemma isEntry_of_holds (h : frame.Holds groups) (hlone : ∀ g ∈ groups, NoLoneComma g) :
    ∀ g ∈ groups, frame.IsEntry unnamed g := by
  cases h with
  | sequence parts hp =>
    rw [List.forall_mem_map] at hlone ⊢
    exact fun i hi => derivable_of_denotes ((hp i hi).strict (hlone i hi))
  | node parts hp hargs =>
    rw [List.forall_mem_map] at hlone ⊢
    intro a ha
    have hvalue := strict_argument (hp a ha) (hlone a ha)
    exact ⟨some a.1, a.2.1, rfl, derivable_of_denotes hvalue, .inr rfl⟩

lemma isEntry_pending (hts : Derivable unnamed ts) (h : unnamed = true ∨ frame.TakesValue) :
    frame.IsEntry unnamed (frame.pending ++ ts) := by
  cases frame with
  | sequence kind start items => exact hts
  | node typeName start arguments field =>
    cases field with
    | some name => exact ⟨some name, ts, rfl, hts, .inr rfl⟩
    | none => exact ⟨none, ts, rfl, hts, .inl (h.resolve_right Bool.false_ne_true)⟩

lemma pending_eq_nil (h : ¬frame.TakesValue) : frame.pending = [] := by
  obtain ⟨typeName, start, arguments, rfl⟩ := eq_node_of_not_takesValue h
  rfl

/-! ### Closing all frames -/

lemma Awaiting.exists_closed (hpre : Awaiting frames pre) (hlone : NoLoneComma pre)
    (hframes : ∀ frame ∈ frames, unnamed = true ∨ frame.TakesValue) (hts : Derivable unnamed ts) :
    ∃ more, Derivable unnamed (pre ++ (ts ++ more)) := by
  induction hpre generalizing ts with
  | nil => exact ⟨[], by rwa [List.append_nil]⟩
  | @cons frame below pre groups hbelow hf ih =>
    obtain ⟨hframe, hframes⟩ := List.forall_mem_cons.mp hframes
    have hgroups := noLoneComma_of_awaiting hlone
    have hentries : ∀ g ∈ groups ++ [frame.pending ++ ts], frame.IsEntry unnamed g :=
      List.forall_mem_append.mpr ⟨isEntry_of_holds hf hgroups,
        List.forall_mem_singleton.mpr (isEntry_pending hts hframe)⟩
    have hvalue := derivable_of_entries hentries (.inl rfl)
    obtain ⟨more, hmore⟩ := ih hlone.left hframes hvalue
    refine ⟨.mark frame.closing :: more, ?_⟩
    rw [commaTokens_concat] at hmore
    simpa only [List.append_assoc, List.singleton_append] using hmore

lemma Inside.exists_continuation (h : Inside frame below groups body ts)
    (hbody : Separated false groups body) (hlone : NoLoneComma ts)
    (hbelow : ∀ frame ∈ below, unnamed = true ∨ frame.TakesValue) :
    ∃ more, Derivable unnamed (ts ++ more) := by
  obtain ⟨pre, hpre, rfl⟩ := h.tokens
  have hgroups := noLoneComma_of_mem hbody
    ((List.suffix_append frame.opening body).trans (List.suffix_append pre _)).isInfix hlone
  have hentries : ∀ g ∈ groups, frame.IsEntry unnamed g := isEntry_of_holds h.holds hgroups
  have hvalue := derivable_of_entries hentries hbody
  obtain ⟨more, hmore⟩ := hpre.exists_closed hlone.left hbelow hvalue
  refine ⟨.mark frame.closing :: more, ?_⟩
  simpa only [List.append_assoc, List.singleton_append] using hmore

/-- The frames around the innermost one take a value, if arguments have to be named. -/
def State.Closable (unnamed : Bool) (s : State) : Prop :=
  ∀ frame ∈ s.outer, unnamed = true ∨ frame.TakesValue

lemma Awaiting.exists_continuation (h : Awaiting frames ts) (hlone : NoLoneComma ts)
    (hframes : ∀ frame ∈ frames.tail, unnamed = true ∨ frame.TakesValue) :
    ∃ more, Derivable unnamed (ts ++ more) := by
  have hleaf : Derivable unnamed [.name "None"] := .leaf rfl
  cases h with
  | nil => exact ⟨_, hleaf⟩
  | @cons frame below pre groups hbelow hf =>
    by_cases htakes : frame.TakesValue
    · obtain ⟨more, hmore⟩ := (Awaiting.cons hbelow hf).exists_closed hlone
        (List.forall_mem_cons.mpr ⟨.inr htakes, hframes⟩) hleaf
      exact ⟨_, hmore⟩
    · have hpending := pending_eq_nil htakes
      have hinside : Inside frame below groups (commaTerminated groups)
          (pre ++ (frame.opening ++ (commaTerminated groups ++ frame.pending))) := by
        rw [hpending, List.append_nil]
        exact ⟨hf, hpending, pre, hbelow, rfl⟩
      exact hinside.exists_continuation (separated_commaTerminated false groups) hlone hframes

/-- A name is the type of a node or, where an argument of a node has to start, its name. -/
lemma exists_continuation_of_name {text : String} {span : ByteSpan}
    (h : (State.name frames text span).Explains ts) (hlone : NoLoneComma ts)
    (hframes : (State.name frames text span).Closable unnamed) :
    ∃ more, Derivable unnamed (ts ++ more) := by
  by_cases htakes : ∀ frame ∈ frames, unnamed = true ∨ frame.TakesValue
  · obtain ⟨pre, hpre, rfl⟩ := h
    have hnode : Derivable unnamed [.name text, .mark .openParen, .mark .closeParen] :=
      .node text (List.forall_mem_nil _) (List.forall_mem_nil _) (.inl rfl)
    obtain ⟨more, hmore⟩ := hpre.exists_closed hlone.left htakes hnode
    exact ⟨_, by rwa [List.append_assoc]⟩
  · cases frames with
    | nil => exact absurd (List.forall_mem_nil _) htakes
    | cons frame below =>
      have hframe : ¬frame.TakesValue :=
        fun h => htakes (List.forall_mem_cons.mpr ⟨.inr h, hframes⟩)
      obtain ⟨typeName, start, arguments, rfl⟩ := eq_node_of_not_takesValue hframe
      have hmove := (Move.field (t := ⟨.mark .equals, .point 0⟩) rfl).explains h
      obtain ⟨more, hmore⟩ := Awaiting.exists_continuation hmove (hlone.concat (by decide)) hframes
      exact ⟨_, by rwa [List.append_assoc] at hmore⟩

lemma Frame.opening_eq_concat (frame : Frame) : ∃ done t, frame.opening = done ++ [t] ∧
    t ∈ openings := by
  cases frame with
  | node typeName start arguments field =>
    exact ⟨[.name typeName], .mark .openParen, rfl, by decide⟩
  | sequence kind start items => exact ⟨[], .mark (openingOf kind), rfl, by cases kind <;> decide⟩

lemma not_noLoneComma_of_closing (h : (State.closing frame below).Explains ts) :
    ¬NoLoneComma ts := by
  intro hlone
  obtain ⟨pre, -, rfl⟩ := h.tokens
  obtain ⟨done, t, hopening, ht⟩ := frame.opening_eq_concat
  rw [hopening, List.append_assoc, ← List.append_assoc] at hlone
  have hlast : NoLoneComma [t, .mark .comma] := List.IsChain.suffix hlone (List.suffix_append _ _)
  exact (List.isChain_cons_cons.mp hlast).1 ht rfl

lemma State.Explains.exists_continuation (h : s.Explains ts) (hlone : NoLoneComma ts)
    (hfinish : finish stop s = .error p) (hs : s.Closable unnamed) :
    ∃ more, Derivable unnamed (ts ++ more) := by
  cases s with
  | value frames => exact Awaiting.exists_continuation h hlone hs
  | item frame below isFirst =>
    obtain ⟨groups, -, hinside⟩ := h
    exact hinside.exists_continuation (separated_commaTerminated false groups) hlone hs
  | closing frame below => exact absurd hlone (not_noLoneComma_of_closing h)
  | settled r =>
    cases r with
    | whole v => cases hfinish
    | inside frame below =>
      obtain ⟨groups, -, hinside⟩ := h
      exact hinside.exists_continuation (.inl rfl) hlone hs
  | name frames text span => exact exists_continuation_of_name h hlone hs

lemma Frame.isOpening_opening (frame : Frame) : IsOpening frame.opening := by
  cases frame with
  | node typeName start arguments field => exact .inr ⟨typeName, rfl⟩
  | sequence kind start items => exact .inl ⟨kind, rfl⟩

lemma named_of_holds (h : frame.Holds groups) (hlone : ∀ g ∈ groups, NoLoneComma g)
    (hframe : ¬frame.TakesValue) :
    ∀ g ∈ groups, ∃ name value v, g = argumentTokens name value ∧ Denotes false value v := by
  cases h with
  | sequence parts hp => exact absurd trivial hframe
  | node parts hp hargs =>
    rw [List.forall_mem_map] at hlone ⊢
    exact fun a ha => ⟨a.1, a.2.1, a.2.2, rfl, strict_argument (hp a ha) (hlone a ha)⟩

/-- A frame around a value that has been opened takes it, unless the value is an argument without a
name. -/
lemma Awaiting.hasUnnamedArgument (h : Awaiting frames pre) (hlone : NoLoneComma pre)
    (hmem : frame ∈ frames) (hframe : ¬frame.TakesValue) {inner : List Token}
    (hinner : IsOpening inner) (after : List Token) :
    HasUnnamedArgument (pre ++ (inner ++ after)) := by
  induction h generalizing inner after with
  | nil => exact absurd hmem List.not_mem_nil
  | @cons frame' below pre groups hbelow hf ih =>
    rcases List.mem_cons.mp hmem with rfl | hmem
    · have hnamed := named_of_holds hf (noLoneComma_of_awaiting hlone) hframe
      obtain ⟨typeName, start, arguments, rfl⟩ := eq_node_of_not_takesValue hframe
      refine ⟨pre, typeName, groups, inner, after, ?_, hnamed, hinner⟩
      simp only [Frame.opening, Frame.pending, List.append_assoc, List.cons_append,
        List.nil_append]
    · have hunnamed := ih hlone.left hmem frame'.isOpening_opening
        (commaTerminated groups ++ frame'.pending ++ (inner ++ after))
      simpa only [List.append_assoc] using hunnamed

lemma Inside.hasUnnamedArgument {frame' : Frame} (h : Inside frame' below groups body ts)
    (hlone : NoLoneComma ts) (hmem : frame ∈ below) (hframe : ¬frame.TakesValue) :
    HasUnnamedArgument ts := by
  obtain ⟨pre, hpre, rfl⟩ := h.tokens
  exact hpre.hasUnnamedArgument hlone.left hmem hframe frame'.isOpening_opening body

lemma hasUnnamedArgument_of_tail (h : Awaiting frames ts) (hlone : NoLoneComma ts)
    (hmem : frame ∈ frames.tail) (hframe : ¬frame.TakesValue) : HasUnnamedArgument ts := by
  cases h with
  | nil => exact absurd hmem List.not_mem_nil
  | cons hbelow hf =>
    exact hbelow.hasUnnamedArgument hlone.left hmem hframe (Frame.isOpening_opening _) _

lemma State.Explains.hasUnnamedArgument (h : s.Explains ts) (hlone : NoLoneComma ts)
    (hs : ¬s.Closable false) : HasUnnamedArgument ts := by
  rw [State.Closable] at hs
  push Not at hs
  obtain ⟨frame, hmem, -, hframe⟩ := hs
  cases s with
  | value frames => exact hasUnnamedArgument_of_tail h hlone hmem hframe
  | item frame' below isFirst =>
    obtain ⟨groups, -, hinside⟩ := h
    exact hinside.hasUnnamedArgument hlone hmem hframe
  | closing frame' below => exact Inside.hasUnnamedArgument h hlone hmem hframe
  | settled r =>
    cases r with
    | whole v => exact absurd hmem List.not_mem_nil
    | inside frame' below =>
      obtain ⟨groups, -, hinside⟩ := h
      exact hinside.hasUnnamedArgument hlone hmem hframe
  | name frames text span =>
    obtain ⟨pre, hpre, rfl⟩ := h
    exact (hasUnnamedArgument_of_tail hpre hlone.left hmem hframe).append [.name text]

/-! ### What is reported as incomplete -/

lemma exists_last_of_denotes {lone : Bool} (h : Denotes lone ts v) :
    ∃ done t, ts = done ++ [t] ∧ t ∉ startingPoints := by
  cases h with
  | @leaf t value ht =>
    refine ⟨[], t, rfl, ?_⟩
    cases t with
    | mark m => cases ht
    | _ => simp [startingPoints]
  | @sequence kind items ts hi hts =>
    exact ⟨.mark (openingOf kind) :: ts, _, rfl, by cases kind <;> decide⟩
  | @node typeName arguments ts ha hts =>
    exact ⟨.name typeName :: .mark .openParen :: ts, _, rfl, by decide⟩

lemma Frame.Holds.exists_last (h : frame.Holds groups) {g : List Token} (hg : g ∈ groups) :
    ∃ done t, g = done ++ [t] ∧ t ∉ startingPoints := by
  cases h with
  | sequence parts hp =>
    obtain ⟨i, hi, rfl⟩ := List.mem_map.mp hg
    exact exists_last_of_denotes (hp i hi)
  | node parts hp hargs =>
    obtain ⟨a, ha, rfl⟩ := List.mem_map.mp hg
    obtain ⟨done, t, hvalue, ht⟩ := exists_last_of_denotes (hp a ha)
    exact ⟨argumentTokens a.1 done, t, by rw [hvalue]; rfl, ht⟩

lemma State.Explains.exists_last (h : s.Explains ts) (hlone : NoLoneComma ts) (hs : s.Finished) :
    ∃ done t, ts = done ++ [t] ∧ t ∉ startingPoints := by
  cases s with
  | value frames => exact hs.elim
  | item frame below isFirst => exact hs.elim
  | closing frame below => exact absurd hlone (not_noLoneComma_of_closing h)
  | settled r =>
    cases r with
    | whole v => exact exists_last_of_denotes h
    | inside frame below =>
      obtain ⟨groups, hne, hinside⟩ := h
      obtain ⟨pre, -, rfl⟩ := hinside.tokens
      obtain ⟨init, g, rfl⟩ := (List.eq_nil_or_concat' groups).resolve_left hne
      obtain ⟨done, t, rfl, ht⟩ := hinside.holds.exists_last (List.mem_concat_self)
      refine ⟨pre ++ (frame.opening ++ (commaTerminated init ++ done)), t, ?_, ht⟩
      rw [commaTokens_concat]
      simp only [List.append_assoc]
  | name frames text span =>
    obtain ⟨pre, -, rfl⟩ := h
    exact ⟨pre, .name text, rfl, by simp [startingPoints]⟩

lemma cases_of_incomplete {ls : List Lexeme} (hs : s.Explains ts)
    (h : run s stop ls = .error p) (hp : p.kind = .incompleteInput) :
    (∃ s' stop', s'.Explains (ts ++ ls.map (·.token)) ∧ finish stop' s' = .error p) ∨
      ∃ (s' : State) (us : List Token) (text : String), s'.Explains us ∧ s'.Finished ∧
        ts ++ ls.map (·.token) = us ++ [.name text] := by
  induction ls generalizing s stop ts with
  | nil => exact .inl ⟨s, stop, by rwa [List.map_nil, List.append_nil], h⟩
  | cons l ls ih =>
    rw [run] at h
    cases hstep : step s l with
    | ok s' =>
      rw [hstep] at h
      have hrest := ih ((move_of_step hstep).explains hs) h
      rwa [List.append_assoc] at hrest
    | error e =>
      rw [hstep] at h
      obtain rfl := Except.error.inj h
      cases refuses_of_step hstep with
      | problem hproblem => exact absurd hp hproblem
      | before name expected => cases hp
      | here expected hfinished =>
        simp only [Stop.toProblem] at hp
        split at hp
        case h_2 => cases hp
        case h_1 text hname hlast =>
          obtain rfl := List.isEmpty_iff.mp hlast
          refine .inr ⟨s, ts, text, hs, hfinished text hname, ?_⟩
          rw [List.map_singleton, hname]

/-- Tokens that are reported as incomplete can be continued to a value, and to one of the grammar
proper exactly if no argument without a name has been opened. -/
theorem exists_continuation_of_incomplete {ls : List Lexeme} (h : ofLexemes ls = .error p)
    (hp : p.kind = .incompleteInput) (hlone : NoLoneComma (ls.map (·.token)))
    (hstray : ¬EndsInStrayName (ls.map (·.token))) :
    (∃ more, Derivable true (ls.map (·.token) ++ more)) ∧
      ((∃ more v, Denotes false (ls.map (·.token) ++ more) v) ↔
        ¬HasUnnamedArgument (ls.map (·.token))) := by
  have hstart : (State.value []).Explains [] := Awaiting.nil
  rcases cases_of_incomplete hstart h hp with
    ⟨s, stop, hs, hfinish⟩ | ⟨s, us, text, hs, hfinished, hls⟩
  · rw [List.nil_append] at hs
    refine ⟨hs.exists_continuation hlone hfinish fun _ _ => .inl rfl, ?_, ?_⟩
    · rintro ⟨more, v, hderived⟩ hunnamed
      exact not_hasUnnamedArgument_of_denotes hderived (hunnamed.append more)
    · intro hnamed
      have hclosable : s.Closable false := by
        by_contra hopen
        exact hnamed (hs.hasUnnamedArgument hlone hopen)
      obtain ⟨more, hmore⟩ := hs.exists_continuation hlone hfinish hclosable
      exact ⟨more, exists_denotes_of_derivable hmore⟩
  · rw [List.nil_append] at hls
    have hus : NoLoneComma us := by
      rw [hls] at hlone
      exact hlone.left
    obtain ⟨done, t, rfl, ht⟩ := hs.exists_last hus hfinished
    exact absurd ⟨done, t, text, by rw [hls, List.append_assoc]; rfl, ht⟩ hstray

/-- The tokens of `A(B(`. -/
theorem exists_continuation_of_incomplete_call :
    let ls : List Lexeme := [⟨.name "A", ⟨0, 1⟩⟩, ⟨.mark .openParen, ⟨1, 2⟩⟩, ⟨.name "B", ⟨2, 3⟩⟩,
      ⟨.mark .openParen, ⟨3, 4⟩⟩]
    let p : Problem := .incomplete 4 [.value, .nodeFields, .value, .nodeFields]
    ofLexemes ls = .error p ∧ p.kind = .incompleteInput ∧ NoLoneComma (ls.map (·.token)) ∧
      ¬EndsInStrayName (ls.map (·.token)) ∧
      (∃ more, Derivable true (ls.map (·.token) ++ more)) ∧
      ¬∃ more v, Denotes false (ls.map (·.token) ++ more) v := by
  intro ls p
  have hlone : NoLoneComma (ls.map (·.token)) := by decide
  have hstray : ¬EndsInStrayName (ls.map (·.token)) := by
    rintro ⟨done, t, text, hts, -⟩
    have hlast : some (Token.mark .openParen) = (done ++ [t, .name text]).getLast? :=
      congrArg List.getLast? hts
    simp at hlast
  have hunnamed : HasUnnamedArgument (ls.map (·.token)) :=
    ⟨[], "A", [], [.name "B", .mark .openParen], [], rfl, List.forall_mem_nil _, .inr ⟨"B", rfl⟩⟩
  have hread : ofLexemes ls = .error p := rfl
  have hkind : p.kind = .incompleteInput := rfl
  obtain ⟨hloose, hproper⟩ := exists_continuation_of_incomplete hread hkind hlone hstray
  exact ⟨hread, hkind, hlone, hstray, hloose, fun h => hproper.mp h hunnamed⟩

/-- No value starts with the tokens of `A([` or of `Pass() Pass`, which are reported as
incomplete. -/
theorem not_denotes_of_incomplete :
    let opened : List Token := [.name "A", .mark .openParen, .mark .openBracket]
    let followed : List Token :=
      [.name "Pass", .mark .openParen, .mark .closeParen, .name "Pass"]
    (∃ p, ofLexemes (opened.map fun t => ⟨t, .point 0⟩) = .error p ∧ p.kind = .incompleteInput) ∧
    (∀ more v, ¬Denotes false (opened ++ more) v) ∧
    (∃ p, ofLexemes (followed.map fun t => ⟨t, .point 0⟩) = .error p ∧
      p.kind = .incompleteInput) ∧
    ∀ more v, ¬Denotes false (followed ++ more) v := by
  intro opened followed
  refine ⟨⟨_, rfl, rfl⟩, ?_, ⟨_, rfl, rfl⟩, ?_⟩
  · intro more v h
    exact not_hasUnnamedArgument_of_denotes h
      ⟨[], "A", [], [.mark .openBracket], more, rfl, List.forall_mem_nil _, .inl ⟨.list, rfl⟩⟩
  · intro more v h
    -- the last of these tokens is refused, but not for a line or a column
    let ls : List Lexeme := (followed ++ more).map fun t => ⟨t, .point 0⟩
    have hread : ∃ p, ofLexemes ls = .error p ∧ p.kind ≠ .invalidPosition := by
      cases more with
      | nil => exact ⟨_, rfl, nofun⟩
      | cons t more => exact ⟨_, rfl, nofun⟩
    obtain ⟨p, hp, hkind⟩ := hread
    obtain ⟨arguments, hderived⟩ := exists_derived h
    have htokens : ls.map (·.token) = followed ++ more := by
      rw [List.map_map]
      exact List.map_id _
    rw [← htokens] at hderived
    obtain ⟨hok, hbad⟩ := ofLexemes_of_derived hderived
    by_cases hplaced : AllPlaced arguments
    · rw [hok hplaced] at hp
      cases hp
    · obtain ⟨span, hint, hposition⟩ := hbad hplaced
      rw [hposition] at hp
      cases hp
      exact hkind rfl

end SyntaxLens.Dump
