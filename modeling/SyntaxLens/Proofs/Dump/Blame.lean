import SyntaxLens.Proofs.Dump.Locality

/-!
# What a problem points at

A token that does not fit is one of the tokens, and what is incomplete ends with the last of them.
An argument that is refused, since it has no name or since it is no line or column, is read as a
value by itself, and it stands after the opening mark and the arguments before it of a node.
-/

namespace SyntaxLens.Dump

/-- The tokens lead to the value of an argument of a node. -/
def AtArgument (name : Option String) (ts : List Token) : Prop :=
  ∃ pre typeName, ∃ parts : List (String × List Token × Node),
    (∀ a ∈ parts, Denotes true a.2.1 a.2.2) ∧
    ts = pre ++ .name typeName :: .mark .openParen ::
      (commaTerminated (parts.map fun a => argumentTokens a.1 a.2.1) ++
        name.elim [] (argumentTokens · []))

/-- There are tokens that are read as the value of an argument, and they take up the bytes. -/
def HasArgument (name : Option String) (v : Node) (span : ByteSpan) (ls : List Lexeme) : Prop :=
  ∃ before vs after, ls = before ++ (vs ++ after) ∧ AtArgument name (before.map (·.token)) ∧
    ReadAs vs v span

/-- What in the tokens a problem is about. -/
inductive PointsAt (ls : List Lexeme) : Problem → Prop
  | unexpected {found : Lexeme} {expected : List Expectation} (h : found ∈ ls) :
    PointsAt ls (.unexpected found expected)
  | incomplete {expected : List Expectation} : PointsAt ls (.incomplete (stopOf ls) expected)
  | positional {v : Node} {span : ByteSpan} (h : HasArgument none v span ls) :
    PointsAt ls (.positional span)
  | badPosition {part : PositionPart} {v : Node} {span : ByteSpan} {hint : Option PositionPart}
    (h : HasArgument (some part.attribute) v span ls) (hv : ¬part.Takes v) :
    PointsAt ls (.badPosition span hint)

/-- The frames that are open in a state. -/
def State.frames : State → List Frame
  | value frames | name frames _ _ => frames
  | item frame below _ | closing frame below | settled (.inside frame below) => frame :: below
  | settled (.whole _) => []

def Frame.arguments : Frame → List Argument
  | node _ _ arguments _ => arguments
  | sequence _ _ _ => []

/-- The arguments of the frames are read from the tokens. -/
def HaveArguments (frames : List Frame) (ls : List Lexeme) : Prop :=
  ∀ frame ∈ frames, ∀ a ∈ frame.arguments, HasArgument (some a.name) a.value a.span ls

/-- The tokens lead to the state, and it knows where its values stand in them. -/
structure Located (s : State) (done : List Lexeme) : Prop where
  explains : s.Explains (done.map (·.token))
  stands : s.Stands done
  arguments : HaveArguments s.frames done
  named : ∀ frames text span, s = .name frames text span →
    ∃ before, done = before ++ [⟨.name text, span⟩]

variable {t : Lexeme} {s s' : State} {r : Settled} {frame : Frame} {frames below : List Frame}
  {ls done later : List Lexeme} {v : Node} {span : ByteSpan} {p : Problem} {e : Stop}
  {name : Option String}

lemma HasArgument.append (h : HasArgument name v span ls) (more : List Lexeme) :
    HasArgument name v span (ls ++ more) := by
  obtain ⟨before, vs, after, rfl, hbefore, hvs⟩ := h
  exact ⟨before, vs, after ++ more, by simp only [List.append_assoc], hbefore, hvs⟩

lemma HaveArguments.append (h : HaveArguments frames ls) (more : List Lexeme) :
    HaveArguments frames (ls ++ more) :=
  fun frame hframe a ha => (h frame hframe a ha).append more

lemma HaveArguments.tail (h : HaveArguments (frame :: below) ls) : HaveArguments below ls :=
  fun frame hframe => h frame (List.mem_cons_of_mem _ hframe)

lemma HaveArguments.cons (h : HaveArguments below ls)
    (hframe : ∀ a ∈ frame.arguments, HasArgument (some a.name) a.value a.span ls) :
    HaveArguments (frame :: below) ls :=
  List.forall_mem_cons.mpr ⟨hframe, h⟩

lemma Completes.hasArgument {typeName : String} {start : Nat} {arguments : List Argument}
    (h : Completes (.node typeName start arguments name :: below) v span done) :
    HasArgument name v span done := by
  obtain ⟨before, vs, rfl, hawaiting, hvs⟩ := h
  refine ⟨before, vs, [], by rw [List.append_nil], ?_, hvs⟩
  generalize before.map (·.token) = ts at hawaiting
  cases hawaiting with | @cons _ _ pre groups hbelow hf =>
  cases hf with
  | node parts hp hargs =>
    refine ⟨pre, typeName, parts, hp, ?_⟩
    cases name <;> rfl

lemma haveArguments_of_settle (h : settle v span frames = .ok r) (hv : Completes frames v span ls)
    (hargs : HaveArguments frames ls) : HaveArguments (State.settled r).frames ls := by
  rcases settle_cases h with ⟨rfl, rfl⟩ | ⟨frame, below, frame', rfl, hpush, rfl⟩
  · nofun
  cases frame with
  | sequence kind start items =>
    cases hpush
    exact hargs.tail.cons nofun
  | node typeName start arguments field =>
    cases field with
    | none => cases hpush
    | some name =>
      cases hpush
      refine hargs.tail.cons fun a ha => ?_
      rcases List.mem_append.mp ha with ha | ha
      · exact hargs _ List.mem_cons_self a ha
      · obtain rfl := List.mem_singleton.mp ha
        exact hv.hasArgument

lemma Closes.haveArguments (h : Closes t frame below done)
    (hr : close frame below t.span.stop = .ok r) (hargs : HaveArguments (frame :: below) done) :
    HaveArguments (State.settled r).frames (done ++ [t]) := by
  obtain ⟨v, hv, hsettle⟩ := close_cases hr
  exact haveArguments_of_settle hsettle (h.completes hv) (hargs.tail.append [t])

lemma Starts.haveArguments (h : Starts t frames s) (hready : Ready frames done)
    (hargs : HaveArguments frames done) : HaveArguments s.frames (done ++ [t]) := by
  have hmore := hargs.append [t]
  cases h with
  | name ht => exact hmore
  | list ht | tuple ht => exact hmore.cons nofun
  | leaf ht hr =>
    have hleaf : ReadAs [t] _ t.span := readAs_leaf (leaf?_of_scalar? ht)
    exact haveArguments_of_settle hr ⟨done, [t], rfl, hready.awaiting, hleaf⟩ hmore

lemma Rests.haveArguments (h : Rests frame below done) (hs : Follows t (.inside frame below) s)
    (hargs : HaveArguments (frame :: below) done) : HaveArguments s.frames (done ++ [t]) := by
  cases hs with
  | comma ht => exact hargs.append [t]
  | close ht hr => exact (h.closes ht).haveArguments hr hargs

lemma Located.ready (h : Located s done) (hs : Awaits s frames) : Ready frames done :=
  h.stands.ready h.explains hs

lemma Located.completes {text : String} {leaf : Scalar}
    (h : Located (.name frames text span) done) (hleaf : constant? text = some leaf) :
    Completes frames (.scalar leaf) span done := by
  obtain ⟨before, rfl⟩ := h.named _ _ _ rfl
  obtain ⟨pre, hpre, htokens⟩ := h.explains
  rw [List.map_append] at htokens
  obtain ⟨rfl, -⟩ := List.append_inj' htokens rfl
  have hname : ReadAs [⟨.name text, span⟩] (.scalar leaf) span := readAs_leaf hleaf
  exact ⟨before, _, rfl, hpre, hname⟩

lemma Move.haveArguments (h : Move t s s') (hs : Located s done) :
    HaveArguments s'.frames (done ++ [t]) := by
  have hargs := hs.arguments
  cases h with
  | value h => exact h.haveArguments (hs.ready rfl) hargs
  | item h => exact h.haveArguments (hs.ready rfl) hargs
  | close ht hr => exact (closes_of_item hs.stands ht).haveArguments hr hargs
  | loneComma ht => exact hargs.append [t]
  | closeAfterComma ht hr => exact (closes_of_closing hs.stands ht).haveArguments hr hargs
  | @settled r s h =>
    cases r with
    | whole v => cases h
    | inside frame below => exact Rests.haveArguments hs.stands h hargs
  | node ht => exact (hargs.append [t]).cons nofun
  | field ht =>
    have hmore := hargs.append [t]
    exact hmore.tail.cons (hmore _ List.mem_cons_self :)
  | constant hv hr h =>
    have hsettled := haveArguments_of_settle hr (hs.completes hv) hargs
    rcases settle_cases hr with ⟨rfl, rfl⟩ | ⟨frame, below, frame', rfl, hpush, rfl⟩
    · cases h
    · exact (rests_of_constant hv hpush hs.stands).haveArguments h hsettled

theorem Move.located (h : Move t s s') (hs : Located s done) : Located s' (done ++ [t]) where
  explains := by
    rw [List.map_append]
    exact h.explains hs.explains
  stands := h.stands hs.explains hs.stands
  arguments := h.haveArguments hs
  named := by
    rintro frames text span rfl
    exact ⟨done, by rw [h.eq_name]⟩

lemma pointsAt_of_settle (h : settle v span frames = .error p) (hv : Completes frames v span done)
    (later : List Lexeme) : PointsAt (done ++ later) p := by
  obtain ⟨typeName, start, arguments, below, rfl, rfl⟩ := settle_error h
  exact .positional (hv.hasArgument.append later)

lemma Closes.pointsAt (h : Closes t frame below done)
    (hp : close frame below t.span.stop = .error p) (hargs : HaveArguments (frame :: below) done)
    (later : List Lexeme) : PointsAt (done ++ t :: later) p := by
  rw [close] at hp
  cases hv : frame.value with
  | ok v =>
    rw [hv] at hp
    have hpoints := pointsAt_of_settle hp (h.completes hv) later
    rwa [List.append_assoc] at hpoints
  | error q =>
    rw [hv] at hp
    cases hp
    cases frame with
    | sequence kind start items => cases hv
    | node typeName start arguments field =>
      rw [Frame.value, composite] at hv
      rcases foldlM_add_outcome ⟨none, none, []⟩ arguments with
        ⟨-, c, hfold⟩ | ⟨a, ha, part, hint, hname, htakes, hfold⟩
      · rw [hfold] at hv
        cases hv
      · rw [hfold] at hv
        cases hv
        have hargument := (hargs _ List.mem_cons_self a ha).append (t :: later)
        rw [hname] at hargument
        exact .badPosition hargument htakes

/-- A name that does not fit and is the last token is where the tokens end. -/
lemma pointsAt_here (expected : List Expectation) (t : Lexeme) (done later : List Lexeme) :
    PointsAt (done ++ t :: later) ((Stop.here expected).toProblem t later.isEmpty) := by
  simp only [Stop.toProblem]
  split
  · rename_i hlater
    obtain rfl := List.isEmpty_iff.mp hlater
    have hstop : stopOf (done ++ [t]) = t.span.stop := by
      rw [stopOf, List.getLast?_concat]
      rfl
    rw [← hstop]
    exact .incomplete
  · exact .unexpected (List.mem_append_right _ List.mem_cons_self)

lemma pointsAt_of_step (h : step s t = .error e) (hs : Located s done) (later : List Lexeme) :
    PointsAt (done ++ t :: later) (e.toProblem t later.isEmpty) := by
  cases refusal_of_step h with
  | start ht | finished hs => exact pointsAt_here _ t done later
  | before =>
    obtain ⟨before, rfl⟩ := hs.named _ _ _ rfl
    exact .unexpected (by simp)
  | leaf hawaits ht hp =>
    have hvalue : ReadAs [t] _ t.span := readAs_leaf (leaf?_of_scalar? ht)
    have hpoints := pointsAt_of_settle hp
      ⟨done, [t], rfl, (hs.ready hawaits).awaiting, hvalue⟩ later
    rwa [List.append_assoc] at hpoints
  | close ht hp => exact (closes_of_item hs.stands ht).pointsAt hp hs.arguments later
  | closeAfterComma ht hp => exact (closes_of_closing hs.stands ht).pointsAt hp hs.arguments later
  | settled ht hp => exact (Rests.closes hs.stands ht).pointsAt hp hs.arguments later
  | constant hv hp => exact pointsAt_of_settle hp (hs.completes hv) (t :: later)
  | closeAfterConstant hv hr ht hp =>
    have hargs := haveArguments_of_settle hr (hs.completes hv) hs.arguments
    rcases settle_cases hr with ⟨-, hwhole⟩ | ⟨frame, _, _, rfl, hpush, heq⟩
    · cases hwhole
    · cases heq
      exact ((rests_of_constant hv hpush hs.stands).closes ht).pointsAt hp hargs later

lemma pointsAt_of_finish (h : finish (stopOf done) s = .error p) (hs : Located s done) :
    PointsAt done p := by
  have hsettled {r : Settled} (h : r.finish (stopOf done) = .error p) : PointsAt done p := by
    cases r with
    | whole v => cases h
    | inside frame below =>
      cases h
      exact .incomplete
  cases s with
  | value | item | closing =>
    cases h
    exact .incomplete
  | settled r => exact hsettled h
  | name frames text span =>
    rw [finish] at h
    cases hleaf : constant? text with
    | none =>
      simp only [hleaf] at h
      cases h
      exact .incomplete
    | some leaf =>
      simp only [hleaf] at h
      cases hr : settle (.scalar leaf) span frames with
      | ok r =>
        rw [hr] at h
        exact hsettled h
      | error q =>
        rw [hr] at h
        cases h
        have hpoints := pointsAt_of_settle hr (hs.completes hleaf) []
        rwa [List.append_nil] at hpoints

theorem pointsAt_of_run (hs : Located s done) (h : run s (stopOf done) ls = .error p) :
    PointsAt (done ++ ls) p := by
  induction ls generalizing s done with
  | nil =>
    rw [List.append_nil]
    exact pointsAt_of_finish h hs
  | cons t ls ih =>
    rw [run] at h
    cases hstep : step s t with
    | error e =>
      rw [hstep] at h
      cases h
      exact pointsAt_of_step hstep hs ls
    | ok s' =>
      have hstop : stopOf (done ++ [t]) = t.span.stop := by
        rw [stopOf, List.getLast?_concat]
        rfl
      rw [hstep, ← hstop] at h
      have hpoints := ih ((move_of_step hstep).located hs) h
      rwa [List.append_assoc] at hpoints

/-- Every problem of tokens is about some of them. -/
theorem pointsAt_of_ofLexemes (h : ofLexemes ls = .error p) : PointsAt ls p := by
  have hstart : Located (.value []) [] := ⟨.nil, trivial, nofun, nofun⟩
  exact pointsAt_of_run hstart h

end SyntaxLens.Dump
