import SyntaxLens.Proofs.Dump.Completeness

/-!
# Tokens in front of others

Tokens that are read as a tree lead through states in which every open frame can be closed: its
value may be handed to the frame around it. So a name that starts an argument has an equals sign
after it. A reading that ends early ends in the middle of a value, but for a constant that is an
argument without a name.
-/

namespace SyntaxLens.Dump

/-- A value may be handed to the frame. -/
def Frame.TakesValue : Frame → Prop
  | node _ _ _ field => field.isSome = true
  | sequence _ _ _ => True

/-- The frames around the innermost one. -/
def State.outer : State → List Frame
  | value frames => frames.tail
  | item _ below _ => below
  | closing _ below => below
  | settled (.whole _) => []
  | settled (.inside _ below) => below
  | name frames _ _ => frames.tail

/-- The values of open frames may be handed to the frames around them. -/
def State.Returns (s : State) : Prop :=
  ∀ frame ∈ s.outer, frame.TakesValue

section Frames

variable {s s' : State} {t : Lexeme} {r : Settled} {v : Node} {span : ByteSpan}
  {frame : Frame} {frames below : List Frame} {stop : Nat} {e : Stop}

lemma exists_push (h : frame.TakesValue) (v : Node) (span : ByteSpan) :
    ∃ frame', frame.push v span = .ok frame' := by
  cases frame with
  | node typeName start arguments field =>
    cases field with
    | none => cases h
    | some name => exact ⟨_, rfl⟩
  | sequence kind start items => exact ⟨_, rfl⟩

lemma takesValue_of_push {frame' : Frame} (h : frame.push v span = .ok frame') :
    frame.TakesValue := by
  cases frame with
  | node typeName start arguments field =>
    cases field with
    | none => cases h
    | some name => rfl
  | sequence kind start items => trivial

lemma eq_node_of_not_takesValue (h : ¬frame.TakesValue) :
    ∃ typeName start arguments, frame = .node typeName start arguments none := by
  cases frame with
  | node typeName start arguments field =>
    cases field with
    | none => exact ⟨typeName, start, arguments, rfl⟩
    | some name => exact absurd rfl h
  | sequence kind start items => exact absurd trivial h

lemma outer_of_settle (h : settle v span frames = .ok r) :
    (State.settled r).outer = frames.tail ∧ ∀ frame ∈ frames.head?, frame.TakesValue := by
  rcases settle_cases h with ⟨rfl, rfl⟩ | ⟨frame, below, frame', rfl, hpush, rfl⟩
  · exact ⟨rfl, nofun⟩
  · refine ⟨rfl, ?_⟩
    rintro _ ⟨rfl⟩
    exact takesValue_of_push hpush

lemma exists_settle (h : ∀ frame ∈ frames.head?, frame.TakesValue) (v : Node) (span : ByteSpan) :
    ∃ r, settle v span frames = .ok r := by
  cases frames with
  | nil => exact ⟨_, rfl⟩
  | cons frame below =>
    obtain ⟨frame', hpush⟩ := exists_push (h frame rfl) v span
    exact ⟨.inside frame' below, by rw [settle, hpush]; rfl⟩

lemma settle_error {p : Problem} (h : settle v span frames = .error p) :
    ∃ typeName start arguments below,
      frames = .node typeName start arguments none :: below ∧ p = .positional span := by
  cases frames with
  | nil => cases h
  | cons frame below =>
    cases frame with
    | sequence kind start items => cases h
    | node typeName start arguments field =>
      cases field with
      | some name => cases h
      | none => cases h; exact ⟨typeName, start, arguments, below, rfl, rfl⟩

lemma returns_of_close (h : close frame below stop = .ok r) (hr : (State.settled r).Returns) :
    ∀ frame ∈ below, frame.TakesValue := by
  obtain ⟨v, -, hsettle⟩ := close_cases h
  obtain ⟨houter, hhead⟩ := outer_of_settle hsettle
  cases below with
  | nil => nofun
  | cons frame' below =>
    rw [State.Returns, houter] at hr
    exact List.forall_mem_cons.mpr ⟨hhead frame' rfl, hr⟩

lemma Starts.returns (h : Starts t frames s) (hs : s.Returns) :
    ∀ frame ∈ frames.tail, frame.TakesValue := by
  cases h with
  | name ht => exact hs
  | list ht | tuple ht => exact fun frame hframe => hs frame (List.mem_of_mem_tail hframe)
  | leaf ht hr =>
    rw [State.Returns, (outer_of_settle hr).1] at hs
    exact hs

lemma Follows.returns (h : Follows t r s) (hs : s.Returns) : (State.settled r).Returns := by
  cases h with
  | comma ht => exact hs
  | close ht hr => exact returns_of_close hr hs

lemma Move.returns (h : Move t s s') (hs : s'.Returns) : s.Returns := by
  cases h with
  | value h => exact h.returns hs
  | item h => exact h.returns hs
  | close ht hr => exact returns_of_close hr hs
  | loneComma ht => exact hs
  | closeAfterComma ht hr => exact returns_of_close hr hs
  | settled h => exact h.returns hs
  | node ht => exact fun frame hframe => hs frame (List.mem_of_mem_tail hframe)
  | field ht => exact hs
  | constant hv hr h =>
    have hsettled := h.returns hs
    rw [State.Returns, (outer_of_settle hr).1] at hsettled
    exact hsettled

/-- From a state on in which tokens are read as a tree, all open frames can be closed. -/
theorem returns_of_run {ts : List Lexeme} (h : run s stop ts = .ok v) : s.Returns := by
  induction ts generalizing s stop with
  | nil =>
    rcases finish_cases h with rfl | ⟨text, span, leaf, rfl, -, -⟩
    · nofun
    · nofun
  | cons t ts ih =>
    obtain ⟨s', hstep, hrun⟩ := run_cons_ok h
    exact (move_of_step hstep).returns (ih hrun)

/-- A run that ends early ends in the middle of a value, or with a constant that is an argument
without a name. -/
lemma finish_error {p : Problem} (h : finish stop s = .error p) :
    p.kind = .incompleteInput ∨ ∃ typeName start arguments below text span,
      s = .name (.node typeName start arguments none :: below) text span ∧
        (constant? text).isSome = true ∧ p = .positional span := by
  cases s with
  | value frames => cases h; exact .inl rfl
  | item frame below isFirst => cases h; exact .inl rfl
  | closing frame below => cases h; exact .inl rfl
  | settled r =>
    cases r with
    | whole v => cases h
    | inside frame below => cases h; exact .inl rfl
  | name frames text span =>
    rw [finish] at h
    cases hleaf : constant? text with
    | none =>
      simp only [hleaf] at h
      cases h
      exact .inl rfl
    | some leaf =>
      simp only [hleaf] at h
      cases hr : settle (.scalar leaf) span frames with
      | ok r =>
        rw [hr] at h
        cases r with
        | whole v => cases h
        | inside frame below => cases h; exact .inl rfl
      | error p' =>
        rw [hr] at h
        cases h
        obtain ⟨typeName, start, arguments, below, rfl, rfl⟩ := settle_error hr
        exact .inr ⟨typeName, start, arguments, below, text, span, rfl, by rw [hleaf]; rfl, rfl⟩

lemma equals_of_run {typeName : String} {start : Nat} {arguments : List Argument} {text : String}
    {ls : List Lexeme} (h : run (.name (.node typeName start arguments none :: below) text span)
      stop ls = .ok v) : ∃ span' later, ls = ⟨.mark .equals, span'⟩ :: later := by
  cases ls with
  | nil =>
    rcases finish_cases h with hs | ⟨text', span', leaf, hs, -, -⟩
    · cases hs
    · cases hs
  | cons l later =>
    obtain ⟨s', hstep, hrun⟩ := run_cons_ok h
    cases move_of_step hstep with
    | node ht =>
      -- the call would be an argument without a name
      have hreturns := returns_of_run hrun
      exact absurd (hreturns _ List.mem_cons_self) Bool.false_ne_true
    | field ht =>
      obtain ⟨token, span'⟩ := l
      obtain rfl : token = .mark .equals := ht
      exact ⟨span', later, rfl⟩
    | constant hv hr hs => cases hr

lemma Move.starts (h : Move t s s') (ht : ∀ m, t.token ≠ .mark m) :
    ∃ frames, Awaits s frames ∧ Starts t frames s' := by
  cases h with
  | value hs => exact ⟨_, rfl, hs⟩
  | item hs => exact ⟨_, rfl, hs⟩
  | close hmark hr | closeAfterComma hmark hr => exact absurd hmark (ht _)
  | loneComma hmark | node hmark | field hmark => exact absurd hmark (ht _)
  | settled hs | constant hv hr hs =>
    cases hs with
    | comma hmark => exact absurd hmark (ht _)
    | close hmark hr => exact absurd hmark (ht _)

lemma Move.eq_name {text : String} (h : Move t s (.name frames text span)) :
    t = ⟨.name text, span⟩ := by
  have hstarts {frames'} (hs : Starts t frames' (.name frames text span)) :
      t = ⟨.name text, span⟩ := by
    cases hs with
    | name ht => rw [← ht]
  cases h with
  | value hs => exact hstarts hs
  | item hs => exact hstarts hs
  | settled hs => cases hs
  | constant hv hr hs => cases hs

lemma Move.frames_of_equals {text : String} {span' : ByteSpan}
    (h : Move ⟨.mark .equals, span'⟩ (.name frames text span) s') :
    ∃ typeName start arguments below, frames = .node typeName start arguments none :: below := by
  cases h with
  | node ht => cases ht
  | field ht => exact ⟨_, _, _, _, rfl⟩
  | constant hv hr hs =>
    cases hs with
    | comma ht => cases ht
    | @close frame below r ht hr =>
      cases frame with
      | node typeName start arguments field => cases ht
      | sequence kind start items => cases kind <;> cases ht

lemma exists_state {xs ys : List Lexeme} (h : run s stop (xs ++ ys) = .ok v) :
    ∃ s' stop', ∀ zs, run s stop (xs ++ zs) = run s' stop' zs := by
  induction xs generalizing s stop with
  | nil => exact ⟨s, stop, fun _ => rfl⟩
  | cons x xs ih =>
    obtain ⟨s₁, hstep, hrun⟩ := run_cons_ok h
    obtain ⟨s', stop', hstate⟩ := ih hrun
    refine ⟨s', stop', fun zs => ?_⟩
    rw [List.cons_append, run, hstep]
    exact hstate zs

/-- The reader is where a value may start before a token of a tree that is no mark. -/
lemma exists_awaiting {done later : List Lexeme} {l : Lexeme}
    (h : ofLexemes (done ++ l :: later) = .ok v) (hl : ∀ m, l.token ≠ .mark m) :
    ∃ s frames stop s', Awaits s frames ∧ Starts l frames s' ∧
      run s' l.span.stop later = .ok v ∧ ∀ zs, ofLexemes (done ++ zs) = run s stop zs := by
  obtain ⟨s, stop, hstate⟩ := exists_state h
  have hrun : run s stop (l :: later) = .ok v := by rw [← hstate]; exact h
  obtain ⟨s', hstep, hlater⟩ := run_cons_ok hrun
  obtain ⟨frames, hawaits, hstarts⟩ := (move_of_step hstep).starts hl
  exact ⟨s, frames, stop, s', hawaits, hstarts, hlater, hstate⟩

/-- A value is complete, so that no other value may start. -/
def State.Finished : State → Prop
  | settled _ | closing _ _ => True
  | name _ text _ => (constant? text).isSome = true
  | value _ | item _ _ _ => False

lemma kind_of_settle {span : ByteSpan} {q : Problem} (h : settle v span frames = .error q) :
    q.kind ≠ .incompleteInput := by
  obtain ⟨_, _, _, _, -, rfl⟩ := settle_error h
  intro hkind
  cases hkind

lemma kind_of_close {q : Problem} (h : close frame below stop = .error q) :
    q.kind ≠ .incompleteInput := by
  rw [close] at h
  cases hv : frame.value with
  | ok v =>
    rw [hv] at h
    exact kind_of_settle h
  | error q' =>
    rw [hv] at h
    cases h
    cases frame with
    | sequence kind start items => cases hv
    | node typeName start arguments field =>
      rcases composite_outcome typeName rfl with ⟨-, hok⟩ | ⟨-, span, hint, hbad⟩
      · rw [Frame.value, hok] at hv
        cases hv
      · rw [Frame.value, hbad] at hv
        cases hv
        intro hkind
        cases hkind

/-- The ways in which a token is refused: it does not fit, or what it closes or follows is no value
there. -/
inductive Refusal (t : Lexeme) : State → Stop → Prop
  | start {s : State} {expected : List Expectation} (ht : ∀ text, t.token ≠ .name text) :
    Refusal t s (.here expected)
  | finished {s : State} {expected : List Expectation} (hs : s.Finished) :
    Refusal t s (.here expected)
  | before {frames : List Frame} {text : String} {span : ByteSpan} {expected : List Expectation} :
    Refusal t (.name frames text span) (.before ⟨.name text, span⟩ expected)
  | leaf {s : State} {frames : List Frame} {v : Scalar} {p : Problem} (hs : Awaits s frames)
    (ht : t.token.scalar? = some v) (hp : settle (.scalar v) t.span frames = .error p) :
    Refusal t s (.problem p)
  | close {frame : Frame} {below : List Frame} {isFirst : Bool} {p : Problem}
    (ht : t.token = .mark frame.closing) (hp : close frame below t.span.stop = .error p) :
    Refusal t (.item frame below isFirst) (.problem p)
  | closeAfterComma {frame : Frame} {below : List Frame} {p : Problem}
    (ht : t.token = .mark frame.closing) (hp : Dump.close frame below t.span.stop = .error p) :
    Refusal t (.closing frame below) (.problem p)
  | settled {frame : Frame} {below : List Frame} {p : Problem}
    (ht : t.token = .mark frame.closing) (hp : Dump.close frame below t.span.stop = .error p) :
    Refusal t (.settled (.inside frame below)) (.problem p)
  | constant {frames : List Frame} {text : String} {span : ByteSpan} {v : Scalar} {p : Problem}
    (hv : constant? text = some v) (hp : settle (.scalar v) span frames = .error p) :
    Refusal t (.name frames text span) (.problem p)
  | closeAfterConstant {frames : List Frame} {text : String} {span : ByteSpan} {v : Scalar}
    {frame : Frame} {below : List Frame} {p : Problem} (hv : constant? text = some v)
    (hr : settle (.scalar v) span frames = .ok (.inside frame below))
    (ht : t.token = .mark frame.closing) (hp : Dump.close frame below t.span.stop = .error p) :
    Refusal t (.name frames text span) (.problem p)

lemma eq_problem_of_resume {x : Except Problem Settled} (h : resume x = .error e) :
    ∃ p, x = .error p ∧ e = .problem p := by
  cases x with
  | ok r => cases h
  | error p => cases h; exact ⟨p, rfl, rfl⟩

lemma refusal_of_startValue (hs : Awaits s frames) (h : startValue frames t = .error e) :
    Refusal t s e := by
  rw [startValue] at h
  split at h
  case h_1 | h_2 | h_3 => cases h
  case h_4 hname _ _ =>
    cases hv : t.token.scalar? with
    | none =>
      simp only [hv] at h
      cases h
      exact .start hname
    | some leaf =>
      simp only [hv] at h
      obtain ⟨p, hp, rfl⟩ := eq_problem_of_resume h
      exact .leaf hs hv hp

lemma afterValue_error (h : afterValue t r = .error e) : (∃ expected, e = .here expected) ∨
    ∃ frame below p, r = .inside frame below ∧ t.token = .mark frame.closing ∧
      close frame below t.span.stop = .error p ∧ e = .problem p := by
  cases r with
  | whole v =>
    cases h
    exact .inl ⟨_, rfl⟩
  | inside frame below =>
    rw [afterValue] at h
    split at h
    · cases h
    split at h
    case isTrue hclose =>
      obtain ⟨p, hp, rfl⟩ := eq_problem_of_resume h
      exact .inr ⟨frame, below, p, rfl, hclose, hp, rfl⟩
    case isFalse =>
      cases h
      exact .inl ⟨_, rfl⟩

lemma refusal_of_afterName {text : String} (h : afterName frames text span t = .error e) :
    Refusal t (.name frames text span) e := by
  simp only [afterName] at h
  split at h
  case h_1 | h_2 => cases h
  case h_3 =>
    rename_i frames _ _ _ _
    cases hv : constant? text with
    | none =>
      simp only [hv] at h
      cases h
      exact .before
    | some leaf =>
      simp only [hv] at h
      cases hr : settle (.scalar leaf) span frames with
      | error p =>
        simp only [hr] at h
        cases h
        exact .constant hv hr
      | ok r =>
        simp only [hr] at h
        rcases afterValue_error h with ⟨expected, rfl⟩ | ⟨frame, below, p, rfl, ht, hp, rfl⟩
        · exact .finished (Option.isSome_of_eq_some hv)
        · exact .closeAfterConstant hv hr ht hp

theorem refusal_of_step (h : step s t = .error e) : Refusal t s e := by
  cases s with
  | value frames => exact refusal_of_startValue rfl h
  | item frame below isFirst =>
    rw [step] at h
    split at h
    case isTrue hclose =>
      obtain ⟨p, hp, rfl⟩ := eq_problem_of_resume h
      exact .close hclose hp
    split at h
    · cases h
    · exact refusal_of_startValue rfl h
  | closing frame below =>
    rw [step] at h
    split at h
    case isTrue hclose =>
      obtain ⟨p, hp, rfl⟩ := eq_problem_of_resume h
      exact .closeAfterComma hclose hp
    case isFalse =>
      cases h
      exact .finished trivial
  | settled r =>
    rcases afterValue_error h with ⟨expected, rfl⟩ | ⟨frame, below, p, rfl, ht, hp, rfl⟩
    · exact .finished trivial
    · exact .settled ht hp
  | name frames text span => exact refusal_of_afterName h

/-- A token is refused for a value that it completes, or it does not fit. A name that does not fit
follows a value that is complete. -/
inductive Refuses (t : Lexeme) (s : State) : Stop → Prop
  | problem {p : Problem} (hp : p.kind ≠ .incompleteInput) : Refuses t s (.problem p)
  | before (name : Lexeme) (expected : List Expectation) : Refuses t s (.before name expected)
  | here (expected : List Expectation) (h : ∀ text, t.token = .name text → s.Finished) :
    Refuses t s (.here expected)

lemma refuses_of_step (h : step s t = .error e) : Refuses t s e := by
  cases refusal_of_step h with
  | start ht => exact .here _ fun text hname => absurd hname (ht text)
  | finished hs => exact .here _ fun _ _ => hs
  | before => exact .before _ _
  | leaf hs ht hp => exact .problem (kind_of_settle hp)
  | constant hv hp => exact .problem (kind_of_settle hp)
  | close ht hp | closeAfterComma ht hp | settled ht hp => exact .problem (kind_of_close hp)
  | closeAfterConstant hv hr ht hp => exact .problem (kind_of_close hp)

end Frames

end SyntaxLens.Dump
