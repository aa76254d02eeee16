import SyntaxLens.Proofs.Dump.Prefixes

/-!
# Values by themselves

The tokens of a value are read as this value also without the tokens around them. The reader looks
at no frame below the innermost ones that a value needs: the tokens since an open frame was opened
lead to the same state with the frames below it left out. So the bytes that the reader keeps for a
value are those of tokens that are read as the value by themselves.
-/

namespace SyntaxLens.Dump

variable {t : Lexeme} {s s' : State} {r : Settled} {frame frame' : Frame}
  {frames below inner : List Frame} {ls done : List Lexeme} {v : Node} {span : ByteSpan}
  {start : Nat} {state state' : List Frame → State}

lemma scalar?_ne_mark {leaf : Scalar} (h : t.token.scalar? = some leaf) (m : Mark) :
    t.token ≠ .mark m := by
  intro ht
  rw [ht] at h
  cases h

lemma Starts.startValue (h : Starts t frames s) : startValue frames t = .ok s := by
  obtain ⟨token, span⟩ := t
  cases h with
  | name ht | list ht | tuple ht =>
    obtain rfl := ht
    rfl
  | leaf ht hr =>
    cases token with
    | name text => cases ht
    | mark m => cases ht
    | str text | bytes data | number kind text => simp only [Dump.startValue, ht, hr, resume]

lemma Starts.startsValue (h : Starts t frames s) : StartsValue t.token := by
  cases h with
  | name ht | list ht | tuple ht =>
    rw [ht]
    exact ⟨nofun, nofun, nofun⟩
  | leaf ht hr => exact ⟨scalar?_ne_mark ht _, scalar?_ne_mark ht _, scalar?_ne_mark ht _⟩

lemma Follows.afterValue (h : Follows t r s) : afterValue t r = .ok s := by
  cases h with
  | comma ht => rw [Dump.afterValue, if_pos ht]
  | @close frame below r ht hr =>
    have hcomma : t.token ≠ .mark .comma := by
      rw [ht]
      simpa using frame.closing_ne_comma
    rw [Dump.afterValue, if_neg hcomma, if_pos ht, hr]
    rfl

lemma Follows.endsValue (h : Follows t r s) :
    t.token ≠ .mark .openParen ∧ t.token ≠ .mark .equals := by
  cases h with
  | comma ht =>
    rw [ht]
    exact ⟨nofun, nofun⟩
  | @close frame below r ht hr =>
    rw [ht]
    cases frame with
    | node typeName start arguments field => exact ⟨nofun, nofun⟩
    | sequence kind start items => cases kind <;> exact ⟨nofun, nofun⟩

theorem Move.step (h : Move t s s') : step s t = .ok s' := by
  cases h with
  | value h => exact h.startValue
  | @item frame below isFirst s h =>
    have hawaits : Awaits (.item frame below isFirst) (frame :: below) := rfl
    exact (step_of_awaits hawaits h.startsValue).trans h.startValue
  | close ht hr | closeAfterComma ht hr =>
    rw [Dump.step, if_pos ht, hr]
    rfl
  | @loneComma frame below ht =>
    have hclosing : t.token ≠ .mark frame.closing := by
      rw [ht]
      simpa using frame.closing_ne_comma.symm
    rw [Dump.step, if_neg hclosing, if_pos ⟨ht, rfl⟩]
  | settled h => exact h.afterValue
  | node ht => simp only [Dump.step, afterName, ht]
  | field ht => simp only [Dump.step, afterName, ht]
  | constant hv hr h =>
    obtain ⟨hparen, hequals⟩ := h.endsValue
    simp only [Dump.step, afterName, hv, hr]
    split
    · exact absurd ‹t.token = .mark .openParen› hparen
    · exact absurd ‹t.token = .mark .equals› hequals
    · exact h.afterValue

lemma Starts.move (h : Starts t frames s') (hs : Awaits s frames) : Move t s s' := by
  cases s with
  | value fs =>
    obtain rfl : fs = frames := hs
    exact .value h
  | item frame below isFirst =>
    obtain rfl : frame :: below = frames := hs
    exact .item h
  | closing | settled | name => exact hs.elim

/-- The tokens lead from one state to another. -/
inductive Leads (s : State) : List Lexeme → State → Prop
  | nil : Leads s [] s
  | concat {ls : List Lexeme} {t : Lexeme} {s' s'' : State} (h : Leads s ls s')
    (ht : Move t s' s'') : Leads s (ls ++ [t]) s''

lemma Leads.run (h : Leads s ls s') (stop : Nat) :
    ∃ stop', ∀ ms, run s stop (ls ++ ms) = run s' stop' ms := by
  induction h with
  | nil => exact ⟨stop, fun _ => rfl⟩
  | @concat ls t s' s'' h ht ih =>
    obtain ⟨stop', hrun⟩ := ih
    refine ⟨t.span.stop, fun ms => ?_⟩
    rw [List.append_assoc, List.singleton_append, hrun, Dump.run, ht.step]

/-- The range from the start of the first token to the end of the last one. -/
def spanOf (ls : List Lexeme) : ByteSpan :=
  ⟨(ls.head?.map (·.span.start)).getD 0, stopOf ls⟩

/-- The tokens are read as the value by themselves, and they take up the bytes. -/
structure ReadAs (ls : List Lexeme) (v : Node) (span : ByteSpan) : Prop where
  nonempty : ls ≠ []
  value : ofLexemes ls = .ok v
  span : spanOf ls = span

lemma readAs_leaf {leaf : Scalar} (ht : t.token.leaf? = some leaf) :
    ReadAs [t] (.scalar leaf) t.span := by
  refine ⟨List.cons_ne_nil _ _, ?_, rfl⟩
  have hyields : Yields (· = .ok (.scalar leaf)) (.value []) [t.token] := by
    have hawaits : Awaits (.value []) [] := rfl
    refine yields_leaf hawaits ht nofun fun span => ⟨.whole (.scalar leaf), rfl, ?_⟩
    intro stop ls hls
    obtain rfl := List.map_eq_nil_iff.mp hls
    rfl
  exact hyields 0 [t] rfl

lemma Leads.readAs (h : Leads (.value []) ls s) (ht : Move t s (.settled (.whole v)))
    (hstart : ls.head?.map (·.span.start) = some start) :
    ReadAs (ls ++ [t]) v ⟨start, t.span.stop⟩ := by
  refine ⟨by simp, ?_, ?_⟩
  · obtain ⟨stop, hrun⟩ := (h.concat ht).run 0
    have hread := hrun []
    rwa [List.append_nil] at hread
  · have hne : ls ≠ [] := by
      rintro rfl
      cases hstart
    rw [spanOf, List.head?_append_of_ne_nil _ hne, hstart, stopOf, List.getLast?_concat]
    rfl

lemma start_of_push (h : frame.push v span = .ok frame') : frame'.start = frame.start := by
  cases frame with
  | sequence kind start items =>
    cases h
    rfl
  | node typeName start arguments field =>
    cases field with
    | none => cases h
    | some name =>
      cases h
      rfl

/-- What is being read starts at an offset in the given frames. However these are divided, the last
tokens lead by themselves to the state with the inner frames alone, and the tokens before them lead
to a place for a value of the outer ones. -/
def Stands (start : Nat) (frames : List Frame) (state : List Frame → State)
    (done : List Lexeme) : Prop :=
  ∀ inner outer, frames = inner ++ outer → ∃ before ls, done = before ++ ls ∧
    Awaiting outer (before.map (·.token)) ∧ Leads (.value []) ls (state inner) ∧
    ls.head?.map (·.span.start) = some ((inner.map Frame.start).getLastD start)

/-- A value may start in the frames. -/
structure Ready (frames : List Frame) (done : List Lexeme) : Prop where
  awaiting : Awaiting frames (done.map (·.token))
  stands : ∀ frame below, frames = frame :: below → ∃ state,
    (∀ inner, Awaits (state inner) (frame :: inner)) ∧ Stands frame.start below state done

/-- A value has been read in the frame. -/
def Rests (frame : Frame) (below : List Frame) (done : List Lexeme) : Prop :=
  ∃ state, (∀ t inner s, Follows t (.inside frame inner) s → Move t (state inner) s) ∧
    Stands frame.start below state done

/-- The token closes the frame. -/
def Closes (t : Lexeme) (frame : Frame) (below : List Frame) (done : List Lexeme) : Prop :=
  ∃ state, (∀ inner r, close frame inner t.span.stop = .ok r → Move t (state inner) (.settled r)) ∧
    Stands frame.start below state done

/-- The last tokens are those of a value, and the frames are open around it. -/
def Completes (frames : List Frame) (v : Node) (span : ByteSpan) (done : List Lexeme) : Prop :=
  ∃ before vs, done = before ++ vs ∧ Awaiting frames (before.map (·.token)) ∧ ReadAs vs v span

lemma Stands.move (h : Stands start frames state done)
    (ht : ∀ inner, Move t (state inner) (state' inner)) :
    Stands start frames state' (done ++ [t]) := by
  intro inner outer hframes
  obtain ⟨before, ls, rfl, hbefore, hleads, hstart⟩ := h inner outer hframes
  have hne : ls ≠ [] := by
    rintro rfl
    cases hstart
  refine ⟨before, ls ++ [t], List.append_assoc .., hbefore, hleads.concat (ht inner), ?_⟩
  rw [List.head?_append_of_ne_nil _ hne, hstart]

lemma Stands.tail (h : Stands start (frame :: below) state done) :
    Stands frame.start below (fun inner => state (frame :: inner)) done := by
  rintro inner outer rfl
  obtain ⟨before, ls, hdone, hbefore, hleads, hstart⟩ := h (frame :: inner) outer rfl
  rw [List.map_cons, List.getLastD_cons] at hstart
  exact ⟨before, ls, hdone, hbefore, hleads, hstart⟩

/-- The first token of what is read in frames in which a value may start. -/
lemma Ready.open (h : Ready frames done) (ht : ∀ inner, Starts t inner (state inner)) :
    Stands t.span.start frames state (done ++ [t]) := by
  intro inner outer hframes
  cases inner with
  | nil =>
    obtain rfl : frames = outer := hframes
    exact ⟨done, [t], rfl, h.awaiting, .concat .nil (.value (ht [])), rfl⟩
  | cons frame inner =>
    obtain ⟨state', hawaits, hstands⟩ := h.stands frame (inner ++ outer) hframes
    have hmove (inner) : Move t (state' inner) (state (frame :: inner)) :=
      (ht (frame :: inner)).move (hawaits inner)
    rw [List.map_cons, List.getLastD_cons]
    exact hstands.move hmove inner outer rfl

lemma Closes.completes (h : Closes t frame below done) (hv : frame.value = .ok v) :
    Completes below v ⟨frame.start, t.span.stop⟩ (done ++ [t]) := by
  obtain ⟨state, hclose, hstands⟩ := h
  obtain ⟨before, ls, rfl, hbefore, hleads, hstart⟩ := hstands [] below rfl
  have hwhole : close frame [] t.span.stop = .ok (.whole v) := by
    rw [close, hv]
    rfl
  exact ⟨before, ls ++ [t], List.append_assoc .., hbefore,
    hleads.readAs (hclose [] _ hwhole) hstart⟩

lemma Rests.closes (h : Rests frame below done) (ht : t.token = .mark frame.closing) :
    Closes t frame below done := by
  obtain ⟨state, hfollows, hstands⟩ := h
  exact ⟨state, fun inner r hr => hfollows t inner _ (.close ht hr), hstands⟩

/-- What the tokens that have been read are in the frames of the state. -/
def State.Stands : State → List Lexeme → Prop
  | value [], _ => True
  | value (frame :: below), done =>
    Dump.Stands frame.start below (fun inner => value (frame :: inner)) done
  | item frame below isFirst, done =>
    Dump.Stands frame.start below (fun inner => item frame inner isFirst) done
  | closing frame below, done =>
    Dump.Stands frame.start below (fun inner => closing frame inner) done
  | settled (.whole _), _ => True
  | settled (.inside frame below), done => Rests frame below done
  | name frames text span, done =>
    Dump.Stands span.start frames (fun inner => name inner text span) done

lemma State.Stands.ready (h : s.Stands done) (hexplains : s.Explains (done.map (·.token)))
    (hs : Awaits s frames) : Ready frames done := by
  cases s with
  | value fs =>
    obtain rfl : fs = frames := hs
    refine ⟨hexplains, ?_⟩
    rintro frame below rfl
    exact ⟨fun inner => .value (frame :: inner), fun _ => rfl, h⟩
  | item frame below isFirst =>
    obtain rfl : frame :: below = frames := hs
    obtain ⟨groups, -, hinside⟩ := hexplains
    refine ⟨hinside.awaiting, ?_⟩
    rintro _ _ ⟨⟩
    exact ⟨fun inner => .item frame inner isFirst, fun _ => rfl, h⟩
  | closing | settled | name => exact hs.elim

lemma closes_of_item {isFirst : Bool} (h : (State.item frame below isFirst).Stands done)
    (ht : t.token = .mark frame.closing) : Closes t frame below done :=
  ⟨fun inner => .item frame inner isFirst, fun _ _ hr => .close ht hr, h⟩

lemma closes_of_closing (h : (State.closing frame below).Stands done)
    (ht : t.token = .mark frame.closing) : Closes t frame below done :=
  ⟨fun inner => .closing frame inner, fun _ _ hr => .closeAfterComma ht hr, h⟩

lemma stands_of_settle (h : settle v span (frame :: below) = .ok r)
    (hstands : Stands frame.start below state done)
    (hmove : ∀ inner r, settle v span (frame :: inner) = .ok r →
      Move t (state inner) (.settled r)) :
    (State.settled r).Stands (done ++ [t]) := by
  rw [settle] at h
  cases hpush : frame.push v span with
  | error p =>
    rw [hpush] at h
    cases h
  | ok frame' =>
    rw [hpush] at h
    cases h
    refine ⟨fun inner => .settled (.inside frame' inner), fun t inner s hs => .settled hs, ?_⟩
    rw [start_of_push hpush]
    apply hstands.move
    intro inner
    apply hmove
    rw [settle, hpush]
    rfl

lemma Starts.stands (h : Starts t frames s) (hready : Ready frames done) :
    s.Stands (done ++ [t]) := by
  cases h with
  | name ht => exact hready.open fun _ => .name ht
  | list ht => exact hready.open fun _ => .list ht
  | tuple ht => exact hready.open fun _ => .tuple ht
  | leaf ht hr =>
    cases frames with
    | nil =>
      cases hr
      trivial
    | cons frame below =>
      obtain ⟨state, hawaits, hstands⟩ := hready.stands frame below rfl
      refine stands_of_settle hr hstands fun inner r hr => ?_
      exact (Starts.leaf ht hr).move (hawaits inner)

lemma Closes.stands (h : Closes t frame below done) (hr : close frame below t.span.stop = .ok r) :
    (State.settled r).Stands (done ++ [t]) := by
  obtain ⟨state, hclose, hstands⟩ := h
  obtain ⟨v, hv, hsettle⟩ := close_cases hr
  cases below with
  | nil =>
    cases hsettle
    trivial
  | cons frame' below =>
    refine stands_of_settle hsettle hstands.tail fun inner r hr => hclose _ _ ?_
    rw [close, hv]
    exact hr

lemma Rests.stands (h : Rests frame below done) (hs : Follows t (.inside frame below) s) :
    s.Stands (done ++ [t]) := by
  cases hs with
  | comma ht =>
    obtain ⟨state, hfollows, hstands⟩ := h
    exact hstands.move fun inner => hfollows t inner _ (.comma ht)
  | close ht hr => exact (h.closes ht).stands hr

lemma rests_of_constant {text : String} {leaf : Scalar} (hleaf : constant? text = some leaf)
    (hpush : frame.push (.scalar leaf) span = .ok frame')
    (h : (State.name (frame :: below) text span).Stands done) : Rests frame' below done := by
  refine ⟨fun inner => .name (frame :: inner) text span, fun t inner s hs => ?_, ?_⟩
  · have hsettle : settle (.scalar leaf) span (frame :: inner) = .ok (.inside frame' inner) := by
      rw [settle, hpush]
      rfl
    exact .constant hleaf hsettle hs
  · rw [start_of_push hpush]
    exact Stands.tail h

theorem Move.stands (h : Move t s s') (hexplains : s.Explains (done.map (·.token)))
    (hs : s.Stands done) : s'.Stands (done ++ [t]) := by
  cases h with
  | value h => exact h.stands (hs.ready hexplains rfl)
  | item h => exact h.stands (hs.ready hexplains rfl)
  | close ht hr => exact (closes_of_item hs ht).stands hr
  | loneComma ht => exact Dump.Stands.move hs fun _ => .loneComma ht
  | closeAfterComma ht hr => exact (closes_of_closing hs ht).stands hr
  | @settled r s h =>
    cases r with
    | whole v => cases h
    | inside frame below => exact Rests.stands hs h
  | node ht => exact Dump.Stands.move hs fun _ => .node ht
  | @field typeName start arguments below text span ht =>
    have htail : Dump.Stands start below
        (fun inner => .name (.node typeName start arguments none :: inner) text span) done :=
      Dump.Stands.tail hs
    exact htail.move fun _ => .field ht
  | constant hv hr h =>
    rcases settle_cases hr with ⟨rfl, rfl⟩ | ⟨frame, below, frame', rfl, hpush, rfl⟩
    · cases h
    · exact (rests_of_constant hv hpush hs).stands h

end SyntaxLens.Dump
