import Mathlib.Tactic.Common
import SyntaxLens.Dump.Reader

/-!
# Spans decide nothing

The reader carries spans along but does not look at them. Its steps commute with forgetting them,
so that tokens are read alike wherever they stand: as the same tree, or with the same problem but
for the place that it names.
-/

namespace SyntaxLens.Dump

def Lexeme.erase (t : Lexeme) : Lexeme :=
  ⟨t.token, .point 0⟩

def Argument.erase (a : Argument) : Argument :=
  ⟨a.name, a.value, .point 0⟩

def Frame.erase : Frame → Frame
  | node typeName _ arguments field => node typeName 0 (arguments.map Argument.erase) field
  | sequence kind _ items => sequence kind 0 items

def Settled.erase : Settled → Settled
  | whole v => whole v
  | inside frame below => inside frame.erase (below.map Frame.erase)

def State.erase : State → State
  | value frames => value (frames.map Frame.erase)
  | item frame below isFirst => item frame.erase (below.map Frame.erase) isFirst
  | closing frame below => closing frame.erase (below.map Frame.erase)
  | settled s => settled s.erase
  | name frames text _ => name (frames.map Frame.erase) text (.point 0)

def Problem.erase : Problem → Problem
  | unexpected found expected => unexpected found.erase expected
  | incomplete _ expected => incomplete 0 expected
  | positional _ => positional (.point 0)
  | badPosition _ hint => badPosition (.point 0) hint

def Stop.erase : Stop → Stop
  | here expected => here expected
  | before name expected => before name.erase expected
  | problem p => problem p.erase

lemma positionValue_erase (part : PositionPart) (a : Argument) :
    positionValue part a.erase = (positionValue part a).mapError Problem.erase := by
  obtain ⟨name, value, span⟩ := a
  simp only [positionValue, Argument.erase]
  split
  · split_ifs <;> rfl
  · rfl

lemma add_erase (c : Collected) (a : Argument) :
    c.add a.erase = (c.add a).mapError Problem.erase := by
  obtain ⟨name, value, span⟩ := a
  have hline := positionValue_erase .line ⟨name, value, span⟩
  have hcolumn := positionValue_erase .column ⟨name, value, span⟩
  rw [Argument.erase] at *
  simp only [Collected.add, hline, hcolumn]
  split_ifs
  · cases positionValue .line ⟨name, value, span⟩ <;> rfl
  · cases positionValue .column ⟨name, value, span⟩ <;> rfl
  · rfl
  · rfl

lemma foldlM_add_erase (arguments : List Argument) (c : Collected) :
    (arguments.map Argument.erase).foldlM Collected.add c =
      (arguments.foldlM Collected.add c).mapError Problem.erase := by
  induction arguments generalizing c with
  | nil => rfl
  | cons a arguments ih =>
    rw [List.map_cons, List.foldlM_cons, List.foldlM_cons, add_erase]
    cases c.add a with
    | error p => rfl
    | ok d => exact ih d

lemma composite_erase (typeName : String) (arguments : List Argument) :
    composite typeName (arguments.map Argument.erase) =
      (composite typeName arguments).mapError Problem.erase := by
  rw [composite, composite, foldlM_add_erase]
  cases arguments.foldlM Collected.add ⟨none, none, []⟩ <;> rfl

lemma Frame.value_erase (frame : Frame) :
    frame.erase.value = frame.value.mapError Problem.erase := by
  cases frame with
  | node typeName start arguments field => exact composite_erase typeName arguments
  | sequence kind start items => rfl

lemma Frame.push_erase (frame : Frame) (v : Node) (span : ByteSpan) :
    frame.erase.push v (.point 0) =
      ((frame.push v span).map Frame.erase).mapError Problem.erase := by
  cases frame with
  | node typeName start arguments field =>
    cases field with
    | none => rfl
    | some name =>
      simp [Frame.push, Frame.erase, Except.map, Except.mapError, Argument.erase]
  | sequence kind start items => rfl

@[simp] lemma Frame.closing_erase (frame : Frame) : frame.erase.closing = frame.closing := by
  cases frame with
  | node => rfl
  | sequence kind => cases kind <;> rfl

lemma Frame.expectations_erase (frame : Frame) : frame.erase.expectations = frame.expectations := by
  cases frame with
  | node _ _ _ field => cases field <;> rfl
  | sequence => rfl

@[simp] lemma pathOf_erase (frames : List Frame) :
    pathOf (frames.map Frame.erase) = pathOf frames := by
  rw [pathOf, ← List.map_reverse, List.flatMap_map]
  simp only [Frame.expectations_erase]
  rfl

@[simp] lemma expectedAt_erase (frames : List Frame) :
    expectedAt (frames.map Frame.erase) = expectedAt frames := by
  have hneeds : needsValue (frames.map Frame.erase) = needsValue frames := by
    cases frames with
    | nil => rfl
    | cons frame below => cases frame <;> rfl
  rw [expectedAt, expectedAt, pathOf_erase, hneeds]

lemma settle_erase (v : Node) (span : ByteSpan) (frames : List Frame) :
    settle v (.point 0) (frames.map Frame.erase) =
      ((settle v span frames).map Settled.erase).mapError Problem.erase := by
  cases frames with
  | nil => rfl
  | cons frame below =>
    rw [List.map_cons, settle, settle, Frame.push_erase frame v span]
    cases frame.push v span <;> rfl

lemma close_erase (frame : Frame) (below : List Frame) (stop : Nat) :
    close frame.erase (below.map Frame.erase) 0 =
      ((close frame below stop).map Settled.erase).mapError Problem.erase := by
  have hstart : frame.erase.start = 0 := by cases frame <;> rfl
  rw [close, close, Frame.value_erase, hstart]
  cases frame.value with
  | error p => rfl
  | ok v => exact settle_erase v ⟨frame.start, stop⟩ below

lemma resume_erase (x : Except Problem Settled) :
    resume ((x.map Settled.erase).mapError Problem.erase) =
      ((resume x).map State.erase).mapError Stop.erase := by
  cases x <;> rfl

lemma resume_close_erase (frame : Frame) (below : List Frame) (stop : Nat) :
    resume (close frame.erase (below.map Frame.erase) 0) =
      ((resume (close frame below stop)).map State.erase).mapError Stop.erase := by
  rw [close_erase frame below stop, resume_erase]

lemma startLeaf_erase (frames : List Frame) (span : ByteSpan) (leaf? : Option Scalar) :
    (match leaf? with
      | some leaf => resume (settle (.scalar leaf) (.point 0) (frames.map Frame.erase))
      | none => .error (.here (expectedAt (frames.map Frame.erase)))) =
    ((match leaf? with
      | some leaf => resume (settle (.scalar leaf) span frames)
      | none => Except.error (Stop.here (expectedAt frames))).map State.erase).mapError
        Stop.erase := by
  cases leaf? with
  | none =>
    rw [expectedAt_erase]
    rfl
  | some leaf =>
    simp only [settle_erase _ span]
    exact resume_erase _

lemma startValue_erase (frames : List Frame) (t : Lexeme) :
    startValue (frames.map Frame.erase) t.erase =
      ((startValue frames t).map State.erase).mapError Stop.erase := by
  obtain ⟨token, span⟩ := t
  cases token with
  | name text => rfl
  | mark m =>
    cases m with
    | openParen | openBracket => rfl
    | closeParen | closeBracket | comma | equals => exact startLeaf_erase frames span none
  | str text => exact startLeaf_erase frames span (Token.str text).scalar?
  | bytes data => exact startLeaf_erase frames span (Token.bytes data).scalar?
  | number kind text => exact startLeaf_erase frames span (Token.number kind text).scalar?

lemma afterValue_erase (t : Lexeme) (r : Settled) :
    afterValue t.erase r.erase = ((afterValue t r).map State.erase).mapError Stop.erase := by
  cases r with
  | whole v => rfl
  | inside frame below =>
    simp only [afterValue, Settled.erase, Lexeme.erase, Frame.closing_erase]
    split_ifs
    · rfl
    · exact resume_close_erase frame below t.span.stop
    · rw [← List.map_cons, pathOf_erase]
      rfl

/-- Reads a token after a name that is a value by itself. -/
def afterConstant (frames : List Frame) (text : String) (span : ByteSpan) (t : Lexeme) :
    Except Stop State :=
  match constant? text with
  | none => .error (.before ⟨.name text, span⟩ (expectedAt frames))
  | some leaf =>
    match settle (.scalar leaf) span frames with
    | .ok s => afterValue t s
    | .error p => .error (.problem p)

lemma afterConstant_erase (frames : List Frame) (text : String) (span : ByteSpan) (t : Lexeme) :
    afterConstant (frames.map Frame.erase) text (.point 0) t.erase =
      ((afterConstant frames text span t).map State.erase).mapError Stop.erase := by
  unfold afterConstant
  cases constant? text with
  | none =>
    simp only [expectedAt_erase]
    rfl
  | some leaf =>
    simp only [settle_erase _ span]
    cases settle (.scalar leaf) span frames with
    | ok r => exact afterValue_erase t r
    | error p => rfl

lemma afterName_erase (frames : List Frame) (text : String) (span : ByteSpan) (t : Lexeme) :
    afterName (frames.map Frame.erase) text (.point 0) t.erase =
      ((afterName frames text span t).map State.erase).mapError Stop.erase := by
  have hconstant := afterConstant_erase frames text span t
  obtain ⟨token, span'⟩ := t
  cases token with
  | mark m =>
    cases m with
    | openParen => rfl
    | equals =>
      cases frames with
      | nil => exact hconstant
      | cons frame below =>
        cases frame with
        | sequence => exact hconstant
        | node typeName start arguments field =>
          cases field with
          | none => rfl
          | some name => exact hconstant
    | _ => exact hconstant
  | _ => exact hconstant

theorem step_erase (s : State) (t : Lexeme) :
    step s.erase t.erase = ((step s t).map State.erase).mapError Stop.erase := by
  cases s with
  | value frames => exact startValue_erase frames t
  | item frame below isFirst =>
    rw [State.erase, step, step, Frame.closing_erase]
    by_cases hclose : t.token = .mark frame.closing
    · rw [if_pos hclose, if_pos (show t.erase.token = _ from hclose)]
      exact resume_close_erase frame below t.span.stop
    rw [if_neg hclose, if_neg (show t.erase.token ≠ _ from hclose)]
    by_cases hcomma : t.token = .mark .comma ∧ isFirst
    · rw [if_pos hcomma, if_pos (show t.erase.token = _ ∧ _ from hcomma)]
      rfl
    · rw [if_neg hcomma, if_neg (show ¬(t.erase.token = _ ∧ _) from hcomma)]
      exact startValue_erase (frame :: below) t
  | closing frame below =>
    simp only [step, State.erase, Lexeme.erase, Frame.closing_erase]
    split_ifs
    · exact resume_close_erase frame below t.span.stop
    · rw [← List.map_cons, pathOf_erase]
      rfl
  | settled r => exact afterValue_erase t r
  | name frames text span => exact afterName_erase frames text span t

lemma Settled.finish_erase (r : Settled) (stop : Nat) :
    r.erase.finish 0 = (r.finish stop).mapError Problem.erase := by
  cases r with
  | whole v => rfl
  | inside frame below =>
    rw [Settled.erase, Settled.finish, Settled.finish, ← List.map_cons, pathOf_erase]
    rfl

lemma finish_erase (s : State) (stop : Nat) :
    finish 0 s.erase = (finish stop s).mapError Problem.erase := by
  cases s with
  | value frames =>
    rw [State.erase, finish, finish, expectedAt_erase]
    rfl
  | item frame below | closing frame below =>
    rw [State.erase, finish, finish, ← List.map_cons, pathOf_erase]
    rfl
  | settled r => exact r.finish_erase stop
  | name frames text span =>
    rw [State.erase, finish, finish]
    cases constant? text with
    | none =>
      simp only [expectedAt_erase]
      rfl
    | some leaf =>
      simp only [settle_erase _ span]
      cases settle (.scalar leaf) span frames with
      | error p => rfl
      | ok r => exact r.finish_erase stop

lemma toProblem_erase (e : Stop) (t : Lexeme) (isLast : Bool) :
    e.erase.toProblem t.erase isLast = (e.toProblem t isLast).erase := by
  obtain ⟨token, span⟩ := t
  cases e with
  | here expected =>
    cases token with
    | name text => cases isLast <;> rfl
    | _ => rfl
  | before name expected => rfl
  | problem p => rfl

theorem run_erase (s : State) (stop : Nat) (ls : List Lexeme) :
    run s.erase 0 (ls.map Lexeme.erase) = (run s stop ls).mapError Problem.erase := by
  induction ls generalizing s stop with
  | nil => exact finish_erase s stop
  | cons t ls ih =>
    rw [List.map_cons, run, run, step_erase]
    cases step s t with
    | ok s' => exact ih s' t.span.stop
    | error e =>
      have hlast : (ls.map Lexeme.erase).isEmpty = ls.isEmpty := by cases ls <;> rfl
      change Except.error (e.erase.toProblem t.erase (ls.map Lexeme.erase).isEmpty) = _
      rw [hlast, toProblem_erase]
      rfl

/-- The same tokens are read as the same tree or have the same problem, wherever they stand. -/
theorem ofLexemes_erase_congr {ls ls' : List Lexeme}
    (h : ls.map (·.token) = ls'.map (·.token)) :
    (ofLexemes ls).mapError Problem.erase = (ofLexemes ls').mapError Problem.erase := by
  have hplain (ls : List Lexeme) :
      ls.map Lexeme.erase = (ls.map (·.token)).map fun t => ⟨t, .point 0⟩ := by
    rw [List.map_map]
    rfl
  have herase : ls.map Lexeme.erase = ls'.map Lexeme.erase := by
    rw [hplain, hplain, h]
  rw [ofLexemes, ofLexemes, ← run_erase, ← run_erase, herase]

lemma Problem.kind_erase (p : Problem) : p.erase.kind = p.kind := by
  cases p <;> rfl

lemma Problem.message_erase (p : Problem) : p.erase.message = p.message := by
  cases p <;> rfl

end SyntaxLens.Dump
