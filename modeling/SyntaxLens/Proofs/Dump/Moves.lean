import Mathlib.Tactic.Common
import SyntaxLens.Dump.Reader

/-!
# What a token does

`Move t s s'` lists the ways in which the reader gets from one state to another by a token. Every
step that is not refused is one of them, so that an invariant of the reader is shown by cases on
moves.
-/

namespace SyntaxLens.Dump

/-- A token starts a value in the open frames. -/
inductive Starts (t : Lexeme) (frames : List Frame) : State → Prop
  | name {text : String} (ht : t.token = .name text) : Starts t frames (.name frames text t.span)
  | list (ht : t.token = .mark .openBracket) :
    Starts t frames (.item (.sequence .list t.span.start []) frames true)
  | tuple (ht : t.token = .mark .openParen) :
    Starts t frames (.item (.sequence .tuple t.span.start []) frames true)
  | leaf {v : Scalar} {r : Settled} (ht : t.token.scalar? = some v)
    (hr : settle (.scalar v) t.span frames = .ok r) : Starts t frames (.settled r)

inductive Follows (t : Lexeme) : Settled → State → Prop
  | comma {frame : Frame} {below : List Frame} (ht : t.token = .mark .comma) :
    Follows t (.inside frame below) (.item frame below false)
  | close {frame : Frame} {below : List Frame} {r : Settled}
    (ht : t.token = .mark frame.closing) (hr : close frame below t.span.stop = .ok r) :
    Follows t (.inside frame below) (.settled r)

/-- A token leads from one state to another. -/
inductive Move (t : Lexeme) : State → State → Prop
  | value {frames : List Frame} {s : State} (hs : Starts t frames s) : Move t (.value frames) s
  | item {frame : Frame} {below : List Frame} {isFirst : Bool} {s : State}
    (hs : Starts t (frame :: below) s) : Move t (.item frame below isFirst) s
  | close {frame : Frame} {below : List Frame} {isFirst : Bool} {r : Settled}
    (ht : t.token = .mark frame.closing) (hr : close frame below t.span.stop = .ok r) :
    Move t (.item frame below isFirst) (.settled r)
  | loneComma {frame : Frame} {below : List Frame} (ht : t.token = .mark .comma) :
    Move t (.item frame below true) (.closing frame below)
  | closeAfterComma {frame : Frame} {below : List Frame} {r : Settled}
    (ht : t.token = .mark frame.closing) (hr : Dump.close frame below t.span.stop = .ok r) :
    Move t (.closing frame below) (.settled r)
  | settled {r : Settled} {s : State} (hs : Follows t r s) : Move t (.settled r) s
  | node {frames : List Frame} {text : String} {span : ByteSpan}
    (ht : t.token = .mark .openParen) :
    Move t (.name frames text span) (.item (.node text span.start [] none) frames true)
  | field {typeName : String} {start : Nat} {arguments : List Argument} {below : List Frame}
    {text : String} {span : ByteSpan} (ht : t.token = .mark .equals) :
    Move t (.name (.node typeName start arguments none :: below) text span)
      (.value (.node typeName start arguments (some text) :: below))
  | constant {frames : List Frame} {text : String} {span : ByteSpan} {v : Scalar} {r : Settled}
    {s : State} (hv : constant? text = some v) (hr : settle (.scalar v) span frames = .ok r)
    (hs : Follows t r s) : Move t (.name frames text span) s

variable {t : Lexeme} {s s' : State} {r : Settled} {frame : Frame} {frames below : List Frame}

lemma eq_settled_of_resume {x : Except Problem Settled} (h : resume x = .ok s) :
    ∃ r, x = .ok r ∧ s = .settled r := by
  cases x with
  | error p => cases h
  | ok r => cases h; exact ⟨r, rfl, rfl⟩

lemma closed_or_else {x : Except Stop State}
    (h : (if t.token = .mark frame.closing then resume (close frame below t.span.stop) else x) =
      .ok s) :
    (t.token = .mark frame.closing ∧
      ∃ r, close frame below t.span.stop = .ok r ∧ s = .settled r) ∨ x = .ok s := by
  by_cases hclose : t.token = .mark frame.closing
  · rw [if_pos hclose] at h
    exact .inl ⟨hclose, eq_settled_of_resume h⟩
  · rw [if_neg hclose] at h
    exact .inr h

lemma starts_of_startValue (h : startValue frames t = .ok s) : Starts t frames s := by
  rw [startValue] at h
  split at h
  case h_1 text ht => cases h; exact .name ht
  case h_2 ht => cases h; exact .list ht
  case h_3 ht => cases h; exact .tuple ht
  case h_4 =>
    cases hv : t.token.scalar? with
    | none => simp only [hv] at h; cases h
    | some v =>
      simp only [hv] at h
      obtain ⟨r, hr, rfl⟩ := eq_settled_of_resume h
      exact .leaf hv hr

lemma follows_of_afterValue (h : afterValue t r = .ok s) : Follows t r s := by
  cases r with
  | whole v => cases h
  | inside frame below =>
    rw [afterValue] at h
    by_cases hcomma : t.token = .mark .comma
    · rw [if_pos hcomma] at h
      cases h
      exact .comma hcomma
    · rw [if_neg hcomma] at h
      rcases closed_or_else h with ⟨hclose, r, hr, rfl⟩ | h
      · exact .close hclose hr
      · cases h

lemma move_of_afterName {text : String} {span : ByteSpan}
    (h : afterName frames text span t = .ok s) : Move t (.name frames text span) s := by
  simp only [afterName] at h
  split at h
  case h_1 ht => cases h; exact .node ht
  case h_2 ht => cases h; exact .field ht
  case h_3 =>
    rename_i frames _ _ _ _
    cases hv : constant? text with
    | none => simp only [hv] at h; cases h
    | some v =>
      simp only [hv] at h
      cases hr : settle (.scalar v) span frames with
      | error p => simp only [hr] at h; cases h
      | ok r =>
        simp only [hr] at h
        exact .constant hv hr (follows_of_afterValue h)

theorem move_of_step (h : step s t = .ok s') : Move t s s' := by
  cases s with
  | value frames => exact .value (starts_of_startValue h)
  | item frame below isFirst =>
    rw [step] at h
    rcases closed_or_else h with ⟨hclose, r, hr, rfl⟩ | hopen
    · exact .close hclose hr
    · by_cases hcomma : t.token = .mark .comma ∧ isFirst = true
      · rw [if_pos hcomma] at hopen
        cases hopen
        rw [hcomma.2]
        exact .loneComma hcomma.1
      · rw [if_neg hcomma] at hopen
        exact .item (starts_of_startValue hopen)
  | closing frame below =>
    rw [step] at h
    rcases closed_or_else h with ⟨hclose, r, hr, rfl⟩ | h
    · exact .closeAfterComma hclose hr
    · cases h
  | settled r => exact .settled (follows_of_afterValue h)
  | name frames text span => exact move_of_afterName h

lemma add_cases {c c' : Collected} {a : Argument} (h : c.add a = .ok c') :
    (a.name = "lineno" ∧
      ∃ l, positionValue .line a = .ok l ∧ c' = { c with line := some l }) ∨
    (a.name = "col_offset" ∧
      ∃ m, positionValue .column a = .ok m ∧ c' = { c with column := some m }) ∨
    ((a.name = "end_lineno" ∨ a.name = "end_col_offset") ∧ c' = c) ∨
    (a.name ∉ ["lineno", "col_offset", "end_lineno", "end_col_offset"] ∧
      c' = { c with fields := c.fields ++ [(a.name, a.value)] }) := by
  rw [Collected.add] at h
  by_cases hline : a.name = "lineno"
  · rw [if_pos hline] at h
    cases hl : positionValue .line a with
    | error p => rw [hl] at h; cases h
    | ok l => rw [hl] at h; cases h; exact .inl ⟨hline, l, rfl, rfl⟩
  rw [if_neg hline] at h
  by_cases hcolumn : a.name = "col_offset"
  · rw [if_pos hcolumn] at h
    cases hm : positionValue .column a with
    | error p => rw [hm] at h; cases h
    | ok m => rw [hm] at h; cases h; exact .inr (.inl ⟨hcolumn, m, rfl, rfl⟩)
  rw [if_neg hcolumn] at h
  by_cases hend : a.name = "end_lineno" ∨ a.name = "end_col_offset"
  · rw [if_pos hend] at h
    cases h
    exact .inr (.inr (.inl ⟨hend, rfl⟩))
  · rw [if_neg hend] at h
    cases h
    refine .inr (.inr (.inr ⟨?_, rfl⟩))
    simpa [hline, hcolumn] using hend

lemma settle_cases {v : Node} {span : ByteSpan} (h : settle v span frames = .ok r) :
    (frames = [] ∧ r = .whole v) ∨ ∃ frame below frame', frames = frame :: below ∧
      frame.push v span = .ok frame' ∧ r = .inside frame' below := by
  cases frames with
  | nil => cases h; exact .inl ⟨rfl, rfl⟩
  | cons frame below =>
    rw [settle] at h
    cases hpush : frame.push v span with
    | error p => rw [hpush] at h; cases h
    | ok frame' =>
      rw [hpush] at h
      cases h
      exact .inr ⟨frame, below, frame', rfl, hpush, rfl⟩

lemma close_cases {stop : Nat} (h : close frame below stop = .ok r) :
    ∃ v, frame.value = .ok v ∧ settle v ⟨frame.start, stop⟩ below = .ok r := by
  rw [close] at h
  cases hv : frame.value with
  | error p => rw [hv] at h; cases h
  | ok v => rw [hv] at h; exact ⟨v, rfl, h⟩

lemma finish_cases {stop : Nat} {v : Node} (h : finish stop s = .ok v) :
    s = .settled (.whole v) ∨ ∃ text span leaf, s = .name [] text span ∧
      constant? text = some leaf ∧ v = .scalar leaf := by
  cases s with
  | value | item | closing => cases h
  | settled r =>
    cases r with
    | inside frame below => cases h
    | whole w => cases h; exact .inl rfl
  | name frames text span =>
    rw [finish] at h
    cases hleaf : constant? text with
    | none => simp only [hleaf] at h; cases h
    | some leaf =>
      simp only [hleaf] at h
      cases hr : settle (.scalar leaf) span frames with
      | error p => rw [hr] at h; cases h
      | ok r =>
        rw [hr] at h
        rcases settle_cases hr with ⟨rfl, rfl⟩ | ⟨_, _, _, -, -, rfl⟩
        · cases h; exact .inr ⟨text, span, leaf, rfl, hleaf, rfl⟩
        · cases h

lemma run_cons_ok {stop : Nat} {ts : List Lexeme} {v : Node} (h : run s stop (t :: ts) = .ok v) :
    ∃ s', step s t = .ok s' ∧ run s' t.span.stop ts = .ok v := by
  rw [run] at h
  cases hstep : step s t with
  | error e => rw [hstep] at h; cases h
  | ok s' => rw [hstep] at h; exact ⟨s', rfl, h⟩

lemma read_ok {dump : String} {v : Node} (h : read dump = .ok v) :
    ∃ ls, tokenize dump.toList = .ok ls ∧ ofLexemes ls = .ok v := by
  rw [read] at h
  cases hls : tokenize dump.toList with
  | error ds => rw [hls] at h; cases h
  | ok ls =>
    rw [hls] at h
    cases hv : ofLexemes ls with
    | error p => simp only [Except.bind, hv] at h; cases h
    | ok w =>
      simp only [Except.bind, hv] at h
      cases h
      exact ⟨ls, rfl, hv⟩

lemma read_error {dump : String} {ls : List Lexeme} {ds : List Diagnostic}
    (hls : tokenize dump.toList = .ok ls) (h : read dump = .error ds) :
    ∃ p, ofLexemes ls = .error p ∧ ds = [p.diagnostic] := by
  rw [read, hls] at h
  cases hv : ofLexemes ls with
  | ok v => simp only [Except.bind, hv] at h; cases h
  | error p =>
    simp only [Except.bind, hv] at h
    cases h
    exact ⟨p, rfl, rfl⟩

end SyntaxLens.Dump
