import SyntaxLens.Node
import SyntaxLens.Dump.Lexer
import SyntaxLens.Dump.Problem
/-!
# Reading a dump

The reader goes through the tokens once and keeps the open brackets in a list of `Frame`s, the
innermost one first. A `State` says what may come next. A token that does not fit is reported with
the path of the open frames; a name that is the last token counts as cut off, since a bracket or
an equals sign may have followed it.

A node takes named arguments only. The arguments `lineno` and `col_offset` give the place where it
starts, the last one of each winning, `end_lineno` and `end_col_offset` are dropped, and all others
are its fields.
-/

namespace SyntaxLens.Dump

/-- A named argument of a node, and the bytes of its value. -/
structure Argument where
  name : String
  value : Node
  span : ByteSpan

/-- The place and the fields collected from the arguments of a node. -/
structure Collected where
  line : Option UInt32
  column : Option UInt32
  fields : List (String × Node)

/-- The line or column of an argument. -/
def positionValue (part : PositionPart) (a : Argument) : Except Problem UInt32 :=
  match a.value with
  | .scalar (.int n) =>
    if n.toInt < part.least then .error (.badPosition a.span part)
    else if n.toInt < UInt32.size then .ok (UInt32.ofNat n.toInt.toNat)
    else .error (.badPosition a.span none)
  | _ => .error (.badPosition a.span part)

/-- Adds an argument to those before it. -/
def Collected.add (c : Collected) (a : Argument) : Except Problem Collected :=
  if a.name = "lineno" then
    (positionValue .line a).map fun line => { c with line := some line }
  else if a.name = "col_offset" then
    (positionValue .column a).map fun column => { c with column := some column }
  else if a.name = "end_lineno" ∨ a.name = "end_col_offset" then .ok c
  else .ok { c with fields := c.fields ++ [(a.name, a.value)] }

/-- The place where a node starts, which is known if its line is. -/
def Collected.position? (c : Collected) : Option LineCol :=
  c.line.map fun line => ⟨line, c.column.getD 0⟩

/-- The node of a type with the given arguments. -/
def composite (typeName : String) (arguments : List Argument) : Except Problem Node :=
  (arguments.foldlM Collected.add ⟨none, none, []⟩).map fun c =>
    .composite typeName c.fields c.position?

/-- An open bracket, what has been read in it, and the offset where its value starts. -/
inductive Frame
  /-- The arguments of a node, and the name of the one whose value is being read. -/
  | node (typeName : String) (start : Nat) (arguments : List Argument) (field : Option String)
  | sequence (kind : SequenceKind) (start : Nat) (items : List Node)

namespace Frame

/-- The offset where the value of a frame starts. -/
def start : Frame → Nat
  | node _ start _ _ => start
  | sequence _ start _ => start

def closing : Frame → Mark
  | node _ _ _ _ | sequence .tuple _ _ => .closeParen
  | sequence .list _ _ => .closeBracket

/-- The value of a frame that is closed. -/
def value : Frame → Except Problem Node
  | node typeName _ arguments _ => composite typeName arguments
  | sequence kind _ items => .ok (.sequence kind items)

/-- A frame after one more value in it. An argument without a name is refused. -/
def push (v : Node) (span : ByteSpan) : Frame → Except Problem Frame
  | node typeName start arguments (some name) =>
    .ok (node typeName start (arguments ++ [⟨name, v, span⟩]) none)
  | node _ _ _ none => .error (.positional span)
  | sequence kind start items => .ok (sequence kind start (items ++ [v]))

/-- What is being read in a frame. -/
def expectations : Frame → List Expectation
  | node _ _ _ none => [.value, .nodeFields]
  | node _ _ _ (some _) => [.value, .nodeFields, .fieldValue]
  | sequence _ _ _ => [.value]

end Frame

/-- What is being read in open frames, from the outermost to the innermost. -/
def pathOf (frames : List Frame) : List Expectation :=
  frames.reverse.flatMap Frame.expectations

/-- Whether a value has to follow: the whole dump or the value of a named argument. -/
def needsValue : List Frame → Bool
  | [] => true
  | .node _ _ _ field :: _ => field.isSome
  | .sequence _ _ _ :: _ => false

/-- What was expected where a value does not start. -/
def expectedAt (frames : List Frame) : List Expectation :=
  if needsValue frames then pathOf frames ++ [.value, .literal] else pathOf frames

/-- What has been read once a value is complete. -/
inductive Settled
  /-- The whole dump. -/
  | whole (v : Node)
  /-- An item of a bracket that is still open. -/
  | inside (frame : Frame) (below : List Frame)

/-- Hands a complete value to the innermost frame. -/
def settle (v : Node) (span : ByteSpan) : List Frame → Except Problem Settled
  | [] => .ok (.whole v)
  | frame :: below => (frame.push v span).map fun frame => .inside frame below

/-- Closes the innermost frame with a mark that ends at the given offset. -/
def close (frame : Frame) (below : List Frame) (stop : Nat) : Except Problem Settled :=
  frame.value.bind fun v => settle v ⟨frame.start, stop⟩ below

/-- What may come next. -/
inductive State
  /-- A value, which has to follow. -/
  | value (frames : List Frame)
  /-- An item or the closing mark. A comma may stand in the place of all items. -/
  | item (frame : Frame) (below : List Frame) (isFirst : Bool)
  /-- The closing mark alone. -/
  | closing (frame : Frame) (below : List Frame)
  /-- What follows a complete value. -/
  | settled (s : Settled)
  /-- What follows a name where a value or an argument may start. -/
  | name (frames : List Frame) (text : String) (span : ByteSpan)

/-- Why a token ends the reading. -/
inductive Stop
  /-- The token does not fit. -/
  | here (expected : List Expectation)
  /-- The name before the token does not fit. -/
  | before (name : Lexeme) (expected : List Expectation)
  | problem (p : Problem)

/-- The state after a complete value. -/
def resume (s : Except Problem Settled) : Except Stop State :=
  match s with
  | .ok s => .ok (.settled s)
  | .error p => .error (.problem p)

/-- Reads the first token of a value. -/
def startValue (frames : List Frame) (t : Lexeme) : Except Stop State :=
  match t.token with
  | .name text => .ok (.name frames text t.span)
  | .mark .openBracket => .ok (.item (.sequence .list t.span.start []) frames true)
  | .mark .openParen => .ok (.item (.sequence .tuple t.span.start []) frames true)
  | token =>
    match token.scalar? with
    | some leaf => resume (settle (.scalar leaf) t.span frames)
    | none => .error (.here (expectedAt frames))

/-- Reads a token after a complete value. -/
def afterValue (t : Lexeme) : Settled → Except Stop State
  | .whole _ => .error (.here [.endOfDump])
  | .inside frame below =>
    if t.token = .mark .comma then .ok (.item frame below false)
    else if t.token = .mark frame.closing then resume (close frame below t.span.stop)
    else .error (.here (pathOf (frame :: below)))

def afterName (frames : List Frame) (text : String) (span : ByteSpan) (t : Lexeme) :
    Except Stop State :=
  let otherwise : Except Stop State :=
    match constant? text with
    | none => .error (.before ⟨.name text, span⟩ (expectedAt frames))
    | some leaf =>
      match settle (.scalar leaf) span frames with
      | .ok s => afterValue t s
      | .error p => .error (.problem p)
  match t.token, frames with
  | .mark .openParen, _ => .ok (.item (.node text span.start [] none) frames true)
  | .mark .equals, .node typeName start arguments none :: below =>
    .ok (.value (.node typeName start arguments (some text) :: below))
  | _, _ => otherwise

def step (s : State) (t : Lexeme) : Except Stop State :=
  match s with
  | .value frames => startValue frames t
  | .item frame below isFirst =>
    if t.token = .mark frame.closing then resume (close frame below t.span.stop)
    else if t.token = .mark .comma ∧ isFirst then .ok (.closing frame below)
    else startValue (frame :: below) t
  | .closing frame below =>
    if t.token = .mark frame.closing then resume (close frame below t.span.stop)
    else .error (.here (pathOf (frame :: below)))
  | .settled s => afterValue t s
  | .name frames text span => afterName frames text span t

/-- What is expected after a complete value. -/
def Settled.finish (stop : Nat) : Settled → Except Problem Node
  | .whole v => .ok v
  | .inside frame below => .error (.incomplete stop (pathOf (frame :: below)))

/-- Ends the reading after the last token, which ends at the given offset. -/
def finish (stop : Nat) : State → Except Problem Node
  | .value frames => .error (.incomplete stop (expectedAt frames))
  | .item frame below _ | .closing frame below =>
    .error (.incomplete stop (pathOf (frame :: below)))
  | .settled s => s.finish stop
  | .name frames text span =>
    match constant? text with
    | none => .error (.incomplete stop (expectedAt frames))
    | some leaf => (settle (.scalar leaf) span frames).bind (Settled.finish stop)

/-- The problem of a token that ends the reading. A name that is the last token counts as cut
off. -/
def Stop.toProblem (t : Lexeme) (isLast : Bool) : Stop → Problem
  | here expected =>
    match t.token, isLast with
    | .name _, true => .incomplete t.span.stop expected
    | _, _ => .unexpected t expected
  | before name expected => .unexpected name expected
  | problem p => p

/-- Reads tokens from a state on; the token before them ends at the given offset. -/
def run (s : State) (stop : Nat) : List Lexeme → Except Problem Node
  | [] => finish stop s
  | t :: ts =>
    match step s t with
    | .ok s => run s t.span.stop ts
    | .error e => .error (e.toProblem t ts.isEmpty)

/-- The tree of a token sequence. -/
def ofLexemes (ts : List Lexeme) : Except Problem Node :=
  run (.value []) 0 ts

/-- The tree of a dump, or what is wrong with the dump. -/
def read (dump : String) : Except (List Diagnostic) Node :=
  (tokenize dump.toList).bind fun ts => (ofLexemes ts).mapError fun p => [p.diagnostic]

end SyntaxLens.Dump
