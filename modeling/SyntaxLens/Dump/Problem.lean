import SyntaxLens.Diagnostic
import SyntaxLens.Dump.Token
/-!
# Problems of a token sequence

A `Problem` is the reason why tokens are not the dump of a tree. Where a token does not fit, or
the dump ends too early, it lists what was being read, from the outermost part to the innermost.
-/

namespace SyntaxLens.Dump

/-- A part of a dump that was being read. -/
inductive Expectation
  | value
  | nodeFields
  | fieldValue
  | literal
  | endOfDump
deriving DecidableEq

/-- The name of a part in messages. -/
def Expectation.text : Expectation → String
  | value => "value"
  | nodeFields => "node fields"
  | fieldValue => "field value"
  | literal => "literal"
  | endOfDump => "end of dump"

/-- The two attributes that say where a node starts. -/
inductive PositionPart
  | line
  | column
deriving DecidableEq

namespace PositionPart

/-- The least value of an attribute. -/
def least : PositionPart → Int
  | line => 1
  | column => 0

/-- What values an attribute has. -/
def hint : PositionPart → String
  | line => "`lineno` must be a positive integer"
  | column => "`col_offset` must be a non-negative integer"

end PositionPart

/-- Why tokens are not the dump of a tree. -/
inductive Problem
  /-- A token does not fit. -/
  | unexpected (found : Lexeme) (expected : List Expectation)
  /-- The dump ends, at the given offset, before the tree does. -/
  | incomplete (stop : Nat) (expected : List Expectation)
  /-- An argument of a node has no name. -/
  | positional (span : ByteSpan)
  /-- A value is no line or column. The hint is left out where the number is only too great. -/
  | badPosition (span : ByteSpan) (hint : Option PositionPart)
deriving DecidableEq

namespace Problem

def kind : Problem → DiagnosticKind
  | unexpected _ _ => .unexpectedToken
  | incomplete _ _ => .incompleteInput
  | positional _ => .positionalArgument
  | badPosition _ _ => .invalidPosition

/-- What was expected, after what was found. -/
def expectedText (expected : List Expectation) : String :=
  ": expected " ++ String.intercalate " → " (expected.map Expectation.text)

def message : Problem → String
  | unexpected found expected => "unexpected " ++ found.token.text ++ expectedText expected
  | incomplete _ expected => "dump ends too early" ++ expectedText expected
  | positional _ => DiagnosticKind.positionalArgument.description
  | badPosition _ _ => DiagnosticKind.invalidPosition.description

/-- The bytes that a problem is about. -/
def span : Problem → ByteSpan
  | unexpected found _ => found.span
  | incomplete stop _ => .point stop
  | positional span | badPosition span _ => span

def help : Problem → Option String
  | unexpected _ _ => some "is this the output of `ast.dump`?"
  | incomplete _ _ => some "the dump may have been truncated"
  | positional _ => some "dump the tree with `annotate_fields=True`"
  | badPosition _ hint => hint.map PositionPart.hint

def diagnostic (p : Problem) : Diagnostic :=
  .errorAt p.kind p.message p.span p.help

end Problem

end SyntaxLens.Dump
