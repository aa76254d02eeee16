import SyntaxLens.Span
/-!
# Diagnostics

A `Diagnostic` is a message about a text with labelled byte ranges, one of several kinds and
possibly with a hint. A text that is refused has a list of them, and `summary` is the one line
that stands for the list.
-/

namespace SyntaxLens

inductive Severity
  | error
  | warning
deriving DecidableEq

def Severity.text : Severity → String
  | error => "error"
  | warning => "warning"

/-- The kinds of diagnostics: the first three concern characters, the others tokens. -/
inductive DiagnosticKind
  | unterminatedLiteral
  | unexpectedCharacter
  | invalidEscape
  | unexpectedToken
  | incompleteInput
  | positionalArgument
  | invalidPosition
deriving DecidableEq

namespace DiagnosticKind

def code : DiagnosticKind → String
  | unterminatedLiteral => "E001"
  | unexpectedCharacter => "E002"
  | invalidEscape => "E003"
  | unexpectedToken => "E100"
  | incompleteInput => "E101"
  | positionalArgument => "E102"
  | invalidPosition => "E103"

/-- All kinds, in the order of their codes. -/
def all : List DiagnosticKind :=
  [unterminatedLiteral, unexpectedCharacter, invalidEscape, unexpectedToken, incompleteInput,
    positionalArgument, invalidPosition]

def ofCode? (code : String) : Option DiagnosticKind :=
  all.find? (·.code = code)

/-- What a kind means, in a few words. -/
def description : DiagnosticKind → String
  | unterminatedLiteral => "unterminated string literal"
  | unexpectedCharacter => "unexpected character"
  | invalidEscape => "invalid escape sequence"
  | unexpectedToken => "unexpected token"
  | incompleteInput => "incomplete input"
  | positionalArgument => "positional argument"
  | invalidPosition => "invalid position attribute"

end DiagnosticKind

/-- A remark on a byte range. -/
structure Label where
  span : ByteSpan
  text : String
  isPrimary : Bool
deriving DecidableEq

/-- A message about a text. -/
structure Diagnostic where
  severity : Severity
  kind : Option DiagnosticKind
  message : String
  labels : List Label
  help : Option String
deriving DecidableEq

namespace Diagnostic

/-- An error of a kind at one byte range, labelled with what the kind means. -/
def errorAt (kind : DiagnosticKind) (message : String) (span : ByteSpan)
    (help : Option String) : Diagnostic :=
  ⟨.error, kind, message, [⟨span, kind.description, true⟩], help⟩

/-- The range of the first primary label. -/
def primarySpan? (d : Diagnostic) : Option ByteSpan :=
  (d.labels.find? (·.isPrimary)).map (·.span)

def text (d : Diagnostic) : String :=
  d.severity.text ++ d.kind.elim "" (fun kind => "[" ++ kind.code ++ "]") ++ ": " ++ d.message

/-- One line for a list of diagnostics: the first one and the number of the others. -/
def summary : List Diagnostic → String
  | [] => "invalid dump"
  | [d] => d.text
  | d :: ds => s!"{d.text} (+{ds.length} more)"

end Diagnostic

end SyntaxLens
