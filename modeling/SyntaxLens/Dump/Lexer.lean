import SyntaxLens.Diagnostic
import SyntaxLens.Dump.Literal
import SyntaxLens.Text.Utf8
/-!
# Cutting a dump into tokens

`pieces` cuts a dump into blanks, tokens and faults without leaving a character out: the texts of
the pieces, joined in order, are the dump. After a fault the next character is skipped, so one
text can have many of them. `tokenize` gives the tokens with their byte ranges, or one diagnostic
for each fault.
-/

namespace SyntaxLens.Dump

open Literal

/-- Why characters are no token. -/
inductive Fault
  /-- No token starts with the character. -/
  | strayCharacter
  /-- A literal is not closed on its line; the length leaves out the line feed. -/
  | unterminated (length : Nat)
  /-- A backslash in a literal starts no escape; the length is that of the part before it. -/
  | badEscape (kind : QuotedKind) (length : Nat)
deriving DecidableEq

inductive Content
  | blank
  | token (token : Token)
  | fault (fault : Fault)
deriving DecidableEq

/-- A part of a dump. -/
structure Piece where
  content : Content
  text : List Char
deriving DecidableEq

/-- Whether a character separates tokens. -/
def isSeparator (c : Char) : Bool :=
  c = ' ' || c = '\t' || c = '\r' || c = '\n'

/-- Whether a character opens and closes literals. -/
def isQuote (c : Char) : Bool :=
  c = Text.Quoted.apostrophe || c = Text.Quoted.quotationMark

/-- The literal whose opening quote is the last of its first `start` characters, and its length.
A fault includes the character that is skipped after it. -/
def literalPiece (kind : QuotedKind) (start : Nat) (quote : Char) (cs : List Char) :
    Content × Nat :=
  match body kind quote cs with
  | .closed content n => (.token (kind.token content), start + n)
  | .unterminated n => (.fault (.unterminated (start + n)), start + n + 1)
  | .badEscape n => (.fault (.badEscape kind (start + n)), start + n + 2)

/-- The quoted literal at the start of a text. -/
def literal? : List Char → Option (Content × Nat)
  | [] => none
  | c :: cs =>
    if isQuote c then some (literalPiece .text 1 c cs)
    else if c = 'b' then
      match cs with
      | [] => none
      | d :: ds => if isQuote d then some (literalPiece .bytes 2 d ds) else none
    else none

def name? : List Char → Option (Content × Nat)
  | [] => none
  | c :: cs =>
    if isNameStart c then
      let rest := cs.takeWhile isNameChar
      some (.token (.name (String.ofList (c :: rest))), rest.length + 1)
    else none

/-- The piece that starts with the character `c`, and its length. -/
def pieceAt (c : Char) (cs : List Char) : Content × Nat :=
  if isSeparator c then (.blank, 1)
  else
    match literal? (c :: cs) with
    | some found => found
    | none =>
      match number? (c :: cs) with
      | some (kind, length) =>
        (.token (.number kind (String.ofList ((c :: cs).take length))), length)
      | none =>
        match name? (c :: cs) with
        | some found => found
        | none =>
          match Mark.ofChar? c with
          | some mark => (.token (.mark mark), 1)
          | none => (.fault .strayCharacter, 1)

/-- Cuts a dump into pieces. -/
def pieces : List Char → List Piece
  | [] => []
  | c :: cs =>
    let (content, length) := pieceAt c cs
    ⟨content, c :: cs.take (length - 1)⟩ :: pieces (cs.drop (length - 1))
termination_by cs => cs.length
decreasing_by
  simp only [List.length_cons, List.length_drop]
  omega

/-- The tokens of pieces, the first of which starts at the given offset. -/
def lexemesFrom (offset : Nat) : List Piece → List Lexeme
  | [] => []
  | p :: ps =>
    let stop := offset + Text.Utf8.size p.text
    match p.content with
    | .token token => ⟨token, ⟨offset, stop⟩⟩ :: lexemesFrom stop ps
    | .blank | .fault _ => lexemesFrom stop ps

/-- The escapes that a literal may hold, as a hint. -/
def escapeHint : QuotedKind → String
  | .bytes => "bytes literals allow `\\\\`, `\\'`, `\\\"`, `\\n`, `\\r`, `\\t` and `\\xhh`"
  | .text => "valid escapes include `\\\\`, `\\'`, `\\n`, `\\xhh`, `\\uhhhh` and `\\Uhhhhhhhh`"

/-- The diagnostic of a fault in a piece at the given offset. The label of an unclosed literal
covers it up to the place of the failure, all others cover one byte. -/
def Fault.diagnostic (offset : Nat) (text : List Char) : Fault → Diagnostic
  | strayCharacter =>
    .errorAt .unexpectedCharacter "unexpected character" ⟨offset, offset + 1⟩ none
  | unterminated length =>
    .errorAt .unterminatedLiteral "unterminated string literal"
      ⟨offset, offset + Text.Utf8.size (text.take length)⟩
      (some "literals in a dump end on the line they start")
  | badEscape kind length =>
    let backslash := offset + Text.Utf8.size (text.take length)
    .errorAt .invalidEscape "invalid escape sequence" ⟨backslash, backslash + 1⟩
      (some (escapeHint kind))

/-- The diagnostics of pieces, the first of which starts at the given offset. -/
def faultsFrom (offset : Nat) : List Piece → List Diagnostic
  | [] => []
  | p :: ps =>
    let stop := offset + Text.Utf8.size p.text
    match p.content with
    | .fault fault => fault.diagnostic offset p.text :: faultsFrom stop ps
    | .blank | .token _ => faultsFrom stop ps

/-- The tokens of a dump, or what is wrong with its characters. -/
def tokenize (dump : List Char) : Except (List Diagnostic) (List Lexeme) :=
  let ps := pieces dump
  match faultsFrom 0 ps with
  | [] => .ok (lexemesFrom 0 ps)
  | faults => .error faults

end SyntaxLens.Dump
