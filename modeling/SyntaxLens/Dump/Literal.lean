import SyntaxLens.Text.Quoted
import SyntaxLens.Dump.Token
/-!
# Literals of a dump

`Literal.body` reads a quoted literal up to its closing quote. It stops at a line feed, at the end
of the dump and after a backslash that starts no escape. `Literal.number?` finds the number at the
start of a text. Lengths count characters.
-/

namespace SyntaxLens.Dump.Literal

/-- What a quoted literal denotes. -/
inductive QuotedKind
  | text
  | bytes
deriving DecidableEq

/-- The character that a letter or sign denotes after a backslash. -/
def simpleEscape? (c : Char) : Option Char :=
  if c = '\\' ∨ c = Text.Quoted.apostrophe ∨ c = Text.Quoted.quotationMark then some c
  else if c = 'n' then some '\n'
  else if c = 'r' then some '\r'
  else if c = 't' then some '\t'
  else if c = 'a' then some '\x07'
  else if c = 'b' then some '\x08'
  else if c = 'f' then some '\x0C'
  else if c = 'v' then some '\x0B'
  else if c = '0' then some '\x00'
  else none

/-- The number of hexadecimal digits that a letter after a backslash asks for. Literals of bytes
know the shortest form only. -/
def hexLength? (kind : QuotedKind) (c : Char) : Option Nat :=
  if c = 'x' then some 2
  else if kind = .bytes then none
  else if c = 'u' then some 4
  else if c = 'U' then some 8
  else none

/-- The character denoted by exactly `n` hexadecimal digits at the start of a text. -/
def hexChar? (n : Nat) (cs : List Char) : Option Char :=
  if (cs.take n).length = n then
    (Text.Numeral.readHex? (cs.take n)).bind fun v =>
      if v.isValidChar then some (Char.ofNat v) else none
  else none

/-- The character denoted by an escape after its backslash, and the length of the escape. -/
def escape? (kind : QuotedKind) : List Char → Option (Char × Nat)
  | [] => none
  | c :: cs =>
    match simpleEscape? c with
    | some d => some (d, 1)
    | none => (hexLength? kind c).bind fun n => (hexChar? n cs).map fun d => (d, n + 1)

/-- How the text after an opening quote goes on. -/
inductive Body
  /-- The content, and the length up to and with the closing quote. -/
  | closed (content : List Char) (length : Nat)
  /-- The length up to a line feed or the end. -/
  | unterminated (length : Nat)
  /-- The length up to a backslash that starts no escape. -/
  | badEscape (length : Nat)
deriving DecidableEq

/-- A body with one more character of content in front, which is `length` characters long. -/
def Body.push (c : Char) (length : Nat) : Body → Body
  | closed content n => closed (c :: content) (length + n)
  | unterminated n => unterminated (length + n)
  | badEscape n => badEscape (length + n)

/-- Reads a literal after its opening quote. -/
def body (kind : QuotedKind) (quote : Char) : List Char → Body
  | [] => .unterminated 0
  | c :: cs =>
    if c = quote then .closed [] 1
    else if c = '\n' then .unterminated 0
    else if c = '\\' then
      match escape? kind cs with
      | none => .badEscape 0
      | some (d, n) => (body kind quote (cs.drop n)).push d (n + 1)
    else (body kind quote cs).push c 1
termination_by cs => cs.length
decreasing_by
  all_goals simp only [List.length_cons, List.length_drop]; omega

/-- The bytes denoted by the content of a literal of bytes. A character from U+0100 on stands for
its encoding. -/
def contentBytes (cs : List Char) : List UInt8 :=
  cs.flatMap fun c => if c.toNat < 256 then [UInt8.ofNat c.toNat] else String.utf8EncodeChar c

/-- The token of a literal with the given content. -/
def QuotedKind.token (content : List Char) : QuotedKind → Token
  | text => .str (String.ofList content)
  | bytes => .bytes (contentBytes content)

/-- The number of digits at the start of a text. -/
def digitsLength (cs : List Char) : Nat :=
  (cs.takeWhile Char.isDigit).length

/-- The length of a minus sign at the start of a text. -/
def signLength : List Char → Nat
  | '-' :: _ => 1
  | _ => 0

/-- The length of a point and the digits after it at the start of a text. -/
def fractionLength : List Char → Nat
  | '.' :: cs => 1 + digitsLength cs
  | _ => 0

/-- The length of either sign at the start of a text. -/
def exponentSignLength : List Char → Nat
  | '+' :: _ | '-' :: _ => 1
  | _ => 0

/-- The length of an exponent with at least one digit at the start of a text. -/
def exponentLength : List Char → Nat
  | [] => 0
  | c :: cs =>
    let sign := exponentSignLength cs
    let digits := digitsLength (cs.drop sign)
    if (c = 'e' ∨ c = 'E') ∧ 0 < digits then 1 + sign + digits else 0

/-- The length of the imaginary unit at the start of a text. -/
def unitLength : List Char → Nat
  | 'j' :: _ | 'J' :: _ => 1
  | _ => 0

/-- Whether a character may stand in a name. -/
def isNameChar (c : Char) : Bool :=
  c.isAlphanum || c = '_'

/-- Whether a character may start a name. -/
def isNameStart (c : Char) : Bool :=
  c.isAlpha || c = '_'

/-- The kind and the length of the number at the start of a text. It has a digit before the point,
and no character of a name follows it. -/
def number? (cs : List Char) : Option (NumberKind × Nat) :=
  let sign := signLength cs
  let whole := digitsLength (cs.drop sign)
  let fraction := fractionLength (cs.drop (sign + whole))
  let exponent := exponentLength (cs.drop (sign + whole + fraction))
  let unit := unitLength (cs.drop (sign + whole + fraction + exponent))
  let length := sign + whole + fraction + exponent + unit
  if whole = 0 ∨ (cs.drop length).head?.any isNameChar then none
  else if 0 < unit then some (.imaginary, length)
  else if 0 < fraction + exponent then some (.float, length)
  else some (.int, length)

end SyntaxLens.Dump.Literal
