import SyntaxLens.Scalar
import SyntaxLens.Span
/-!
# Tokens of a dump

A dump is the text of a syntax tree: composites as calls with named arguments, lists in
brackets, tuples in parentheses and scalars as literals. Its tokens are words, literals and six
marks; a number keeps its text.
-/

namespace SyntaxLens.Dump

inductive Mark
  | openParen
  | closeParen
  | openBracket
  | closeBracket
  | comma
  | equals
deriving DecidableEq

namespace Mark

def char : Mark → Char
  | openParen => '('
  | closeParen => ')'
  | openBracket => '['
  | closeBracket => ']'
  | comma => ','
  | equals => '='

def all : List Mark :=
  [openParen, closeParen, openBracket, closeBracket, comma, equals]

def ofChar? (c : Char) : Option Mark :=
  all.find? (·.char = c)

end Mark

/-- The kinds of numbers: digits alone, with a point or an exponent, and with the unit `j`. -/
inductive NumberKind
  | int
  | float
  | imaginary
deriving DecidableEq

/-- A token of a dump. -/
inductive Token
  /-- The name of a type, a field or a constant. -/
  | name (text : String)
  | str (text : String)
  | bytes (data : List UInt8)
  | number (kind : NumberKind) (text : String)
  | mark (mark : Mark)
deriving DecidableEq

/-- A token as messages show it. -/
def Token.text : Token → String
  | name text => s!"`{text}`"
  | str _ => "string literal"
  | bytes _ => "bytes literal"
  | number _ text => s!"number `{text}`"
  | mark m => "`" ++ m.char.toString ++ "`"

/-- A token and the bytes of the dump that it covers. -/
structure Lexeme where
  token : Token
  span : ByteSpan
deriving DecidableEq

/-- The number of an integer literal, which may start with a minus sign. -/
def intValue : List Char → Int
  | '-' :: digits => -(Text.Numeral.value digits : Int)
  | digits => Text.Numeral.value digits

/-- The leaf of an integer literal. Integers of more than 64 bits keep their text. -/
def intScalar (text : String) : Scalar :=
  let n := intValue text.toList
  if Int64.minValue.toInt ≤ n ∧ n ≤ Int64.maxValue.toInt then .int (Int64.ofInt n)
  else .other "int" text

/-- The leaf that a literal token denotes. -/
def Token.scalar? : Token → Option Scalar
  | str text => some (.str text)
  | bytes data => some (.bytes data)
  | number .int text => some (intScalar text)
  | number .float text => (Binary64.read? text.toList).map .float
  | number .imaginary text => some (.other "complex" text)
  | name _ | mark _ => none

/-- The leaf that a name denotes by itself. -/
def constant? (name : String) : Option Scalar :=
  if name = "True" then some (.bool true)
  else if name = "False" then some (.bool false)
  else if name = "None" then some .none
  else if name = "Ellipsis" then some (.other "ellipsis" "Ellipsis")
  else if name = "inf" then some (.float (.infinite false))
  else if name = "nan" then some (.float .nan)
  else none

end SyntaxLens.Dump
