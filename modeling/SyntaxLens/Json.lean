import SyntaxLens.Text.Numeral
/-!
# JSON documents

The values of JSON with natural numbers only, and their text in two layouts: on a single line,
or with every item and member on a line of its own, indented by two spaces for each level.
-/

namespace SyntaxLens

inductive Json
  | null
  | bool (value : Bool)
  | number (value : Nat)
  | string (text : String)
  | array (items : List Json)
  | object (members : List (String × Json))

namespace Json

/-- How the text of a value is laid out. -/
inductive Layout
  | compact
  | pretty
deriving DecidableEq

/-- The start of a line at a level. -/
def Layout.newline (level : Nat) : Layout → List Char
  | compact => []
  | pretty => '\n' :: List.replicate (2 * level) ' '

/-- What separates a member's name from its value. -/
def Layout.colon : Layout → List Char
  | compact => [':']
  | pretty => [':', ' ']

/-- A character as it is written in a string. -/
def escape (c : Char) : List Char :=
  if c = '\x22' then ['\\', '\x22']
  else if c = '\\' then ['\\', '\\']
  else if c = '\x08' then ['\\', 'b']
  else if c = '\x0C' then ['\\', 'f']
  else if c = '\n' then ['\\', 'n']
  else if c = '\r' then ['\\', 'r']
  else if c = '\t' then ['\\', 't']
  else if c.toNat < 0x20 then '\\' :: 'u' :: '0' :: '0' :: Text.Numeral.hexByte c.toNat
  else [c]

/-- The text of a string in front of what follows it. -/
def quote (s : String) (rest : List Char) : List Char :=
  '\x22' :: s.toList.flatMap escape ++ '\x22' :: rest

mutual

/-- The text of a value at a level in front of what follows it. -/
def render (layout : Layout) (level : Nat) : Json → List Char → List Char
  | null, rest => "null".toList ++ rest
  | bool value, rest => (if value then "true".toList else "false".toList) ++ rest
  | number value, rest => Nat.toDigits 10 value ++ rest
  | string text, rest => quote text rest
  | array [], rest => '[' :: ']' :: rest
  | array items, rest =>
    '[' :: renderItems layout (level + 1) items (layout.newline level ++ ']' :: rest)
  | object [], rest => '\x7b' :: '\x7d' :: rest
  | object members, rest =>
    '\x7b' :: renderMembers layout (level + 1) members (layout.newline level ++ '\x7d' :: rest)

/-- The text of the items of an array at a level in front of what follows them. -/
def renderItems (layout : Layout) (level : Nat) : List Json → List Char → List Char
  | [], rest => rest
  | [item], rest => layout.newline level ++ render layout level item rest
  | item :: items, rest =>
    layout.newline level ++ render layout level item (',' :: renderItems layout level items rest)

/-- The text of the members of an object at a level in front of what follows them. -/
def renderMembers (layout : Layout) (level : Nat) :
    List (String × Json) → List Char → List Char
  | [], rest => rest
  | [(name, value)], rest =>
    layout.newline level ++ quote name (layout.colon ++ render layout level value rest)
  | (name, value) :: members, rest =>
    layout.newline level ++ quote name
      (layout.colon ++ render layout level value (',' :: renderMembers layout level members rest))

end

def text (layout : Layout) (value : Json) : String :=
  String.ofList (value.render layout 0 [])

end Json

end SyntaxLens
