import Mathlib.Tactic.Common
import SyntaxLens.Dump.Reader

/-!
# Printing a syntax tree

`Node.dump` is the dump of a syntax tree: nodes as calls with named arguments, their place as the
last two of these, and scalars as the literals that denote them. `Node.tokens` are the tokens of
that text. The trees that a dump can hold are the ones that are `IsPrintable`.
-/

namespace SyntaxLens

open Dump Dump.Literal

/-- A name as dumps have them: letters, digits and underscores, and no digit in front. -/
def IsName (s : String) : Prop :=
  s.toList.head?.any isNameStart = true ∧ ∀ c ∈ s.toList, isNameChar c = true

instance (s : String) : Decidable (IsName s) :=
  decidable_of_iff (s.toList.head?.any isNameStart = true ∧ s.toList.all isNameChar = true)
    (by rw [IsName, List.all_eq_true])

/-- Decimal digits, at least one of them. -/
def IsDigits (cs : List Char) : Prop :=
  cs ≠ [] ∧ ∀ c ∈ cs, c.isDigit = true

instance (cs : List Char) : Decidable (IsDigits cs) :=
  decidable_of_iff (cs ≠ [] ∧ cs.all Char.isDigit = true) (by rw [IsDigits, List.all_eq_true])

/-- A whole number: digits, with a minus sign in front or without. -/
def IsInteger (cs : List Char) : Prop :=
  ∃ sign whole, cs = sign ++ whole ∧ (sign = [] ∨ sign = ['-']) ∧ IsDigits whole

/-- A point and the digits after it. -/
def IsFraction (cs : List Char) : Prop :=
  ∃ ds, cs = '.' :: ds ∧ ∀ d ∈ ds, d.isDigit = true

/-- An exponent of ten: its letter, a sign or none, and digits. -/
def IsExponent (cs : List Char) : Prop :=
  ∃ letter sign ds, cs = letter :: (sign ++ ds) ∧ (letter = 'e' ∨ letter = 'E') ∧
    (sign = [] ∨ sign = ['+'] ∨ sign = ['-']) ∧ IsDigits ds

/-- An imaginary number: a whole number, a fraction and an exponent if they are wanted, and the
imaginary unit. -/
def IsImaginary (cs : List Char) : Prop :=
  ∃ whole fraction exponent unit, cs = whole ++ (fraction ++ (exponent ++ [unit])) ∧
    IsInteger whole ∧ (fraction = [] ∨ IsFraction fraction) ∧
    (exponent = [] ∨ IsExponent exponent) ∧ (unit = 'j' ∨ unit = 'J')

/-- A leaf that its own text denotes in a dump, floating-point numbers left out. -/
def Scalar.IsPrintable : Scalar → Prop
  | str _ | bytes _ | int _ | bool _ | none => True
  | float _ => False
  | other typeName text =>
    typeName = "ellipsis" ∧ text = "Ellipsis" ∨
    typeName = "int" ∧ IsInteger text.toList ∧
      (intValue text.toList < Int64.minValue.toInt ∨ Int64.maxValue.toInt < intValue text.toList) ∨
    typeName = "complex" ∧ IsImaginary text.toList

/-- The names that arguments with the place of a node have. -/
def positionNames : List String :=
  ["lineno", "col_offset", "end_lineno", "end_col_offset"]

/-- A tree whose types and fields have names, whose fields are no places, whose lines start at one
and whose leaves are printable. -/
inductive Node.IsPrintable : Node → Prop
  | composite {typeName : String} {fields : List (String × Node)} {position : Option LineCol}
      (name : IsName typeName)
      (fieldNames : ∀ f ∈ fields, IsName f.1 ∧ f.1 ∉ positionNames)
      (line : ∀ p ∈ position, 1 ≤ p.line)
      (values : ∀ f ∈ fields, f.2.IsPrintable) : (composite typeName fields position).IsPrintable
  | sequence {kind : SequenceKind} {items : List Node} (values : ∀ v ∈ items, v.IsPrintable) :
      (sequence kind items).IsPrintable
  | scalar {value : Scalar} (leaf : value.IsPrintable) : (scalar value).IsPrintable

/-- The line and the column of a node as named numbers. -/
def positionFields : Option LineCol → List (String × Scalar)
  | none => []
  | some p => [("lineno", .int (Int64.ofNat p.line.toNat)),
      ("col_offset", .int (Int64.ofNat p.column.toNat))]

/-- A named argument as text. -/
def printedArgument (name : String) (value : List Char) : List Char :=
  name.toList ++ '=' :: value

/-- Parts of a text with a comma and a blank between them. -/
def commaSeparated (parts : List (List Char)) : List Char :=
  List.intercalate [',', ' '] parts

namespace Node

mutual

/-- The characters of the dump of a tree. A tuple of one item has a comma after it. -/
def printed : Node → List Char
  | .composite typeName fields position =>
    typeName.toList ++ '(' :: (commaSeparated (printedFields fields ++
      (positionFields position).map fun f => printedArgument f.1 f.2.text.toList) ++ [')'])
  | .sequence .list items => '[' :: (commaSeparated (printedItems items) ++ [']'])
  | .sequence .tuple items =>
    '(' :: (commaSeparated (printedItems items) ++ if items.length = 1 then [',', ')'] else [')'])
  | .scalar value => value.text.toList

def printedFields : List (String × Node) → List (List Char)
  | [] => []
  | (name, value) :: fields => printedArgument name value.printed :: printedFields fields

def printedItems : List Node → List (List Char)
  | [] => []
  | item :: items => item.printed :: printedItems items

end

/-- The dump of a tree. -/
def dump (v : Node) : String :=
  String.ofList v.printed

end Node

/-- The token that denotes a printable leaf. -/
def Scalar.token : Scalar → Token
  | str s => .str s
  | bytes data => .bytes data
  | int n => .number .int (int n).text
  | float x => .number .float x.text
  | bool b => .name (bool b).text
  | none => .name "None"
  | other typeName text =>
    if typeName = "ellipsis" then .name text
    else if typeName = "int" then .number .int text
    else .number .imaginary text

def argumentTokens (name : String) (value : List Token) : List Token :=
  .name name :: .mark .equals :: value

def commaTokens (groups : List (List Token)) : List Token :=
  List.intercalate [.mark .comma] groups

namespace Node

mutual

/-- The tokens of the dump of a tree. -/
def tokens : Node → List Token
  | .composite typeName fields position =>
    .name typeName :: .mark .openParen :: (commaTokens (fieldTokens fields ++
      (positionFields position).map fun f => argumentTokens f.1 [f.2.token]) ++ [.mark .closeParen])
  | .sequence .list items =>
    .mark .openBracket :: (commaTokens (itemTokens items) ++ [.mark .closeBracket])
  | .sequence .tuple items =>
    .mark .openParen :: (commaTokens (itemTokens items) ++
      if items.length = 1 then [.mark .comma, .mark .closeParen] else [.mark .closeParen])
  | .scalar value => [value.token]

def fieldTokens : List (String × Node) → List (List Token)
  | [] => []
  | (name, value) :: fields => argumentTokens name value.tokens :: fieldTokens fields

def itemTokens : List Node → List (List Token)
  | [] => []
  | item :: items => item.tokens :: itemTokens items

end

/-- The fields of a node and its place, as they are printed. -/
def arguments (fields : List (String × Node)) (position : Option LineCol) : List (String × Node) :=
  fields ++ (positionFields position).map fun f => (f.1, .scalar f.2)

lemma printedItems_eq_map (items : List Node) : printedItems items = items.map printed := by
  induction items with
  | nil => rfl
  | cons item items ih => rw [printedItems, ih, List.map_cons]

lemma itemTokens_eq_map (items : List Node) : itemTokens items = items.map tokens := by
  induction items with
  | nil => rfl
  | cons item items ih => rw [itemTokens, ih, List.map_cons]

lemma printed_arguments (fields : List (String × Node)) (position : Option LineCol) :
    (printedFields fields ++
        (positionFields position).map fun f => printedArgument f.1 f.2.text.toList) =
      (arguments fields position).map fun f => printedArgument f.1 f.2.printed := by
  induction fields with
  | nil => simp [printedFields, arguments, printed]
  | cons f fields ih =>
    simp only [printedFields, List.cons_append, ih]
    rfl

lemma tokens_arguments (fields : List (String × Node)) (position : Option LineCol) :
    (fieldTokens fields ++ (positionFields position).map fun f => argumentTokens f.1 [f.2.token]) =
      (arguments fields position).map fun f => argumentTokens f.1 f.2.tokens := by
  induction fields with
  | nil => simp [fieldTokens, arguments, tokens]
  | cons f fields ih =>
    simp only [fieldTokens, List.cons_append, ih]
    rfl

end Node

end SyntaxLens
