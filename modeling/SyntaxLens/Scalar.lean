import SyntaxLens.Binary64.Text
import SyntaxLens.Text.Quoted
/-!
# Scalars

The leaves of a syntax tree. Each has the name of its type and a text, which is the literal that
denotes it.
-/

namespace SyntaxLens

/-- A leaf of a syntax tree. -/
inductive Scalar
  | str (text : String)
  | bytes (data : List UInt8)
  | int (value : Int64)
  | float (value : Binary64)
  | bool (value : Bool)
  | none
  /-- Any other leaf, known by its type and its text. -/
  | other (typeName text : String)
deriving DecidableEq

namespace Scalar

def typeName : Scalar → String
  | str _ => "str"
  | bytes _ => "bytes"
  | int _ => "int"
  | float _ => "float"
  | bool _ => "bool"
  | none => "NoneType"
  | other typeName _ => typeName

/-- The literal of a byte string. Every byte is written as the character with its number. -/
def bytesText (data : List UInt8) : List Char :=
  'b' :: Text.Quoted.encode (data.map fun b => Char.ofNat b.toNat)

def text : Scalar → String
  | str s => String.ofList (Text.Quoted.encode s.toList)
  | bytes data => String.ofList (bytesText data)
  | int value => toString value.toInt
  | float value => value.text
  | bool value => if value then "True" else "False"
  | none => "None"
  | other _ text => text

end Scalar

end SyntaxLens
