import SyntaxLens.Span
import SyntaxLens.Text.Utf8
/-!
# Line tables

A text is a sequence of lines, each but the last one closed by a line break: a line feed, a
carriage return and a line feed, or a carriage return alone. `rowsOf` finds the lines and their
breaks, `LineTable.ofText` their byte ranges, and `LineTable.offset` the byte offset of a
position.
-/

namespace SyntaxLens

inductive LineBreak
  | lf
  | crlf
  | cr
  /-- The last line ends with the text. -/
  | none
deriving DecidableEq

def LineBreak.chars : LineBreak → List Char
  | lf => ['\n']
  | crlf => ['\r', '\n']
  | cr => ['\r']
  | none => []

/-- A line with what closes it. -/
structure Row where
  chars : List Char
  ending : LineBreak
deriving DecidableEq

/-- Puts a character in front of the first line. -/
def pushChar (c : Char) : List Row → List Row
  | [] => [⟨[c], .none⟩]
  | row :: rows => ⟨c :: row.chars, row.ending⟩ :: rows

/-- The lines of a text, of which there is at least one. -/
def rowsOf : List Char → List Row
  | [] => [⟨[], .none⟩]
  | '\n' :: cs => ⟨[], .lf⟩ :: rowsOf cs
  | '\r' :: '\n' :: cs => ⟨[], .crlf⟩ :: rowsOf cs
  | '\r' :: cs => ⟨[], .cr⟩ :: rowsOf cs
  | c :: cs => pushChar c (rowsOf cs)

/-- The number of bytes of the longest start of a line that has at most `column` bytes. -/
def floorColumn : Nat → List Char → Nat
  | _, [] => 0
  | column, c :: cs =>
    if c.utf8Size ≤ column then c.utf8Size + floorColumn (column - c.utf8Size) cs else 0

/-- A line of a text and its byte range, which leaves out the line break. -/
structure Line where
  chars : List Char
  range : ByteSpan

/-- Lines with their byte ranges, the first of which starts at the given offset. -/
def placeRows (start : Nat) : List Row → List Line
  | [] => []
  | row :: rows =>
    let stop := start + Text.Utf8.size row.chars
    ⟨row.chars, ⟨start, stop⟩⟩ :: placeRows (stop + Text.Utf8.size row.ending.chars) rows

/-- The part of a sequence of characters that starts in a byte range. -/
def sliceFrom (offset : Nat) (range : ByteSpan) : List Char → List Char
  | [] => []
  | c :: cs =>
    let rest := sliceFrom (offset + c.utf8Size) range cs
    if range.start ≤ offset ∧ offset < range.stop then c :: rest else rest

/-- The lines of a text. -/
structure LineTable where
  chars : List Char
  lines : List Line

namespace LineTable

def ofText (source : String) : LineTable :=
  ⟨source.toList, placeRows 0 (rowsOf source.toList)⟩

/-- The number of bytes of the text. -/
def size (t : LineTable) : Nat :=
  Text.Utf8.size t.chars

/-- A number as 32 bits; greater numbers become the greatest one. -/
def saturate (n : Nat) : UInt32 :=
  UInt32.ofNat (min n (UInt32.size - 1))

/-- The place after the last character. -/
def endOfDocument (t : LineTable) : LineCol :=
  ⟨saturate t.lines.length, saturate (t.lines.getLast?.elim 0 fun line => line.range.length)⟩

/-- The byte offset of a position. Lines after the last one map to the end of the text, columns
after the end of a line to that end, and offsets within a character to its start. The line
number zero counts as one. -/
def offset (t : LineTable) : Position → Nat
  | .start => 0
  | .stop => t.size
  | .loc p =>
    match t.lines[p.line.toNat - 1]? with
    | none => t.size
    | some line => line.range.start + floorColumn p.column.toNat line.chars

/-- The byte range between the bounds of a span, the lesser one first. -/
def range (t : LineTable) (s : Span) : ByteSpan :=
  ⟨min (t.offset s.start) (t.offset s.stop), max (t.offset s.start) (t.offset s.stop)⟩

/-- The text between the bounds of a span. -/
def slice (t : LineTable) (s : Span) : String :=
  String.ofList (sliceFrom 0 (t.range s) t.chars)

end LineTable

end SyntaxLens
