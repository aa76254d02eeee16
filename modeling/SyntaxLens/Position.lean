import SyntaxLens.Text.Blank
import SyntaxLens.Text.Numeral
/-!
# Positions in a source text

A `LineCol` is a place in a text: a line, counted from one, and a column, counted in bytes from
zero. A `Position` is such a place or one of the two ends of the document, which lie before and
after every place.

Both are ordered by a rank in `Nat`: the line decides first and then the column, since columns
stay below `UInt32.size`.
-/

namespace SyntaxLens

/-- A place in a source text. -/
structure LineCol where
  line : UInt32
  column : UInt32
deriving DecidableEq

namespace LineCol

/-- The rank of a place: its line decides first and then its column. -/
def rank (p : LineCol) : Nat :=
  p.line.toNat * UInt32.size + p.column.toNat

instance : LT LineCol := ⟨fun p q => p.rank < q.rank⟩
instance : LE LineCol := ⟨fun p q => p.rank ≤ q.rank⟩
instance (p q : LineCol) : Decidable (p < q) := inferInstanceAs (Decidable (p.rank < q.rank))
instance (p q : LineCol) : Decidable (p ≤ q) := inferInstanceAs (Decidable (p.rank ≤ q.rank))

theorem rank_inj {p q : LineCol} : p.rank = q.rank ↔ p = q := by
  refine ⟨fun h => ?_, fun h => h ▸ rfl⟩
  have hp := p.column.toNat_lt
  have hq := q.column.toNat_lt
  simp only [rank, UInt32.size] at h
  cases p
  cases q
  simp only [LineCol.mk.injEq, ← UInt32.toNat_inj] at *
  omega

theorem lt_iff {p q : LineCol} :
    p < q ↔ p.line < q.line ∨ p.line = q.line ∧ p.column < q.column := by
  have hp := p.column.toNat_lt
  have hq := q.column.toNat_lt
  show p.rank < q.rank ↔ _
  simp only [rank, UInt32.size, UInt32.lt_iff_toNat_lt, ← UInt32.toNat_inj]
  omega

theorem rank_lt (p : LineCol) : p.rank < UInt64.size := by
  have hl := p.line.toNat_lt
  have hc := p.column.toNat_lt
  simp only [rank, UInt32.size, UInt64.size]
  omega

/-- A place as text, the line before the column. -/
def text (p : LineCol) : String :=
  toString p.line.toNat ++ ":" ++ toString p.column.toNat

/-- Why a text names no place. -/
inductive ReadError
  /-- The text has no colon. -/
  | malformed (text : String)
  /-- The part before the colon is not a line number. -/
  | badLine (part : String)
  /-- The part after the colon is not a column number. -/
  | badColumn (part : String)
  /-- Line numbers start at one. -/
  | lineZero (text : String)
deriving DecidableEq

/-- The wording of a refusal. -/
def ReadError.message : ReadError → String
  | .malformed text => s!"expected `LINE:COL`, got `{text}`"
  | .badLine part => s!"invalid line number `{part}`"
  | .badColumn part => s!"invalid column number `{part}`"
  | .lineZero text => s!"line numbers start at 1, got `{text}`"

/-- The parts before and after the first colon. -/
def splitColon? (cs : List Char) : Option (List Char × List Char) :=
  match cs.dropWhile (· ≠ ':') with
  | [] => none
  | _ :: after => some (cs.takeWhile (· ≠ ':'), after)

/-- Reads a place. Blank characters may surround either number; a refusal of a number quotes
its part without the blank characters at the ends of the whole text. -/
def read (s : String) : Except ReadError LineCol :=
  match splitColon? (Text.trim s.toList) with
  | none => .error (.malformed s)
  | some (before, after) =>
    match Text.Numeral.readWord? (Text.trim before) with
    | none => .error (.badLine (String.ofList before))
    | some line =>
      match Text.Numeral.readWord? (Text.trim after) with
      | none => .error (.badColumn (String.ofList after))
      | some column => if line = 0 then .error (.lineZero s) else .ok ⟨line, column⟩

end LineCol

/-- A place in the document or one of its two ends. -/
inductive Position
  /-- Before every place. -/
  | start
  | loc (place : LineCol)
  /-- After every place. -/
  | stop
deriving DecidableEq

namespace Position

def rank : Position → Nat
  | start => 0
  | loc p => p.rank + 1
  | stop => UInt64.size + 1

instance : LT Position := ⟨fun p q => p.rank < q.rank⟩
instance : LE Position := ⟨fun p q => p.rank ≤ q.rank⟩
instance (p q : Position) : Decidable (p < q) := inferInstanceAs (Decidable (p.rank < q.rank))
instance (p q : Position) : Decidable (p ≤ q) := inferInstanceAs (Decidable (p.rank ≤ q.rank))
instance : Coe LineCol Position := ⟨loc⟩

theorem rank_inj {p q : Position} : p.rank = q.rank ↔ p = q := by
  refine ⟨fun h => ?_, fun h => h ▸ rfl⟩
  cases p with
  | start => cases q <;> simp_all [rank]
  | loc p =>
    have := p.rank_lt
    cases q with
    | start => simp [rank] at h
    | loc q => simpa [rank, LineCol.rank_inj] using h
    | stop => simp only [rank] at h; omega
  | stop =>
    cases q with
    | start => simp [rank] at h
    | loc q => have := q.rank_lt; simp only [rank] at h; omega
    | stop => rfl

/-- The place of a position that is no end of the document. -/
def place? : Position → Option LineCol
  | loc p => some p
  | start | stop => none

def text : Position → String
  | start => "start"
  | loc p => p.text
  | stop => "end"

def compare (p q : Position) : Ordering :=
  compareOfLessAndEq p q

end Position

end SyntaxLens
