import SyntaxLens.Position
/-!
# Spans

A `Span` is the region between two positions of a source text. Its bounds keep the order in
which they were found, so a span may be inverted. A `ByteSpan` is a range of byte offsets.
-/

namespace SyntaxLens

/-- The region of a source text between two positions. -/
structure Span where
  start : Position
  stop : Position
deriving DecidableEq

namespace Span

/-- The span starts after its own end. -/
def IsInverted (s : Span) : Prop :=
  s.stop < s.start

instance (s : Span) : Decidable s.IsInverted := inferInstanceAs (Decidable (_ < _))

/-- The position lies between the bounds and is neither of them. -/
def ContainsStrictly (s : Span) (p : Position) : Prop :=
  s.start < p ∧ p < s.stop

instance (s : Span) (p : Position) : Decidable (s.ContainsStrictly p) :=
  inferInstanceAs (Decidable (_ ∧ _))

/-- Both bounds of the other span lie between the bounds, which are included. -/
def Encloses (s t : Span) : Prop :=
  s.start ≤ t.start ∧ t.stop ≤ s.stop

instance (s t : Span) : Decidable (s.Encloses t) := inferInstanceAs (Decidable (_ ∧ _))

def text (s : Span) : String :=
  s.start.text ++ " : " ++ s.stop.text

end Span

/-- A range of byte offsets. -/
structure ByteSpan where
  start : Nat
  stop : Nat
deriving DecidableEq

namespace ByteSpan

/-- The empty range at an offset. -/
def point (offset : Nat) : ByteSpan :=
  ⟨offset, offset⟩

/-- The range at the start of a text, used where no range is known. -/
instance : Inhabited ByteSpan := ⟨point 0⟩

/-- The number of bytes in the range. -/
def length (s : ByteSpan) : Nat :=
  s.stop - s.start

/-- The range holds no byte. -/
def isEmpty (s : ByteSpan) : Bool :=
  s.start = s.stop

/-- The smallest range that covers both. -/
def union (s t : ByteSpan) : ByteSpan :=
  ⟨min s.start t.start, max s.stop t.stop⟩

end ByteSpan

end SyntaxLens
