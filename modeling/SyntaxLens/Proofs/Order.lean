import Mathlib.Order.Defs.LinearOrder
import Mathlib.Tactic.Common
import SyntaxLens.Span

/-!
# Positions in order

Places and positions are linearly ordered by their ranks, and so the laws of linear orders hold
of them. A place is before another place just as the positions that they are.
-/

namespace SyntaxLens

instance : LinearOrder LineCol where
  le_refl p := Nat.le_refl p.rank
  le_trans _ _ _ h₁ h₂ := Nat.le_trans h₁ h₂
  lt_iff_le_not_ge _ _ := Nat.lt_iff_le_and_not_ge
  le_antisymm _ _ h₁ h₂ := LineCol.rank_inj.mp (Nat.le_antisymm h₁ h₂)
  le_total p q := Nat.le_total p.rank q.rank
  toDecidableLE := inferInstance
  toDecidableLT := inferInstance
  toDecidableEq := inferInstance

instance : LinearOrder Position where
  le_refl p := Nat.le_refl p.rank
  le_trans _ _ _ h₁ h₂ := Nat.le_trans h₁ h₂
  lt_iff_le_not_ge _ _ := Nat.lt_iff_le_and_not_ge
  le_antisymm _ _ h₁ h₂ := Position.rank_inj.mp (Nat.le_antisymm h₁ h₂)
  le_total p q := Nat.le_total p.rank q.rank
  toDecidableLE := inferInstance
  toDecidableLT := inferInstance
  toDecidableEq := inferInstance

lemma LineCol.le_iff {p q : LineCol} :
    p ≤ q ↔ p.line < q.line ∨ p.line = q.line ∧ p.column ≤ q.column := by
  rw [← not_lt, lt_iff]
  simp only [UInt32.lt_iff_toNat_lt, UInt32.le_iff_toNat_le, ← UInt32.toNat_inj]
  omega

namespace Position

/-- The position is not in a line zero. -/
def IsNumbered (p : Position) : Prop :=
  ∀ place, p = loc place → 1 ≤ place.line

@[simp] lemma loc_le_loc {p q : LineCol} : loc p ≤ loc q ↔ p ≤ q :=
  Nat.add_le_add_iff_right

@[simp] lemma loc_lt_loc {p q : LineCol} : loc p < loc q ↔ p < q :=
  Nat.add_lt_add_iff_right

lemma start_le (p : Position) : start ≤ p :=
  Nat.zero_le p.rank

lemma not_loc_le_start {p : LineCol} : ¬loc p ≤ start :=
  Nat.not_succ_le_zero p.rank

lemma not_stop_le_start : ¬stop ≤ start :=
  Nat.not_succ_le_zero UInt64.size

lemma not_stop_le_loc {p : LineCol} : ¬stop ≤ loc p :=
  Nat.not_le.mpr (Nat.add_lt_add_right p.rank_lt 1)

end Position

namespace Span

lemma not_isInverted_iff {s : Span} : ¬s.IsInverted ↔ s.start ≤ s.stop :=
  not_lt

lemma encloses_refl (s : Span) : s.Encloses s :=
  ⟨le_refl _, le_refl _⟩

end Span

end SyntaxLens
