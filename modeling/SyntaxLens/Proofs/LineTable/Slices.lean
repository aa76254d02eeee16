import Mathlib.Tactic.Common
import SyntaxLens.LineTable

namespace SyntaxLens

variable {offset : Nat} {range : ByteSpan}

lemma sliceFrom_append (xs ys : List Char) : sliceFrom offset range (xs ++ ys) =
    sliceFrom offset range xs ++ sliceFrom (offset + Text.Utf8.size xs) range ys := by
  induction xs generalizing offset with
  | nil => rfl
  | cons c xs ih =>
    rw [List.cons_append, sliceFrom, sliceFrom, ih, Text.Utf8.size_cons, ← Nat.add_assoc]
    by_cases h : range.start ≤ offset ∧ offset < range.stop
    · rw [if_pos h, if_pos h, List.cons_append]
    · rw [if_neg h, if_neg h]

lemma sliceFrom_of_stop_le (cs : List Char) (h : range.stop ≤ offset) :
    sliceFrom offset range cs = [] := by
  induction cs generalizing offset with
  | nil => rfl
  | cons c cs ih => rw [sliceFrom, if_neg (by omega), ih (by omega)]

lemma sliceFrom_of_le_start (cs : List Char) (h : offset + Text.Utf8.size cs ≤ range.start) :
    sliceFrom offset range cs = [] := by
  induction cs generalizing offset with
  | nil => rfl
  | cons c cs ih =>
    have hc := c.utf8Size_pos
    rw [Text.Utf8.size_cons] at h
    rw [sliceFrom, if_neg (by omega), ih (by omega)]

lemma sliceFrom_of_within (cs : List Char) (hstart : range.start ≤ offset)
    (hstop : offset + Text.Utf8.size cs ≤ range.stop) : sliceFrom offset range cs = cs := by
  induction cs generalizing offset with
  | nil => rfl
  | cons c cs ih =>
    have hc := c.utf8Size_pos
    rw [Text.Utf8.size_cons] at hstop
    rw [sliceFrom, if_pos (by omega), ih (by omega) (by omega)]

/-- The slices of two ranges that meet make up the slice of the whole range. -/
theorem sliceFrom_append_sliceFrom {a b c : Nat} (hab : a ≤ b) (hbc : b ≤ c) (cs : List Char) :
    sliceFrom offset ⟨a, b⟩ cs ++ sliceFrom offset ⟨b, c⟩ cs = sliceFrom offset ⟨a, c⟩ cs := by
  induction cs generalizing offset with
  | nil => rfl
  | cons d cs ih =>
    simp only [sliceFrom]
    rw [← ih]
    by_cases hb : offset < b
    · rw [if_neg (show ¬(b ≤ offset ∧ offset < c) by omega)]
      by_cases ha : a ≤ offset
      · rw [if_pos ⟨ha, hb⟩, if_pos ⟨ha, by omega⟩, List.cons_append]
      · rw [if_neg (by omega), if_neg (by omega)]
    · -- nothing is left of the first range
      have hrest : sliceFrom (offset + d.utf8Size) ⟨a, b⟩ cs = [] :=
        sliceFrom_of_stop_le cs (Nat.le_trans (Nat.not_lt.mp hb) (Nat.le_add_right _ _))
      rw [if_neg (by omega), hrest, List.nil_append, List.nil_append]
      by_cases hc : offset < c
      · rw [if_pos (by omega), if_pos (by omega)]
      · rw [if_neg (by omega), if_neg (by omega)]

theorem sliceFrom_part (xs word ys : List Char) :
    sliceFrom offset ⟨offset + Text.Utf8.size xs, offset + Text.Utf8.size xs +
      Text.Utf8.size word⟩ (xs ++ (word ++ ys)) = word := by
  rw [sliceFrom_append, sliceFrom_append, sliceFrom_of_le_start xs, sliceFrom_of_within word,
    sliceFrom_of_stop_le ys, List.nil_append, List.append_nil]
  all_goals exact Nat.le_refl _

namespace LineTable

lemma slice_of_le {t : LineTable} {p q : Position} (h : t.offset p ≤ t.offset q) :
    t.slice ⟨p, q⟩ = String.ofList (sliceFrom 0 ⟨t.offset p, t.offset q⟩ t.chars) := by
  rw [slice, range, Nat.min_eq_left h, Nat.max_eq_right h]

lemma slice_append_slice {t : LineTable} {p q r : Position} (hpq : t.offset p ≤ t.offset q)
    (hqr : t.offset q ≤ t.offset r) : t.slice ⟨p, q⟩ ++ t.slice ⟨q, r⟩ = t.slice ⟨p, r⟩ := by
  rw [slice_of_le hpq, slice_of_le hqr, slice_of_le (Nat.le_trans hpq hqr),
    ← sliceFrom_append_sliceFrom hpq hqr, String.ofList_append]

end LineTable

end SyntaxLens
