import Mathlib.Data.List.TakeWhile
import Mathlib.Tactic.Common
import SyntaxLens.Text.Numeral

/-!
# Digits in a text

Decimal and hexadecimal digits give back the number that they were written for, and numerals are
read as the number that their digits denote. A run of digits, or of other characters of a kind, ends
where the text goes on with a character that is none of them.
-/

namespace SyntaxLens.Text

lemma takeWhile_append_of_head {p : Char → Bool} (cs : List Char) {rest : List Char}
    (h : ∀ c ∈ rest.head?, p c = false) : (cs ++ rest).takeWhile p = cs.takeWhile p := by
  induction cs with
  | nil =>
    cases rest with
    | nil => rfl
    | cons c rest => simp [h c rfl]
  | cons c cs ih => simp only [List.cons_append, List.takeWhile_cons, ih]

/-- Two runs of characters of a kind are the same if texts start with them and go on with
characters of another kind. -/
lemma run_eq_of_append_eq {p : Char → Bool} {a b r s : List Char} (ha : ∀ c ∈ a, p c = true)
    (hb : ∀ c ∈ b, p c = true) (hr : ∀ c ∈ r.head?, p c = false) (hs : ∀ c ∈ s.head?, p c = false)
    (h : a ++ r = b ++ s) : a = b := by
  have hrun := congrArg (List.takeWhile p) h
  rwa [takeWhile_append_of_head a hr, takeWhile_append_of_head b hs,
    List.takeWhile_eq_self_iff.mpr ha, List.takeWhile_eq_self_iff.mpr hb] at hrun

namespace Numeral

lemma isDigit_of_mem_toDigits {n : Nat} : ∀ c ∈ Nat.toDigits 10 n, c.isDigit = true :=
  fun _ hc => Nat.isDigit_of_mem_toDigits (by decide) (by decide) hc

lemma value_toDigits (n : Nat) : value (Nat.toDigits 10 n) = n :=
  Nat.ofDigitChars_ten_toDigits

/-- Digits tell their number in front of a text that goes on with no digit. -/
lemma toDigits_append_inj {m n : Nat} {r s : List Char} (hr : ∀ c ∈ r.head?, c.isDigit = false)
    (hs : ∀ c ∈ s.head?, c.isDigit = false)
    (h : Nat.toDigits 10 m ++ r = Nat.toDigits 10 n ++ s) : m = n ∧ r = s := by
  have hdigits := run_eq_of_append_eq isDigit_of_mem_toDigits isDigit_of_mem_toDigits hr hs h
  have hvalue := congrArg value hdigits
  rw [value_toDigits, value_toDigits] at hvalue
  subst hvalue
  exact ⟨rfl, List.append_cancel_left h⟩

/-- The text is at least one decimal digit after an optional plus sign, and denotes the number. -/
def IsNumeral (cs : List Char) (n : Nat) : Prop :=
  ∃ digits, (cs = digits ∨ cs = '+' :: digits) ∧ digits ≠ [] ∧ (∀ c ∈ digits, c.isDigit = true) ∧
    Nat.ofDigitChars 10 digits 0 = n

lemma isNumeral_toDigits (n : Nat) : IsNumeral (Nat.toDigits 10 n) n :=
  ⟨_, .inl rfl, Nat.toDigits_ne_nil, isDigit_of_mem_toDigits, value_toDigits n⟩

lemma dropPlus_of_isDigit {cs : List Char} (h : ∀ c ∈ cs, c.isDigit = true) : dropPlus cs = cs := by
  unfold dropPlus
  split
  · exact absurd (h '+' List.mem_cons_self) (by decide)
  · rfl

lemma eq_or_eq_cons_dropPlus (cs : List Char) : cs = dropPlus cs ∨ cs = '+' :: dropPlus cs := by
  unfold dropPlus
  split
  · exact .inr rfl
  · exact .inl rfl

lemma isNumeral_iff {cs : List Char} {n : Nat} :
    IsNumeral cs n ↔ read? (dropPlus cs) = some n := by
  have hread : read? (dropPlus cs) = some n ↔ dropPlus cs ≠ [] ∧
      (∀ c ∈ dropPlus cs, c.isDigit = true) ∧ Nat.ofDigitChars 10 (dropPlus cs) 0 = n := by
    rw [read?, Option.ite_none_right_eq_some, List.all_eq_true, and_assoc, Option.some.injEq]
    rfl
  rw [hread]
  constructor
  · rintro ⟨digits, rfl | rfl, hdigits⟩
    · rwa [dropPlus_of_isDigit hdigits.2.1]
    · exact hdigits
  · exact fun hdigits => ⟨_, eq_or_eq_cons_dropPlus cs, hdigits⟩

/-- Numerals of 32 bits are read as their number, and nothing else is read. -/
theorem readWord?_eq_some_iff {cs : List Char} {w : UInt32} :
    readWord? cs = some w ↔ IsNumeral cs w.toNat := by
  rw [isNumeral_iff, readWord?, readBounded?, Option.map_eq_some_iff]
  simp only [Option.filter_eq_some_iff, decide_eq_true_eq]
  constructor
  · rintro ⟨n, ⟨hn, hlt⟩, rfl⟩
    rwa [UInt32.toNat_ofNat_of_lt' hlt]
  · exact fun hw => ⟨w.toNat, ⟨hw, w.toNat_lt⟩, UInt32.ofNat_toNat⟩

lemma readWord?_eq_none_iff {cs : List Char} :
    readWord? cs = none ↔ ∀ w : UInt32, ¬IsNumeral cs w.toNat := by
  simp only [Option.eq_none_iff_forall_ne_some, ne_eq, readWord?_eq_some_iff]

lemma hexDigit?_digitChar : ∀ n < 16, hexDigit? (Nat.digitChar n) = some n := by
  decide

lemma readHex?_hexByte {n : Nat} (h : n < 256) : readHex? (hexByte n) = some n := by
  have hhigh := hexDigit?_digitChar (n / 16 % 16) (by omega)
  have hlow := hexDigit?_digitChar (n % 16) (by omega)
  simp only [readHex?, hexByte, hexDigit, List.foldlM_cons, List.foldlM_nil, hhigh, hlow,
    Option.map_some, Option.bind_eq_bind, Option.bind_some, Option.pure_def, Option.some.injEq]
  omega

end Numeral

end SyntaxLens.Text
