import SyntaxLens.Proofs.Dump.Printing
import SyntaxLens.Proofs.Text.Numeral

/-!
# The texts of numbers

A number is a whole number, a fraction, an exponent and the imaginary unit, the last three if they
are wanted. `number?` finds exactly these texts: what it finds is made of these parts, and it finds
such a text in front of every text that does not go on with the number.
-/

namespace SyntaxLens

open Dump Dump.Literal

/-- The kind of a number with the given parts after its whole part. -/
def Dump.NumberKind.ofParts (fraction exponent unit : List Char) : NumberKind :=
  if unit ≠ [] then imaginary
  else if fraction ≠ [] ∨ exponent ≠ [] then float
  else int

lemma Dump.NumberKind.ofParts_eq_int {fraction exponent unit : List Char}
    (h : ofParts fraction exponent unit = int) : fraction = [] ∧ exponent = [] ∧ unit = [] := by
  unfold ofParts at h
  split_ifs at h with hunit hfloat
  rw [not_or] at hfloat
  exact ⟨not_not.mp hfloat.1, not_not.mp hfloat.2, not_not.mp hunit⟩

/-- The parts of a number and its kind. -/
inductive IsNumber : NumberKind → List Char → Prop
  | ofParts {whole fraction exponent unit : List Char} (hw : IsInteger whole)
    (hf : fraction = [] ∨ IsFraction fraction) (he : exponent = [] ∨ IsExponent exponent)
    (hu : unit = [] ∨ unit = ['j'] ∨ unit = ['J']) :
    IsNumber (.ofParts fraction exponent unit) (whole ++ (fraction ++ (exponent ++ unit)))

lemma isNumber_of_isInteger {cs : List Char} (h : IsInteger cs) : IsNumber .int cs := by
  have hparts := IsNumber.ofParts h (.inl rfl) (.inl rfl) (.inl rfl)
  rwa [List.append_nil, List.append_nil, List.append_nil] at hparts

lemma isNumber_of_isImaginary {cs : List Char} (h : IsImaginary cs) : IsNumber .imaginary cs := by
  obtain ⟨whole, fraction, exponent, unit, rfl, hw, hf, he, hu⟩ := h
  have hunit : [unit] = [] ∨ [unit] = ['j'] ∨ [unit] = ['J'] := .inr (by simpa using hu)
  exact .ofParts hw hf he hunit

namespace Dump

/-- A number of the kind ends where the text starts. -/
def EndsNumber (kind : NumberKind) (rest : List Char) : Prop :=
  ∀ c ∈ rest.head?, isNameChar c = false ∧ (kind = .int → c ≠ '.')

def wholeEnd (cs : List Char) : Nat :=
  signLength cs + digitsLength (cs.drop (signLength cs))

def fractionEnd (cs : List Char) : Nat :=
  wholeEnd cs + fractionLength (cs.drop (wholeEnd cs))

def exponentEnd (cs : List Char) : Nat :=
  fractionEnd cs + exponentLength (cs.drop (fractionEnd cs))

/-- The end of the imaginary unit, where the number ends. -/
def numberEnd (cs : List Char) : Nat :=
  exponentEnd cs + unitLength (cs.drop (exponentEnd cs))

lemma number?_eq (cs : List Char) :
    number? cs =
      if wholeEnd cs = signLength cs ∨ (cs.drop (numberEnd cs)).head?.any isNameChar then none
      else if exponentEnd cs < numberEnd cs then some (.imaginary, numberEnd cs)
      else if wholeEnd cs < exponentEnd cs then some (.float, numberEnd cs)
      else some (.int, numberEnd cs) := by
  have hw : digitsLength (cs.drop (signLength cs)) = 0 ↔ wholeEnd cs = signLength cs := by
    unfold wholeEnd
    omega
  have hu : 0 < unitLength (cs.drop (exponentEnd cs)) ↔ exponentEnd cs < numberEnd cs := by
    unfold numberEnd
    omega
  have hf : 0 < fractionLength (cs.drop (wholeEnd cs)) + exponentLength (cs.drop (fractionEnd cs)) ↔
      wholeEnd cs < exponentEnd cs := by
    unfold exponentEnd fractionEnd
    omega
  simp only [← hw, ← hu, ← hf]
  rfl

lemma number?_of_parts {cs whole fraction exponent unit rest : List Char}
    (hcs : cs = whole ++ (fraction ++ (exponent ++ (unit ++ rest))))
    (hsign : wholeEnd cs ≠ signLength cs) (hw : wholeEnd cs = whole.length)
    (hf : fractionLength (fraction ++ (exponent ++ (unit ++ rest))) = fraction.length)
    (he : exponentLength (exponent ++ (unit ++ rest)) = exponent.length)
    (hu : unitLength (unit ++ rest) = unit.length) :
    number? cs = if rest.head?.any isNameChar then none
      else some (.ofParts fraction exponent unit,
        (whole ++ (fraction ++ (exponent ++ unit))).length) := by
  have hfractionEnd : fractionEnd cs = whole.length + fraction.length := by
    rw [fractionEnd, hw, hcs, List.drop_left, hf]
  have hexponentEnd : exponentEnd cs = whole.length + fraction.length + exponent.length := by
    rw [exponentEnd, hfractionEnd, hcs, ← List.drop_drop, List.drop_left, List.drop_left, he]
  have hnumberEnd : numberEnd cs =
      whole.length + fraction.length + exponent.length + unit.length := by
    rw [numberEnd, hexponentEnd, hcs, ← List.drop_drop, ← List.drop_drop, List.drop_left,
      List.drop_left, List.drop_left, hu]
  have hrest : cs.drop (numberEnd cs) = rest := by
    rw [hnumberEnd, hcs, ← List.drop_drop, ← List.drop_drop, ← List.drop_drop, List.drop_left,
      List.drop_left, List.drop_left, List.drop_left]
  have hlength : (whole ++ (fraction ++ (exponent ++ unit))).length = numberEnd cs := by
    simp only [hnumberEnd, List.length_append]
    omega
  have hunit : exponentEnd cs < numberEnd cs ↔ unit ≠ [] := by
    rw [hnumberEnd, hexponentEnd, ← List.length_pos_iff]
    omega
  have hfloat : wholeEnd cs < exponentEnd cs ↔ fraction ≠ [] ∨ exponent ≠ [] := by
    rw [hw, hexponentEnd, ← List.length_pos_iff, ← List.length_pos_iff]
    omega
  rw [number?_eq, hrest, hlength, NumberKind.ofParts]
  simp only [hsign, false_or, hunit, hfloat]
  split_ifs <;> rfl

lemma digits_split (cs : List Char) :
    ∃ ds rest, cs = ds ++ rest ∧ digitsLength cs = ds.length ∧ ∀ d ∈ ds, d.isDigit = true :=
  ⟨cs.takeWhile Char.isDigit, cs.dropWhile Char.isDigit, List.takeWhile_append_dropWhile.symm, rfl,
    fun _ hd => List.mem_takeWhile_imp hd⟩

lemma sign_split (cs : List Char) :
    ∃ sign rest, cs = sign ++ rest ∧ signLength cs = sign.length ∧ (sign = [] ∨ sign = ['-']) := by
  unfold signLength
  split
  · exact ⟨['-'], _, rfl, rfl, .inr rfl⟩
  · exact ⟨[], _, rfl, rfl, .inl rfl⟩

lemma whole_split {cs : List Char} (h : wholeEnd cs ≠ signLength cs) :
    ∃ whole rest, cs = whole ++ rest ∧ wholeEnd cs = whole.length ∧ IsInteger whole := by
  obtain ⟨sign, after, rfl, hs, hsign⟩ := sign_split cs
  obtain ⟨ds, rest, rfl, hlength, hd⟩ := digits_split after
  have hwhole : wholeEnd (sign ++ (ds ++ rest)) = sign.length + ds.length := by
    rw [wholeEnd, hs, List.drop_left, hlength]
  refine ⟨sign ++ ds, rest, (List.append_assoc ..).symm, ?_, sign, ds, rfl, hsign, ?_, hd⟩
  · rw [hwhole, List.length_append]
  · rintro rfl
    exact h (hwhole.trans hs.symm)

lemma fraction_split (cs : List Char) :
    ∃ fraction rest, cs = fraction ++ rest ∧ fractionLength cs = fraction.length ∧
      (fraction = [] ∨ IsFraction fraction) := by
  unfold fractionLength
  split
  · next cs =>
    obtain ⟨ds, rest, rfl, hlength, hd⟩ := digits_split cs
    refine ⟨'.' :: ds, rest, rfl, ?_, .inr ⟨ds, rfl, hd⟩⟩
    rw [hlength, List.length_cons, Nat.add_comm]
  · exact ⟨[], _, rfl, rfl, .inl rfl⟩

lemma exponentSign_split (cs : List Char) :
    ∃ sign rest, cs = sign ++ rest ∧ exponentSignLength cs = sign.length ∧
      (sign = [] ∨ sign = ['+'] ∨ sign = ['-']) := by
  unfold exponentSignLength
  split
  · exact ⟨['+'], _, rfl, rfl, .inr (.inl rfl)⟩
  · exact ⟨['-'], _, rfl, rfl, .inr (.inr rfl)⟩
  · exact ⟨[], _, rfl, rfl, .inl rfl⟩

lemma exponent_split (cs : List Char) :
    ∃ exponent rest, cs = exponent ++ rest ∧ exponentLength cs = exponent.length ∧
      (exponent = [] ∨ IsExponent exponent) := by
  cases cs with
  | nil => exact ⟨[], [], rfl, rfl, .inl rfl⟩
  | cons c cs =>
    obtain ⟨sign, after, rfl, hs, hsign⟩ := exponentSign_split cs
    obtain ⟨ds, rest, rfl, hlength, hd⟩ := digits_split after
    simp only [exponentLength, hs, List.drop_left, hlength]
    by_cases h : (c = 'e' ∨ c = 'E') ∧ 0 < ds.length
    · rw [if_pos h]
      refine ⟨c :: (sign ++ ds), rest, by simp, ?_, .inr ⟨c, sign, ds, rfl, h.1, hsign, ?_, hd⟩⟩
      · rw [List.length_cons, List.length_append]
        omega
      · exact List.ne_nil_of_length_pos h.2
    · rw [if_neg h]
      exact ⟨[], _, rfl, rfl, .inl rfl⟩

lemma unit_split (cs : List Char) :
    ∃ unit rest, cs = unit ++ rest ∧ unitLength cs = unit.length ∧
      (unit = [] ∨ unit = ['j'] ∨ unit = ['J']) := by
  unfold unitLength
  split
  · exact ⟨['j'], _, rfl, rfl, .inr (.inl rfl)⟩
  · exact ⟨['J'], _, rfl, rfl, .inr (.inr rfl)⟩
  · exact ⟨[], _, rfl, rfl, .inl rfl⟩

lemma head_ne_of_fractionLength {cs : List Char} (h : fractionLength cs = 0) :
    ∀ c ∈ cs.head?, c ≠ '.' := by
  rintro c hc rfl
  obtain ⟨cs, rfl⟩ := List.head?_eq_some_iff.mp hc
  rw [fractionLength] at h
  omega

theorem isNumber_of_number? {cs : List Char} {kind : NumberKind} {n : Nat}
    (h : number? cs = some (kind, n)) :
    ∃ w rest, cs = w ++ rest ∧ n = w.length ∧ IsNumber kind w ∧ EndsNumber kind rest := by
  have hsign : wholeEnd cs ≠ signLength cs := by
    intro heq
    rw [number?_eq, if_pos (.inl heq)] at h
    cases h
  obtain ⟨whole, cs₁, hcs, hw, hwhole⟩ := whole_split hsign
  obtain ⟨fraction, cs₂, rfl, hf, hfraction⟩ := fraction_split cs₁
  obtain ⟨exponent, cs₃, rfl, he, hexponent⟩ := exponent_split cs₂
  obtain ⟨unit, rest, rfl, hu, hunit⟩ := unit_split cs₃
  rw [number?_of_parts hcs hsign hw hf he hu] at h
  by_cases hname : rest.head?.any isNameChar = true
  · rw [if_pos hname] at h
    cases h
  · rw [if_neg hname] at h
    cases h
    refine ⟨_, rest, ?_, rfl, .ofParts hwhole hfraction hexponent hunit, fun c hc => ⟨?_, ?_⟩⟩
    · rw [hcs]
      simp only [List.append_assoc]
    · rw [Option.mem_def.mp hc] at hname
      simpa using hname
    · intro hint
      obtain ⟨rfl, rfl, rfl⟩ := NumberKind.ofParts_eq_int hint
      exact head_ne_of_fractionLength hf c hc

/-! ### A number is found -/

lemma digitsLength_run {ds rest : List Char} (hd : ∀ d ∈ ds, d.isDigit = true)
    (hr : ∀ c ∈ rest.head?, c.isDigit = false) : digitsLength (ds ++ rest) = ds.length := by
  rw [digitsLength, Text.takeWhile_append_of_head ds hr, List.takeWhile_eq_self_iff.mpr hd]

lemma sign_ne_of_isDigit {c : Char} (h : c.isDigit = true) : c ≠ '-' ∧ c ≠ '+' := by
  constructor <;> rintro rfl <;> exact absurd h (by decide)

lemma wholeEnd_of_isInteger {cs : List Char} (h : IsInteger cs) (rest : List Char)
    (hr : ∀ c ∈ rest.head?, c.isDigit = false) :
    wholeEnd (cs ++ rest) = cs.length ∧ wholeEnd (cs ++ rest) ≠ signLength (cs ++ rest) := by
  obtain ⟨sign, whole, rfl, hsign, hne, hd⟩ := h
  obtain ⟨d, ds, rfl⟩ := List.exists_cons_of_ne_nil hne
  have hrun := digitsLength_run hd hr
  have hminus := (sign_ne_of_isDigit (hd d List.mem_cons_self)).1
  have hs : signLength (sign ++ (d :: ds) ++ rest) = sign.length := by
    rcases hsign with rfl | rfl
    · simp [signLength, hminus]
    · rfl
  rw [wholeEnd, hs, List.append_assoc, List.drop_left, hrun, List.length_append, List.length_cons]
  exact ⟨rfl, by omega⟩

lemma fractionLength_of_isFraction {cs rest : List Char} (h : cs = [] ∨ IsFraction cs)
    (hr : ∀ c ∈ rest.head?, c.isDigit = false ∧ (cs = [] → c ≠ '.')) :
    fractionLength (cs ++ rest) = cs.length := by
  rcases h with rfl | ⟨ds, rfl, hd⟩
  · cases rest with
    | nil => rfl
    | cons c rest =>
      have hc := (hr c rfl).2 rfl
      simp [fractionLength, hc]
  · have hrun := digitsLength_run hd (fun c hc => (hr c hc).1)
    simp only [List.cons_append, fractionLength, hrun, List.length_cons]
    omega

lemma exponentLength_of_isExponent {cs rest : List Char} (h : cs = [] ∨ IsExponent cs)
    (hr : ∀ c ∈ rest.head?, c.isDigit = false ∧ c ≠ 'e' ∧ c ≠ 'E') :
    exponentLength (cs ++ rest) = cs.length := by
  rcases h with rfl | ⟨letter, sign, ds, rfl, hl, hsign, hne, hd⟩
  · cases rest with
    | nil => rfl
    | cons c rest =>
      have hc := (hr c rfl).2
      simp [exponentLength, hc]
  · obtain ⟨d, ds, rfl⟩ := List.exists_cons_of_ne_nil hne
    have hrun := digitsLength_run hd (fun c hc => (hr c hc).1)
    have hdigit := sign_ne_of_isDigit (hd d List.mem_cons_self)
    have hs : exponentSignLength (sign ++ (d :: ds ++ rest)) = sign.length := by
      rcases hsign with rfl | rfl | rfl
      · simp [exponentSignLength, hdigit]
      · rfl
      · rfl
    simp only [List.cons_append, List.append_assoc, exponentLength] at hs hrun ⊢
    rw [hs, List.drop_left, hrun, if_pos ⟨hl, by simp⟩]
    simp only [List.length_cons, List.length_append]
    omega

lemma unitLength_of_unit {unit rest : List Char} (h : unit = [] ∨ unit = ['j'] ∨ unit = ['J'])
    (hr : ∀ c ∈ rest.head?, c ≠ 'j' ∧ c ≠ 'J') : unitLength (unit ++ rest) = unit.length := by
  rcases h with rfl | rfl | rfl
  · cases rest with
    | nil => rfl
    | cons c rest =>
      have hc := hr c rfl
      simp [unitLength, hc]
  · rfl
  · rfl

section Heads

variable {fraction exponent unit rest : List Char} (hf : fraction = [] ∨ IsFraction fraction)
  (he : exponent = [] ∨ IsExponent exponent) (hu : unit = [] ∨ unit = ['j'] ∨ unit = ['J'])
  (hr : EndsNumber (.ofParts fraction exponent unit) rest)

include hr

lemma EndsNumber.head_spec : ∀ c ∈ rest.head?,
    c.isDigit = false ∧ c ≠ 'e' ∧ c ≠ 'E' ∧ c ≠ 'j' ∧ c ≠ 'J' := by
  intro c hc
  have hname := (hr c hc).1
  refine ⟨?_, ?_, ?_, ?_, ?_⟩
  · by_contra hd
    simp [isNameChar, Char.isAlphanum, hd] at hname
  all_goals
    rintro rfl
    exact absurd hname (by decide)

include hu

lemma head_unit : ∀ c ∈ (unit ++ rest).head?, c.isDigit = false ∧ c ≠ 'e' ∧ c ≠ 'E' := by
  intro c hc
  rcases hu with rfl | rfl | rfl
  · have hspec := hr.head_spec c hc
    exact ⟨hspec.1, hspec.2.1, hspec.2.2.1⟩
  · cases hc
    decide
  · cases hc
    decide

include he

lemma head_exponent : ∀ c ∈ (exponent ++ (unit ++ rest)).head?,
    c.isDigit = false ∧ (fraction = [] → c ≠ '.') := by
  intro c hc
  rcases he with rfl | ⟨letter, sign, ds, rfl, hl, -, -⟩
  · refine ⟨(head_unit hu hr c hc).1, ?_⟩
    rintro rfl
    rcases hu with rfl | rfl | rfl
    · exact (hr c hc).2 rfl
    · cases hc
      decide
    · cases hc
      decide
  · cases hc
    rcases hl with rfl | rfl <;> exact ⟨by decide, fun _ => by decide⟩

include hf

lemma head_fraction :
    ∀ c ∈ (fraction ++ (exponent ++ (unit ++ rest))).head?, c.isDigit = false := by
  intro c hc
  rcases hf with rfl | ⟨ds, rfl, -⟩
  · exact (head_exponent he hu hr c hc).1
  · cases hc
    decide

end Heads

theorem number?_of_isNumber {kind : NumberKind} {cs rest : List Char} (h : IsNumber kind cs)
    (hr : EndsNumber kind rest) : number? (cs ++ rest) = some (kind, cs.length) := by
  cases h with
  | @ofParts whole fraction exponent unit hw hf he hu =>
    have hcs : whole ++ (fraction ++ (exponent ++ unit)) ++ rest =
        whole ++ (fraction ++ (exponent ++ (unit ++ rest))) := by
      simp only [List.append_assoc]
    obtain ⟨hwhole, hsign⟩ := wholeEnd_of_isInteger hw (fraction ++ (exponent ++ (unit ++ rest)))
      (head_fraction hf he hu hr)
    have hfraction := fractionLength_of_isFraction hf (head_exponent he hu hr)
    have hexponent := exponentLength_of_isExponent he (head_unit hu hr)
    have hunit := unitLength_of_unit hu fun c hc => (hr.head_spec c hc).2.2.2
    rw [hcs, number?_of_parts rfl hsign hwhole hfraction hexponent hunit, if_neg]
    simpa [Option.any_eq_true] using fun c hc => (hr c hc).1

/-! ### A number denotes a leaf -/

lemma endsNumber_nil (kind : NumberKind) : EndsNumber kind [] := by
  intro c hc
  cases hc

lemma read?_of_isDigits {ds : List Char} (h : IsDigits ds) :
    Text.Numeral.read? ds = some (Text.Numeral.value ds) := by
  rw [Text.Numeral.read?, if_pos ⟨h.1, List.all_eq_true.mpr h.2⟩]

lemma readExponent?_isSome {exponent : List Char} (h : exponent = [] ∨ IsExponent exponent) :
    (Binary64.readExponent? exponent).isSome = true := by
  rcases h with rfl | ⟨letter, sign, ds, rfl, hl, hsign, hds⟩
  · rfl
  have hread := read?_of_isDigits hds
  rcases hsign with rfl | rfl | rfl
  · obtain ⟨d, ds, rfl⟩ := List.exists_cons_of_ne_nil hds.1
    have hd := sign_ne_of_isDigit (hds.2 d List.mem_cons_self)
    simp [Binary64.readExponent?, hl, Text.Numeral.dropPlus, hd, hread]
  · simp [Binary64.readExponent?, hl, Text.Numeral.dropPlus, hread]
  · simp [Binary64.readExponent?, hl, hread]

lemma splitFraction_of_isFraction {fraction exponent : List Char}
    (hf : fraction = [] ∨ IsFraction fraction) (he : exponent = [] ∨ IsExponent exponent) :
    (Binary64.splitFraction (fraction ++ exponent)).2 = exponent := by
  rcases hf with rfl | ⟨ds, rfl, hd⟩
  · rcases he with rfl | ⟨letter, sign, ds, rfl, rfl | rfl, -, -⟩ <;> rfl
  · have hhead := head_exponent he (.inl rfl) (endsNumber_nil (.ofParts ('.' :: ds) exponent []))
    rw [List.append_nil, List.append_nil] at hhead
    have hstop : ∀ c ∈ exponent.head?, c.isDigit = false := fun c hc => (hhead c hc).1
    have hrun : (ds ++ exponent).takeWhile Char.isDigit = ds := by
      rw [Text.takeWhile_append_of_head ds hstop, List.takeWhile_eq_self_iff.mpr hd]
    have hsplit := List.takeWhile_append_dropWhile (p := Char.isDigit) (l := ds ++ exponent)
    rw [hrun] at hsplit
    exact List.append_cancel_left hsplit

lemma readUnsigned?_isSome {ds fraction exponent : List Char} (hds : IsDigits ds)
    (hf : fraction = [] ∨ IsFraction fraction) (he : exponent = [] ∨ IsExponent exponent)
    (negative : Bool) :
    (Binary64.readUnsigned? negative (ds ++ (fraction ++ exponent))).isSome = true := by
  have hstop := head_fraction hf he (.inl rfl) (endsNumber_nil (.ofParts fraction exponent []))
  rw [List.append_nil, List.append_nil] at hstop
  have hwhole : (ds ++ (fraction ++ exponent)).takeWhile Char.isDigit = ds := by
    rw [Text.takeWhile_append_of_head ds hstop, List.takeWhile_eq_self_iff.mpr hds.2]
  have hrest := List.takeWhile_append_dropWhile (p := Char.isDigit)
    (l := ds ++ (fraction ++ exponent))
  rw [hwhole] at hrest
  have hsplit := splitFraction_of_isFraction hf he
  rw [← List.append_cancel_left hrest] at hsplit
  unfold Binary64.readUnsigned?
  simp only [hwhole]
  split_ifs with hnan hinf hnone
  · rfl
  · rfl
  · exact absurd hnone.1 hds.1
  · rw [Option.isSome_map, hsplit]
    exact readExponent?_isSome he

lemma read?_isSome_of_isNumber {cs : List Char} (h : IsNumber .float cs) :
    (Binary64.read? cs).isSome = true := by
  generalize hkind : NumberKind.float = kind at h
  cases h with
  | @ofParts whole fraction exponent unit hw hf he hu =>
    obtain rfl : unit = [] := by
      by_contra hne
      rw [NumberKind.ofParts, if_pos hne] at hkind
      cases hkind
    obtain ⟨sign, ds, rfl, hsign, hds⟩ := hw
    rw [List.append_nil, List.append_assoc]
    rcases hsign with rfl | rfl
    · obtain ⟨d, ds', hcons⟩ := List.exists_cons_of_ne_nil hds.1
      have hd := sign_ne_of_isDigit (hds.2 d (hcons ▸ List.mem_cons_self))
      have hread : Binary64.read? ([] ++ (ds ++ (fraction ++ exponent))) =
          Binary64.readUnsigned? false (ds ++ (fraction ++ exponent)) := by
        simp [hcons, Binary64.read?, Text.Numeral.dropPlus, hd]
      rw [hread]
      exact readUnsigned?_isSome hds hf he false
    · exact readUnsigned?_isSome hds hf he true

theorem exists_leaf_of_isNumber {kind : NumberKind} {cs : List Char} (h : IsNumber kind cs) :
    ∃ leaf, (Token.number kind (String.ofList cs)).scalar? = some leaf := by
  cases kind with
  | int => exact ⟨_, rfl⟩
  | imaginary => exact ⟨_, rfl⟩
  | float =>
    obtain ⟨value, hvalue⟩ := Option.isSome_iff_exists.mp (read?_isSome_of_isNumber h)
    refine ⟨.float value, ?_⟩
    rw [Token.scalar?, String.toList_ofList, hvalue, Option.map_some]

end Dump

end SyntaxLens
