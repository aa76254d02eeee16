import Mathlib.Data.List.DropRight
import SyntaxLens.Text.Blank

namespace SyntaxLens.Text

variable {cs ds : List Char} {c : Char}

/-- All characters of the text are blank. -/
def IsBlank (cs : List Char) : Prop :=
  ∀ c ∈ cs, isBlank c = true

instance (cs : List Char) : Decidable (IsBlank cs) :=
  decidable_of_iff (cs.all isBlank = true) List.all_eq_true

/-- None of the characters of the text is blank. -/
def IsVisible (cs : List Char) : Prop :=
  ∀ c ∈ cs, isBlank c = false

instance (cs : List Char) : Decidable (IsVisible cs) :=
  decidable_of_iff (cs.all (!isBlank ·) = true) (by simp [IsVisible])

lemma isBlank_replicate (n : Nat) : IsBlank (List.replicate n ' ') := by
  intro c hc
  rw [List.eq_of_mem_replicate hc]
  rfl

lemma isBlank_of_graphic (h : 0x20 < c.toNat) (h' : c.toNat < 0x7F) : isBlank c = false := by
  simp only [isBlank, blankRanges, List.any_cons, List.any_nil, Bool.or_eq_false_iff,
    Bool.and_eq_false_iff, decide_eq_false_iff_not, Nat.not_le, and_true]
  omega

lemma isBlank_of_isDigit (h : c.isDigit = true) : isBlank c = false := by
  rw [Char.isDigit, Bool.and_eq_true, decide_eq_true_eq, decide_eq_true_eq] at h
  have hlow : 48 ≤ c.toNat := UInt32.le_iff_toNat_le.mp h.1
  have hhigh : c.toNat ≤ 57 := UInt32.le_iff_toNat_le.mp h.2
  exact isBlank_of_graphic (by omega) (by omega)

lemma isVisible_of_isDigit (h : ∀ c ∈ cs, c.isDigit = true) : IsVisible cs :=
  fun c hc => isBlank_of_isDigit (h c hc)

@[simp] lemma isVisible_append : IsVisible (cs ++ ds) ↔ IsVisible cs ∧ IsVisible ds :=
  List.forall_mem_append

@[simp] lemma isVisible_cons : IsVisible (c :: cs) ↔ isBlank c = false ∧ IsVisible cs :=
  List.forall_mem_cons

lemma trimStart_append_of_isBlank (h : IsBlank cs) (ds : List Char) :
    trimStart (cs ++ ds) = trimStart ds :=
  List.dropWhile_append_of_pos h

lemma trimEnd_append_of_isBlank (cs : List Char) (h : IsBlank ds) :
    trimEnd (cs ++ ds) = trimEnd cs := by
  have hreverse : ∀ c ∈ ds.reverse, isBlank c = true := fun c hc => h c (List.mem_reverse.mp hc)
  rw [trimEnd, List.reverse_append, List.dropWhile_append_of_pos hreverse, trimEnd]

lemma trimStart_append_cons (cs : List Char) (hc : isBlank c = false) (ds : List Char) :
    trimStart (cs ++ c :: ds) = trimStart cs ++ c :: ds := by
  rw [trimStart, List.dropWhile_append, ← trimStart]
  split
  · next hnil => rw [List.isEmpty_iff.mp hnil, List.dropWhile_cons_of_neg (by simp [hc])]; rfl
  · rfl

lemma trimEnd_append_cons (cs : List Char) (hc : isBlank c = false) (ds : List Char) :
    trimEnd (cs ++ c :: ds) = cs ++ c :: trimEnd ds := by
  have hstart := trimStart_append_cons ds.reverse hc cs.reverse
  rw [trimEnd, List.reverse_append, List.reverse_cons, List.append_assoc, List.singleton_append,
    ← trimStart, hstart, List.reverse_append, List.reverse_cons, List.reverse_reverse,
    List.append_assoc, List.singleton_append]
  rfl

lemma trimStart_of_head (h : ∀ c ∈ cs.head?, isBlank c = false) : trimStart cs = cs := by
  cases cs with
  | nil => rfl
  | cons c cs => exact List.dropWhile_cons_of_neg (by simp [h c rfl])

lemma trimEnd_of_last (h : ∀ c ∈ cs.getLast?, isBlank c = false) : trimEnd cs = cs := by
  rcases List.eq_nil_or_concat' cs with rfl | ⟨cs, c, rfl⟩
  · rfl
  · exact trimEnd_append_cons cs (h c List.getLast?_concat) []

lemma exists_trimEnd (cs : List Char) : ∃ ds, IsBlank ds ∧ cs = trimEnd cs ++ ds :=
  ⟨cs.rtakeWhile isBlank, fun _ hc => List.mem_rtakeWhile_imp hc,
    List.rdropWhile_append_rtakeWhile.symm⟩

lemma trim_append_of_isBlank (cs : List Char) (h : IsBlank ds) : trim (cs ++ ds) = trim cs := by
  by_cases hcs : IsBlank cs
  · have hnil {xs : List Char} (hxs : IsBlank xs) : trimStart xs = [] :=
      List.dropWhile_eq_nil_iff.mpr hxs
    have hboth : IsBlank (cs ++ ds) := List.forall_mem_append.mpr ⟨hcs, h⟩
    rw [trim, trim, hnil hcs, hnil hboth]
  · simp only [IsBlank, not_forall, Bool.not_eq_true] at hcs
    obtain ⟨c, hmem, hc⟩ := hcs
    obtain ⟨before, after, rfl⟩ := List.append_of_mem hmem
    have hstart := trimStart_append_cons before hc
    rw [trim, trim, List.append_assoc, List.cons_append, hstart, hstart, ← List.cons_append,
      ← List.append_assoc, trimEnd_append_of_isBlank _ h]

@[simp] lemma trim_trimStart (cs : List Char) : trim (trimStart cs) = trim cs :=
  congrArg trimEnd (List.dropWhile_idempotent isBlank cs)

@[simp] lemma trim_trimEnd (cs : List Char) : trim (trimEnd cs) = trim cs := by
  obtain ⟨ds, hds, hcs⟩ := exists_trimEnd cs
  have htrim := trim_append_of_isBlank (trimEnd cs) hds
  rwa [← hcs, eq_comm] at htrim

lemma trim_surrounded {left right : List Char} (hl : IsBlank left) (hr : IsBlank right)
    (hcs : IsVisible cs) : trim (left ++ (cs ++ right)) = cs := by
  rw [← List.append_assoc, trim_append_of_isBlank _ hr, trim, trimStart_append_of_isBlank hl,
    trimStart_of_head fun c hc => hcs c (List.mem_of_mem_head? hc),
    trimEnd_of_last fun c hc => hcs c (List.mem_of_getLast? hc)]

end SyntaxLens.Text
