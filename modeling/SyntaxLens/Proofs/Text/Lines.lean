import Mathlib.Tactic.Common
import SyntaxLens.Proofs.Text.Blank

namespace SyntaxLens.Text

/-- The text has no line feed and does not end in a blank. -/
@[mk_iff fitsLine_iff]
structure FitsLine (cs : List Char) : Prop where
  oneLine : '\n' ∉ cs
  last : ∀ c ∈ cs.getLast?, isBlank c = false

instance (cs : List Char) : Decidable (FitsLine cs) :=
  decidable_of_iff ('\n' ∉ cs ∧ cs.getLast?.all (!isBlank ·) = true) (by
    cases h : cs.getLast? with
    | none => simp [fitsLine_iff, h]
    | some c => simp [fitsLine_iff, h])

/-- The text is one that fits a line with spaces after it. -/
def Spaced (cs : List Char) : Prop :=
  ∃ ds n, FitsLine ds ∧ cs = ds ++ List.replicate n ' '

variable {cs ds sep : List Char}

lemma fitsLine_nil : FitsLine [] :=
  ⟨List.not_mem_nil, nofun⟩

lemma FitsLine.append_left (h : FitsLine ds) (hne : ds ≠ []) (hcs : '\n' ∉ cs) :
    FitsLine (cs ++ ds) := by
  refine ⟨fun hmem => ?_, fun c hc => ?_⟩
  · exact (List.mem_append.mp hmem).elim hcs h.oneLine
  · rw [List.getLast?_append_of_ne_nil cs hne] at hc
    exact h.last c hc

lemma FitsLine.append (hcs : FitsLine cs) (hds : FitsLine ds) : FitsLine (cs ++ ds) := by
  by_cases hne : ds = []
  · rwa [hne, List.append_nil]
  · exact hds.append_left hne hcs.oneLine

lemma FitsLine.join (hcs : FitsLine cs) (hsep : '\n' ∉ sep) (hds : FitsLine ds) (hne : ds ≠ []) :
    FitsLine (cs ++ sep ++ ds) :=
  hds.append_left hne fun hmem => (List.mem_append.mp hmem).elim hcs.oneLine hsep

lemma IsVisible.fitsLine (h : IsVisible cs) : FitsLine cs := by
  refine ⟨fun hmem => ?_, fun c hc => h c (List.mem_of_getLast? hc)⟩
  exact absurd (h '\n' hmem) (by decide)

lemma Spaced.nil : Spaced [] :=
  ⟨[], 0, fitsLine_nil, rfl⟩

lemma Spaced.replicate (n : Nat) : Spaced (List.replicate n ' ') :=
  ⟨[], n, fitsLine_nil, rfl⟩

lemma Spaced.rightpad (h : FitsLine cs) (n : Nat) : Spaced (cs.rightpad n ' ') :=
  ⟨cs, n - cs.length, h, rfl⟩

lemma Spaced.append (hcs : Spaced cs) (hds : Spaced ds) : Spaced (cs ++ ds) := by
  obtain ⟨cs, m, hcs, rfl⟩ := hcs
  obtain ⟨ds, n, hds, rfl⟩ := hds
  by_cases hne : ds = []
  · refine ⟨cs, m + n, hcs, ?_⟩
    rw [hne, List.nil_append, List.append_assoc, List.replicate_append_replicate]
  · refine ⟨cs ++ List.replicate m ' ' ++ ds, n, hds.append_left hne fun hmem => ?_, ?_⟩
    · rcases List.mem_append.mp hmem with hmem | hmem
      · exact hcs.oneLine hmem
      · exact absurd (List.eq_of_mem_replicate hmem) (by decide)
    · rw [List.append_assoc, List.append_assoc, List.append_assoc]

lemma FitsLine.trimEnd_append (h : FitsLine cs) (n : Nat) :
    trimEnd (cs ++ List.replicate n ' ') = cs := by
  rw [trimEnd_append_of_isBlank cs (isBlank_replicate n), trimEnd_of_last h.last]

lemma Spaced.trimEnd (h : Spaced cs) :
    ∃ n, FitsLine (trimEnd cs) ∧ cs = Text.trimEnd cs ++ List.replicate n ' ' := by
  obtain ⟨ds, n, hds, rfl⟩ := h
  rw [hds.trimEnd_append n]
  exact ⟨n, hds, rfl⟩

end SyntaxLens.Text
