import SyntaxLens.Proofs.Dump.Scanning
import SyntaxLens.Proofs.Dump.Torn

/-!
# The beginning of a text

The beginning of a text is cut into the same pieces as the text, up to what is left of the word at
the cut, and it has the same tokens up to there.
-/

namespace SyntaxLens.Dump

def textOf (ps : List Piece) : List Char :=
  ps.flatMap (·.text)

lemma textOf_append (ps qs : List Piece) : textOf (ps ++ qs) = textOf ps ++ textOf qs :=
  List.flatMap_append

lemma Token.EndsBefore.of_append {t : Token} {u more : List Char} (h : t.EndsBefore (u ++ more)) :
    t.EndsBefore u := by
  cases u with
  | nil => nofun
  | cons c u =>
    rintro _ ⟨rfl⟩
    exact h c rfl

lemma Cut.textOf_eq {cs : List Char} {ps : List Piece} (h : Cut cs ps) : textOf ps = cs := by
  induction h with
  | nil => rfl
  | gap hc h ih => exact congrArg (_ :: ·) ih
  | word hw hr h ih => exact congrArg (_ ++ ·) ih

lemma Cut.pieces_eq {cs : List Char} {ps : List Piece} (h : Cut cs ps) :
    ∀ {done later : List Piece} {u more : List Char}, ps = done ++ later →
      textOf later = u ++ more → pieces (textOf done ++ u) = done ++ pieces u := by
  induction h with
  | nil =>
    intro done later u more hps hu
    obtain ⟨rfl, rfl⟩ := List.append_eq_nil_iff.mp hps.symm
    rfl
  | @gap c rest ps hc h ih =>
    intro done later u more hps hu
    cases done with
    | nil => rfl
    | cons p done =>
      obtain ⟨rfl, hrest⟩ := List.cons.inj hps
      have hpieces := ih hrest hu
      change pieces (c :: (textOf done ++ u)) = _
      rw [pieces_separator hc, hpieces]
      rfl
  | @word t w rest ps hw hr h ih =>
    intro done later u more hps hu
    cases done with
    | nil => rfl
    | cons p done =>
      obtain ⟨rfl, rfl⟩ := List.cons.inj hps
      have hpieces := ih rfl hu
      have hrest : rest = textOf done ++ u ++ more := by
        rw [← h.textOf_eq, List.append_assoc, ← hu]
        exact textOf_append done later
      -- what follows the word is cut off, but starts as it did
      rw [hrest] at hr
      change pieces (w ++ textOf done ++ u) = _
      rw [List.append_assoc, pieces_of_isWord hw hr.of_append, hpieces]
      rfl

/-- The end of a text is cut off between two pieces or within a word. -/
lemma Cut.split {cs : List Char} {ps : List Piece} (h : Cut cs ps) :
    ∀ {pre more : List Char}, cs = pre ++ more →
      (∃ done later, ps = done ++ later ∧ pre = textOf done) ∨
      ∃ done t u rest later, ps = done ++ ⟨.token t, u ++ rest⟩ :: later ∧
        pre = textOf done ++ u ∧ IsWord t (u ++ rest) ∧ u ≠ [] ∧ rest ≠ [] := by
  induction h with
  | nil =>
    intro pre more hcs
    exact .inl ⟨[], [], rfl, (List.append_eq_nil_iff.mp hcs.symm).1⟩
  | @gap c rest ps hc h ih =>
    intro pre more hcs
    cases pre with
    | nil => exact .inl ⟨[], _, rfl, rfl⟩
    | cons d pre =>
      obtain ⟨rfl, hrest⟩ := List.cons.inj hcs
      rcases ih hrest with ⟨done, later, rfl, rfl⟩ | ⟨done, t, u, tail, later, rfl, rfl, hw, hne⟩
      · exact .inl ⟨⟨.blank, [c]⟩ :: done, later, rfl, rfl⟩
      · exact .inr ⟨⟨.blank, [c]⟩ :: done, t, u, tail, later, rfl, rfl, hw, hne⟩
  | @word t w rest ps hw hr h ih =>
    intro pre more hcs
    rcases List.append_eq_append_iff.mp hcs with ⟨pre, rfl, hrest⟩ | ⟨tail, rfl, rfl⟩
    · rcases ih hrest with ⟨done, later, rfl, rfl⟩ | ⟨done, s, u, tail, later, rfl, rfl, hs, hne⟩
      · exact .inl ⟨⟨.token t, w⟩ :: done, later, rfl, rfl⟩
      · exact .inr ⟨⟨.token t, w⟩ :: done, s, u, tail, later, rfl, (List.append_assoc ..).symm, hs,
          hne⟩
    · by_cases hpre : pre = []
      · exact .inl ⟨[], _, rfl, hpre⟩
      · by_cases htail : tail = []
        · subst htail
          rw [List.append_nil]
          exact .inl ⟨[⟨.token t, pre⟩], _, rfl, (List.append_nil _).symm⟩
        · exact .inr ⟨[], t, pre, tail, _, rfl, rfl, hw, hpre, htail⟩

lemma Cut.faultless {cs : List Char} {ps : List Piece} (h : Cut cs ps) :
    ∀ p ∈ ps, ∀ f, p.content ≠ .fault f := by
  induction h with
  | nil => nofun
  | gap hc h ih => exact List.forall_mem_cons.mpr ⟨nofun, ih⟩
  | word hw hr h ih => exact List.forall_mem_cons.mpr ⟨nofun, ih⟩

/-- The offset after pieces. -/
def offsetAfter (ps : List Piece) (offset : Nat) : Nat :=
  offset + Text.Utf8.size (textOf ps)

lemma offsetAfter_cons (p : Piece) (ps : List Piece) (offset : Nat) :
    offsetAfter (p :: ps) offset = offsetAfter ps (offset + Text.Utf8.size p.text) := by
  rw [offsetAfter, offsetAfter, Nat.add_assoc, ← Text.Utf8.size_append]
  rfl

lemma lexemesFrom_append (ps qs : List Piece) (offset : Nat) :
    lexemesFrom offset (ps ++ qs) =
      lexemesFrom offset ps ++ lexemesFrom (offsetAfter ps offset) qs := by
  induction ps generalizing offset with
  | nil => rfl
  | cons p ps ih =>
    have hrest := ih (offset + Text.Utf8.size p.text)
    obtain ⟨content, text⟩ := p
    rw [offsetAfter_cons, List.cons_append]
    cases content with
    | token t => exact congrArg (_ :: ·) hrest
    | blank | fault f => exact hrest

lemma faultsFrom_append {ps : List Piece} (h : ∀ p ∈ ps, ∀ f, p.content ≠ .fault f)
    (qs : List Piece) (offset : Nat) :
    faultsFrom offset (ps ++ qs) = faultsFrom (offsetAfter ps offset) qs := by
  induction ps generalizing offset with
  | nil => rfl
  | cons p ps ih =>
    obtain ⟨hp, hps⟩ := List.forall_mem_cons.mp h
    have hrest := ih hps (offset + Text.Utf8.size p.text)
    obtain ⟨content, text⟩ := p
    rw [offsetAfter_cons, List.cons_append]
    cases content with
    | token t | blank => exact hrest
    | fault f => exact absurd rfl (hp f)

section Tokens

variable {cs : List Char} {done qs : List Piece} (hdone : ∀ p ∈ done, ∀ f, p.content ≠ .fault f)
  (hpieces : pieces cs = done ++ qs)

include hdone hpieces

lemma tokenize_of_pieces (hqs : faultsFrom (offsetAfter done 0) qs = []) :
    tokenize cs = .ok (lexemesFrom 0 done ++ lexemesFrom (offsetAfter done 0) qs) := by
  rw [tokenize, hpieces, faultsFrom_append hdone, hqs, lexemesFrom_append]

lemma tokenize_of_faults {d : Diagnostic} {ds : List Diagnostic}
    (hqs : faultsFrom (offsetAfter done 0) qs = d :: ds) : tokenize cs = .error (d :: ds) := by
  rw [tokenize, hpieces, faultsFrom_append hdone, hqs]

end Tokens

end SyntaxLens.Dump
