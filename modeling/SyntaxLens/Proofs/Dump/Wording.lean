import Mathlib
import SyntaxLens.Proofs.Dump.Derivation
import SyntaxLens.Proofs.Dump.Scanning
import SyntaxLens.Proofs.Text.Lines

namespace SyntaxLens

open Text

namespace Binary64

variable {digits : List Char}

lemma isVisible_positional (h : IsVisible digits) (place : Int) :
    IsVisible (positional digits place) := by
  have hzeros (n : Nat) : IsVisible (List.replicate n '0') := by
    intro c hc
    rw [List.eq_of_mem_replicate hc]
    rfl
  unfold positional
  split_ifs
  · exact isVisible_append.mpr ⟨isVisible_cons.mpr ⟨rfl, isVisible_cons.mpr ⟨rfl, hzeros _⟩⟩, h⟩
  · exact isVisible_append.mpr ⟨fun c hc => h c (List.mem_of_mem_take hc),
      isVisible_cons.mpr ⟨rfl, fun c hc => h c (List.mem_of_mem_drop hc)⟩⟩
  · exact isVisible_append.mpr ⟨isVisible_append.mpr ⟨h, hzeros _⟩, by decide⟩

lemma isVisible_scientific (h : IsVisible digits) (place : Int) :
    IsVisible (scientific digits place) := by
  have hsign : IsVisible (if place - 1 < 0 then ['-'] else []) := by
    split <;> decide
  have hexponent : IsVisible ('e' :: (toString (place - 1)).toList) := by
    rw [Dump.toList_toString_int]
    exact isVisible_cons.mpr ⟨rfl, isVisible_append.mpr
      ⟨hsign, isVisible_of_isDigit Numeral.isDigit_of_mem_toDigits⟩⟩
  have hfraction : IsVisible (if 1 < digits.length then '.' :: digits.drop 1 else []) := by
    split
    · exact isVisible_cons.mpr ⟨rfl, fun c hc => h c (List.mem_of_mem_drop hc)⟩
    · decide
  exact isVisible_append.mpr ⟨isVisible_append.mpr
    ⟨fun c hc => h c (List.mem_of_mem_take hc), hfraction⟩, hexponent⟩

lemma isVisible_text (x : Binary64) : IsVisible x.text.toList := by
  have hsign (negative : Bool) : IsVisible (if negative then "-" else "").toList := by
    cases negative <;> decide
  cases x with
  | nan => decide
  | infinite negative => cases negative <;> decide
  | finite negative m q =>
    have hdigits := isVisible_of_isDigit (Numeral.isDigit_of_mem_toDigits (n := (shortest m q).1))
    rw [text, String.toList_append, isVisible_append]
    refine ⟨hsign negative, ?_⟩
    split
    · decide
    · rw [String.toList_ofList, decimalText]
      split
      · exact isVisible_positional hdigits _
      · exact isVisible_scientific hdigits _

lemma text_ne_nil (x : Binary64) : x.text.toList ≠ [] := by
  have hpositional (digits : List Char) (place : Int) : positional digits place ≠ [] := by
    unfold positional
    split_ifs <;> simp
  have hscientific (digits : List Char) (place : Int) : scientific digits place ≠ [] := by
    simp [scientific]
  cases x with
  | nan => decide
  | infinite negative => cases negative <;> decide
  | finite negative m q =>
    rw [text, String.toList_append]
    apply List.append_ne_nil_of_right_ne_nil
    split
    · decide
    · rw [String.toList_ofList, decimalText]
      split
      · exact hpositional _ _
      · exact hscientific _ _

end Binary64

namespace Dump

lemma isVisible_of_isInteger {cs : List Char} (h : IsInteger cs) : cs ≠ [] ∧ IsVisible cs := by
  obtain ⟨sign, whole, rfl, hsign, hne, hdigits⟩ := h
  refine ⟨List.append_ne_nil_of_right_ne_nil sign hne, ?_⟩
  rw [isVisible_append]
  refine ⟨?_, isVisible_of_isDigit hdigits⟩
  rcases hsign with rfl | rfl <;> decide

lemma isVisible_of_isNumber {kind : NumberKind} {cs : List Char} (h : IsNumber kind cs) :
    cs ≠ [] ∧ IsVisible cs := by
  obtain ⟨hw, hf, he, hu⟩ := h
  rename_i whole fraction exponent unit
  have hfraction : IsVisible fraction := by
    rcases hf with rfl | ⟨ds, rfl, hds⟩
    · decide
    · exact isVisible_cons.mpr ⟨rfl, isVisible_of_isDigit hds⟩
  have hexponent : IsVisible exponent := by
    rcases he with rfl | ⟨letter, sign, ds, rfl, hletter, hsign, -, hds⟩
    · decide
    · refine isVisible_cons.mpr ⟨?_, isVisible_append.mpr ⟨?_, isVisible_of_isDigit hds⟩⟩
      · rcases hletter with rfl | rfl <;> rfl
      · rcases hsign with rfl | rfl | rfl <;> decide
  have hunit : IsVisible unit := by
    rcases hu with rfl | rfl | rfl <;> decide
  obtain ⟨hne, hwhole⟩ := isVisible_of_isInteger hw
  refine ⟨List.append_ne_nil_of_left_ne_nil hne _, ?_⟩
  rw [isVisible_append, isVisible_append, isVisible_append]
  exact ⟨hwhole, hfraction, hexponent, hunit⟩

lemma isBlank_of_isNameChar {c : Char} (h : Literal.isNameChar c = true) : isBlank c = false := by
  have hrange {low high : Char} (hlow : 0x20 < low.toNat) (hhigh : high.toNat < 0x7F)
      (hc : c.val ≥ low.val ∧ c.val ≤ high.val) : isBlank c = false :=
    isBlank_of_graphic (hlow.trans_le (UInt32.le_iff_toNat_le.mp hc.1))
      ((UInt32.le_iff_toNat_le.mp hc.2).trans_lt hhigh)
  simp only [Literal.isNameChar, Char.isAlphanum, Char.isAlpha, Char.isUpper, Char.isLower,
    Char.isDigit, Bool.or_eq_true, Bool.and_eq_true, decide_eq_true_eq] at h
  rcases h with ((h | h) | h) | rfl
  · exact hrange (by decide) (by decide) h
  · exact hrange (by decide) (by decide) h
  · exact hrange (by decide) (by decide) h
  · rfl

lemma isVisible_of_isName {s : String} (h : IsName s) : s.toList ≠ [] ∧ IsVisible s.toList := by
  refine ⟨fun hnil => ?_, fun c hc => isBlank_of_isNameChar (h.2 c hc)⟩
  have hhead := h.1
  rw [hnil] at hhead
  cases hhead

lemma newline_notMem_escape {quote : Char} (hquote : quote ≠ '\n') (c : Char) :
    '\n' ∉ Quoted.escape quote c := by
  have hdigit : ∀ k < 16, Nat.digitChar k ≠ '\n' := by decide
  have hhex (n : Nat) : '\n' ≠ Numeral.hexDigit n :=
    (hdigit (n % 16) (Nat.mod_lt n (by decide))).symm
  unfold Quoted.escape
  split_ifs with _ hnewline
  · decide
  · decide
  · decide
  · decide
  · simp [hquote.symm]
  · simp [Numeral.hexByte, hhex]
  · simp [Ne.symm hnewline]

lemma fitsLine_encode (cs : List Char) :
    Quoted.encode cs ≠ [] ∧ FitsLine (Quoted.encode cs) := by
  have hquote : Quoted.quoteFor cs ≠ '\n' ∧ isBlank (Quoted.quoteFor cs) = false := by
    rcases quoteFor_spec cs with h | h <;> rw [h] <;> decide
  have hclosing : IsVisible [Quoted.quoteFor cs] := isVisible_cons.mpr ⟨hquote.2, nofun⟩
  refine ⟨List.cons_ne_nil _ _, hclosing.fitsLine.append_left (List.cons_ne_nil _ _) ?_⟩
  rw [List.mem_cons, not_or, List.mem_flatMap]
  exact ⟨hquote.1.symm, fun ⟨c, _, hc⟩ => newline_notMem_escape hquote.1 c hc⟩

end Dump

/-- The type and the text of a leaf fit a line, and the text is not empty. -/
structure Scalar.FitsLine (value : Scalar) : Prop where
  typeName : Text.FitsLine value.typeName.toList
  text : Text.FitsLine value.text.toList
  text_ne_nil : value.text.toList ≠ []

/-- The types and fields of the tree are names, and its leaves fit a line. -/
inductive Node.FitsLine : Node → Prop
  | composite {typeName : String} {fields : List (String × Node)} {position : Option LineCol}
    (htype : IsName typeName) (hnames : ∀ f ∈ fields, IsName f.1)
    (hvalues : ∀ f ∈ fields, FitsLine f.2) : FitsLine (.composite typeName fields position)
  | sequence {kind : SequenceKind} {items : List Node} (hi : ∀ v ∈ items, FitsLine v) :
    FitsLine (.sequence kind items)
  | scalar {value : Scalar} (h : value.FitsLine) : FitsLine (.scalar value)

namespace Dump

lemma fitsLine_str (s : String) : (Scalar.str s).FitsLine := by
  have htype : IsVisible "str".toList := by decide
  obtain ⟨hne, htext⟩ := fitsLine_encode s.toList
  refine ⟨htype.fitsLine, ?_, ?_⟩
  · rwa [Scalar.text, String.toList_ofList]
  · rwa [Scalar.text, String.toList_ofList]

lemma fitsLine_bytes (data : List UInt8) : (Scalar.bytes data).FitsLine := by
  have htype : IsVisible "bytes".toList := by decide
  obtain ⟨hne, htext⟩ := fitsLine_encode (data.map fun b => Char.ofNat b.toNat)
  refine ⟨htype.fitsLine, ?_, ?_⟩
  · rw [Scalar.text, String.toList_ofList]
    exact htext.append_left hne (show '\n' ∉ ['b'] by decide)
  · rw [Scalar.text, String.toList_ofList]
    exact List.cons_ne_nil _ _

lemma fitsLine_of_isVisible {value : Scalar} (htype : IsVisible value.typeName.toList)
    (htext : value.text.toList ≠ [] ∧ IsVisible value.text.toList) : value.FitsLine :=
  ⟨htype.fitsLine, htext.2.fitsLine, htext.1⟩

lemma fitsLine_int (n : Int64) : (Scalar.int n).FitsLine :=
  fitsLine_of_isVisible (show IsVisible "int".toList by decide)
    (isVisible_of_isInteger (isInteger_toString n.toInt))

lemma fitsLine_float (x : Binary64) : (Scalar.float x).FitsLine :=
  fitsLine_of_isVisible (show IsVisible "float".toList by decide) ⟨x.text_ne_nil, x.isVisible_text⟩

lemma fitsLine_constant {name : String} {value : Scalar} (h : constant? name = some value) :
    value.FitsLine := by
  unfold constant? at h
  split_ifs at h <;> cases h <;> exact fitsLine_of_isVisible (by decide) (by decide)

lemma fitsLine_number {kind : NumberKind} {cs : List Char} {value : Scalar} (hcs : IsNumber kind cs)
    (h : (Token.number kind (String.ofList cs)).scalar? = some value) : value.FitsLine := by
  have hother {typeName : String} (htype : IsVisible typeName.toList) :
      (Scalar.other typeName (String.ofList cs)).FitsLine := by
    refine fitsLine_of_isVisible htype ?_
    rw [Scalar.text, String.toList_ofList]
    exact isVisible_of_isNumber hcs
  cases kind with
  | int =>
    cases h
    simp only [intScalar]
    split
    · exact fitsLine_int _
    · exact hother (by decide)
  | float =>
    obtain ⟨x, -, rfl⟩ := Option.map_eq_some_iff.mp h
    exact fitsLine_float x
  | imaginary =>
    cases h
    exact hother (by decide)

lemma fitsLine_leaf {t : Token} {w : List Char} {value : Scalar} (hw : IsWord t w)
    (h : t.leaf? = some value) : value.FitsLine := by
  cases hw with
  | name hname => exact fitsLine_constant h
  | number hn => exact fitsLine_number hn h
  | str hq hbody =>
    cases h
    exact fitsLine_str _
  | bytes hq hbody =>
    cases h
    exact fitsLine_bytes _
  | mark m => cases h

lemma Cut.exists_word {cs : List Char} {ps : List Piece} (h : Cut cs ps) {t : Token}
    (ht : t ∈ ps.filterMap (·.content.token?)) : ∃ w, IsWord t w := by
  obtain ⟨⟨content, w⟩, hp, htoken⟩ := List.mem_filterMap.mp ht
  cases content with
  | blank | fault f => cases htoken
  | token u =>
    obtain rfl : u = t := Option.some.inj htoken
    exact ⟨w, h.isWord hp⟩

theorem Denotes.fitsLine {lone : Bool} {ts : List Token} {v : Node} (h : Denotes lone ts v)
    (hwords : ∀ t ∈ ts, ∃ w, IsWord t w) : v.FitsLine := by
  have hname {name : String} (h : ∃ w, IsWord (.name name) w) : IsName name := by
    obtain ⟨w, hw⟩ := h
    cases hw with
    | name hname => exact hname
  induction h with
  | @leaf t value ht =>
    obtain ⟨w, hw⟩ := hwords t (List.mem_singleton_self t)
    exact .scalar (fitsLine_leaf hw ht)
  | @sequence kind items ts hi hts ih =>
    refine .sequence fun v hv => ?_
    obtain ⟨i, hmem, rfl⟩ := List.mem_map.mp hv
    have hgroup := hts.isInfix_of_mem (List.mem_map_of_mem hmem)
    refine ih i hmem fun t ht => hwords t ?_
    exact List.mem_cons_of_mem _ (List.mem_append_left _ (hgroup.subset ht))
  | @node typeName arguments ts ha hts ih =>
    have hargument {a : String × List Token × Node} (hmem : a ∈ arguments) :
        ∀ t ∈ argumentTokens a.1 a.2.1, ∃ w, IsWord t w := by
      intro t ht
      have hgroup := hts.isInfix_of_mem
        (List.mem_map_of_mem (f := fun a => argumentTokens a.1 a.2.1) hmem)
      exact hwords t (List.mem_cons_of_mem _ (List.mem_cons_of_mem _
        (List.mem_append_left _ (hgroup.subset ht))))
    have hfield {f : String × Node} (hf : f ∈ (arguments.map fun a => (a.1, a.2.2)).filter
        (·.1 ∉ positionNames)) : ∃ a ∈ arguments, (a.1, a.2.2) = f :=
      List.mem_map.mp (List.mem_filter.mp hf).1
    refine .composite (hname (hwords _ List.mem_cons_self)) (fun f hf => ?_) fun f hf => ?_
    · obtain ⟨a, hmem, rfl⟩ := hfield hf
      exact hname (hargument hmem _ List.mem_cons_self)
    · obtain ⟨a, hmem, rfl⟩ := hfield hf
      exact ih a hmem fun t ht => hargument hmem t
        (List.mem_cons_of_mem _ (List.mem_cons_of_mem _ ht))

/-- All that is written of the tree of a dump fits a line. -/
theorem fitsLine_of_read {dump : String} {v : Node} (h : read dump = .ok v) : v.FitsLine := by
  obtain ⟨ls, htokens, hv⟩ := read_ok h
  obtain ⟨hcut, rfl⟩ := cut_of_tokenize htokens
  refine (denotes_of_ofLexemes hv).1.fitsLine fun t ht => hcut.exists_word ?_
  rwa [map_token_lexemesFrom] at ht

end Dump

end SyntaxLens
