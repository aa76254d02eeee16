import SyntaxLens.Proofs.Dump.Words
import SyntaxLens.Proofs.Text.Bytes

namespace SyntaxLens.Dump

open Literal

lemma hexChar?_hexByte {c : Char} (rest : List Char) (h : c.toNat < 256) :
    hexChar? 2 (Text.Numeral.hexByte c.toNat ++ rest) = some c := by
  have htake : (Text.Numeral.hexByte c.toNat ++ rest).take 2 = Text.Numeral.hexByte c.toNat := rfl
  have hvalid : c.toNat.isValidChar := c.valid
  have hlength : (Text.Numeral.hexByte c.toNat).length = 2 := rfl
  rw [hexChar?, htake, if_pos hlength, Text.Numeral.readHex?_hexByte h, Option.bind_some,
    if_pos hvalid, Char.ofNat_toNat]

lemma toNat_lt_of_isControl {c : Char} (h : Text.Quoted.isControl c = true) : c.toNat < 256 := by
  simp only [Text.Quoted.isControl, Bool.or_eq_true, Bool.and_eq_true, decide_eq_true_eq] at h
  omega

lemma escape?_hexByte (kind : QuotedKind) {c : Char} (rest : List Char) (h : c.toNat < 256) :
    escape? kind ('x' :: Text.Numeral.hexByte c.toNat ++ rest) = some (c, 3) := by
  simp only [List.cons_append, escape?, hexLength?, if_true, Option.bind_some,
    hexChar?_hexByte rest h]
  rfl

lemma IsBody.escaped {kind : QuotedKind} {quote : Char} {w content : List Char} (c : Char)
    (h : IsBody kind quote w content)
    (hquote : quote = Text.Quoted.apostrophe ∨ quote = Text.Quoted.quotationMark) :
    IsBody kind quote (Text.Quoted.escape quote c ++ w) (c :: content) := by
  have hq : '\\' ≠ quote := by
    rcases hquote with rfl | rfl <;> decide
  have hsimple (d : Char) (hd : escape? kind [d] = some (c, 1)) :
      IsBody kind quote ('\\' :: ([d] ++ w)) (c :: content) :=
    .escape hq hd h
  unfold Text.Quoted.escape
  by_cases hbackslash : c = '\\'
  · subst hbackslash
    exact hsimple '\\' rfl
  rw [if_neg hbackslash]
  by_cases hn : c = '\n'
  · subst hn
    exact hsimple 'n' rfl
  rw [if_neg hn]
  by_cases hr : c = '\r'
  · subst hr
    exact hsimple 'r' rfl
  rw [if_neg hr]
  by_cases ht : c = '\t'
  · subst ht
    exact hsimple 't' rfl
  rw [if_neg ht]
  by_cases hc : c = quote
  · subst hc
    rw [if_pos rfl]
    rcases hquote with rfl | rfl
    · exact hsimple Text.Quoted.apostrophe rfl
    · exact hsimple Text.Quoted.quotationMark rfl
  rw [if_neg hc]
  cases hcontrol : Text.Quoted.isControl c with
  | true =>
    have hx := escape?_hexByte kind [] (toNat_lt_of_isControl hcontrol)
    rw [List.append_nil] at hx
    exact .escape hq hx h
  | false => exact .char hc hn hbackslash h

lemma isBody_flatMap_escape (kind : QuotedKind) {quote : Char} (cs : List Char)
    (hquote : quote = Text.Quoted.apostrophe ∨ quote = Text.Quoted.quotationMark) :
    IsBody kind quote (cs.flatMap (Text.Quoted.escape quote) ++ [quote]) cs := by
  induction cs with
  | nil => exact .close
  | cons c cs ih =>
    rw [List.flatMap_cons, List.append_assoc]
    exact ih.escaped c hquote

lemma quoteFor_spec (cs : List Char) :
    Text.Quoted.quoteFor cs = Text.Quoted.apostrophe ∨
      Text.Quoted.quoteFor cs = Text.Quoted.quotationMark := by
  unfold Text.Quoted.quoteFor
  split
  · exact .inr rfl
  · exact .inl rfl

lemma isQuote_quoteFor (cs : List Char) : isQuote (Text.Quoted.quoteFor cs) = true := by
  rcases quoteFor_spec cs with h | h <;> rw [h] <;> decide

lemma isWord_str (s : String) : IsWord (.str s) (Text.Quoted.encode s.toList) := by
  have hword := IsWord.str (isQuote_quoteFor s.toList)
    (isBody_flatMap_escape .text s.toList (quoteFor_spec s.toList))
  rwa [String.ofList_toList] at hword

lemma contentBytes_map (data : List UInt8) :
    contentBytes (data.map fun b => Char.ofNat b.toNat) = data := by
  induction data with
  | nil => rfl
  | cons b data ih =>
    simp only [contentBytes, List.map_cons, List.flatMap_cons, toNat_ofNat_byte, b.toNat_lt,
      if_true, UInt8.ofNat_toNat, List.singleton_append, List.cons.injEq, true_and] at ih ⊢
    exact ih

lemma isWord_bytes (data : List UInt8) : IsWord (.bytes data) (Scalar.bytesText data) := by
  have hword := IsWord.bytes (isQuote_quoteFor (data.map fun b => Char.ofNat b.toNat))
    (isBody_flatMap_escape .bytes (data.map fun b => Char.ofNat b.toNat) (quoteFor_spec _))
  rwa [contentBytes_map] at hword

lemma isDigits_toDigits (n : Nat) : IsDigits (Nat.toDigits 10 n) :=
  ⟨Nat.toDigits_ne_nil, Text.Numeral.isDigit_of_mem_toDigits⟩

lemma toList_toString_int (n : Int) :
    (toString n).toList = (if n < 0 then ['-'] else []) ++ Nat.toDigits 10 n.natAbs := by
  cases n with
  | ofNat n =>
    rw [if_neg (by simp)]
    exact Nat.toList_repr
  | negSucc n =>
    rw [if_pos (Int.negSucc_lt_zero n)]
    change ("-" ++ (n + 1).repr).toList = _
    rw [String.toList_append, Nat.toList_repr]
    rfl

lemma isInteger_toString (n : Int) : IsInteger (toString n).toList := by
  refine ⟨if n < 0 then ['-'] else [], Nat.toDigits 10 n.natAbs, toList_toString_int n, ?_,
    isDigits_toDigits _⟩
  split
  · exact .inr rfl
  · exact .inl rfl

lemma intValue_of_isDigits {cs : List Char} (h : IsDigits cs) :
    intValue cs = Text.Numeral.value cs := by
  obtain ⟨hne, hd⟩ := h
  obtain ⟨d, ds, rfl⟩ := List.exists_cons_of_ne_nil hne
  have hminus := (sign_ne_of_isDigit (hd d List.mem_cons_self)).1
  unfold intValue
  split
  · next heq => exact absurd (List.cons.inj heq).1 hminus
  · rfl

lemma intValue_toString (n : Int) : intValue (toString n).toList = n := by
  rw [toList_toString_int]
  have hvalue := Text.Numeral.value_toDigits n.natAbs
  by_cases hn : n < 0
  · simp only [hn, if_true, List.singleton_append, intValue, hvalue]
    omega
  · rw [if_neg hn, List.nil_append, intValue_of_isDigits (isDigits_toDigits _), hvalue]
    omega

lemma intScalar_toString (n : Int64) : intScalar (toString n.toInt) = .int n := by
  have hmin := n.minValue_le_toInt
  have hmax := n.toInt_le
  simp only [intScalar, intValue_toString]
  rw [if_pos ⟨hmin, hmax⟩, Int64.ofInt_toInt]

/-- The leaf that a token denotes, names included. -/
def Token.leaf? : Token → Option Scalar
  | .name s => constant? s
  | t => t.scalar?

lemma isWord_number {kind : NumberKind} {text : String} (h : IsNumber kind text.toList) :
    IsWord (.number kind text) text.toList := by
  have hword := IsWord.number h
  rwa [String.ofList_toList] at hword

/-- The text of a printable leaf is a token that denotes the leaf. -/
theorem isWord_token {value : Scalar} (h : value.IsPrintable) :
    IsWord value.token value.text.toList ∧ value.token.leaf? = some value := by
  cases value with
  | str s =>
    rw [Scalar.text, String.toList_ofList]
    exact ⟨isWord_str s, rfl⟩
  | bytes data =>
    rw [Scalar.text, String.toList_ofList]
    exact ⟨isWord_bytes data, rfl⟩
  | int n => exact ⟨isWord_number (isNumber_of_isInteger (isInteger_toString _)), congrArg some (intScalar_toString n)⟩
  | float x => exact h.elim
  | bool b =>
    cases b with
    | true => exact ⟨.name (by decide), rfl⟩
    | false => exact ⟨.name (by decide), rfl⟩
  | none => exact ⟨.name (by decide), rfl⟩
  | other typeName text =>
    rcases h with ⟨rfl, rfl⟩ | ⟨rfl, hinteger, hrange⟩ | ⟨rfl, himaginary⟩
    · exact ⟨.name (by decide), rfl⟩
    · refine ⟨isWord_number (isNumber_of_isInteger hinteger), ?_⟩
      change some (intScalar text) = _
      rw [intScalar, if_neg]
      omega
    · exact ⟨isWord_number (isNumber_of_isImaginary himaginary), rfl⟩

end SyntaxLens.Dump
