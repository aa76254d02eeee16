import Mathlib.Data.List.Basic
import Mathlib.Tactic.Common
import SyntaxLens.Scalar

/-!
# Literals of byte strings

`asciiLiteral` writes a byte string in ASCII alone: bytes that are no printable character of ASCII
stand in it as hexadecimal escapes. Byte strings are shown as these literals exactly if all their
bytes are below `0xA0`. From there on the character with the number of a byte is no control
character, and it is shown as it is.
-/

namespace SyntaxLens

open Text.Quoted

/-- A byte as it is written between the given quotes in ASCII. -/
def asciiByte (quote : Char) (b : UInt8) : List Char :=
  if b = 0x5C then ['\\', '\\']
  else if b = 0x09 then ['\\', 't']
  else if b = 0x0A then ['\\', 'n']
  else if b = 0x0D then ['\\', 'r']
  else if b.toNat = quote.toNat then ['\\', quote]
  else if b < 0x20 ∨ 0x7F ≤ b then '\\' :: 'x' :: (Nat.toDigits 16 b.toNat).leftpad 2 '0'
  else [Char.ofNat b.toNat]

/-- The quotes of a byte string, which are not those that occur in it alone. -/
def asciiQuote (data : List UInt8) : Char :=
  if 0x27 ∈ data ∧ 0x22 ∉ data then quotationMark else apostrophe

/-- The literal of a byte string in ASCII. -/
def asciiLiteral (data : List UInt8) : List Char :=
  let quote := asciiQuote data
  'b' :: quote :: (data.flatMap (asciiByte quote) ++ [quote])

lemma forall_byte {P : UInt8 → Prop} (h : ∀ n < 256, P (UInt8.ofNat n)) (b : UInt8) : P b := by
  have hb := h b.toNat b.toNat_lt
  rwa [UInt8.ofNat_toNat] at hb

lemma toNat_ofNat_byte (b : UInt8) : (Char.ofNat b.toNat).toNat = b.toNat := by
  have hvalid : b.toNat.isValidChar := .inl (by have := b.toNat_lt; omega)
  rw [Char.ofNat, dif_pos hvalid]
  rfl

lemma escape_byte {quote : Char} (hquote : quote = apostrophe ∨ quote = quotationMark) :
    ∀ b : UInt8, escape quote (Char.ofNat b.toNat) =
      if 0xA0 ≤ b then [Char.ofNat b.toNat] else asciiByte quote b := by
  apply forall_byte
  rcases hquote with rfl | rfl
  · decide +kernel
  · decide +kernel

lemma toNat_lt_of_mem_asciiByte {quote : Char}
    (hquote : quote = apostrophe ∨ quote = quotationMark) (b : UInt8) :
    ∀ c ∈ asciiByte quote b, c.toNat < 0x80 := by
  have hall : ∀ b : UInt8, (asciiByte quote b).all (·.toNat < 0x80) = true := by
    apply forall_byte
    rcases hquote with rfl | rfl
    · decide +kernel
    · decide +kernel
  intro c hc
  exact of_decide_eq_true (List.all_eq_true.mp (hall b) c hc)

lemma mem_map_byte {data : List UInt8} {c : Char} :
    c ∈ data.map (fun b => Char.ofNat b.toNat) ↔ ∃ b ∈ data, b.toNat = c.toNat := by
  rw [List.mem_map]
  refine exists_congr fun b => and_congr_right fun _ => ⟨?_, fun h => ?_⟩
  · rintro rfl
    exact (toNat_ofNat_byte b).symm
  · rw [h, Char.ofNat_toNat]

lemma quoteFor_map_byte (data : List UInt8) :
    quoteFor (data.map fun b => Char.ofNat b.toNat) = asciiQuote data := by
  have hmem (n : UInt8) (c : Char) (hn : n.toNat = c.toNat) :
      c ∈ data.map (fun b => Char.ofNat b.toNat) ↔ n ∈ data := by
    rw [mem_map_byte, ← hn]
    simp only [UInt8.toNat_inj, exists_eq_right]
  simp only [quoteFor, asciiQuote, hmem 0x27 apostrophe rfl, hmem 0x22 quotationMark rfl]

lemma asciiQuote_spec (data : List UInt8) :
    asciiQuote data = apostrophe ∨ asciiQuote data = quotationMark := by
  unfold asciiQuote
  split
  · exact .inr rfl
  · exact .inl rfl

lemma toList_text_bytes (data : List UInt8) : (Scalar.bytes data).text.toList =
    'b' :: asciiQuote data :: (data.flatMap (fun b =>
      if 0xA0 ≤ b then [Char.ofNat b.toNat] else asciiByte (asciiQuote data) b) ++
        [asciiQuote data]) := by
  rw [Scalar.text, String.toList_ofList, Scalar.bytesText, encode, quoteFor_map_byte,
    List.flatMap_map, funext (escape_byte (asciiQuote_spec data))]
  rfl

lemma toNat_lt_of_mem_asciiLiteral {data : List UInt8} :
    ∀ c ∈ asciiLiteral data, c.toNat < 0x80 := by
  have hspec := asciiQuote_spec data
  have hquote : (asciiQuote data).toNat < 0x80 := by
    rcases hspec with h | h <;> rw [h] <;> decide
  simp only [asciiLiteral, List.forall_mem_cons, List.forall_mem_append, List.mem_flatMap]
  refine ⟨by decide, hquote, ?_, hquote, nofun⟩
  rintro c ⟨b, -, hc⟩
  exact toNat_lt_of_mem_asciiByte hspec b c hc

/-- A byte string is shown between quotes, with the bytes from `0xA0` on as the characters with
their numbers and all others as in its literal in ASCII. So it is shown as that literal, and in
ASCII at all, exactly if no byte is as great as that. -/
theorem text_bytes (data : List UInt8) :
    let text := (Scalar.bytes data).text.toList
    let quote := asciiQuote data
    text = 'b' :: quote :: (data.flatMap (fun b =>
      if 0xA0 ≤ b then [Char.ofNat b.toNat] else asciiByte quote b) ++ [quote]) ∧
    (text = asciiLiteral data ↔ ∀ b ∈ data, b < 0xA0) ∧
    ((∀ c ∈ text, c.toNat < 0x80) ↔ ∀ b ∈ data, b < 0xA0) := by
  intro text quote
  have htext : text = 'b' :: quote :: (data.flatMap (fun b =>
      if 0xA0 ≤ b then [Char.ofNat b.toNat] else asciiByte quote b) ++ [quote]) :=
    toList_text_bytes data
  have hliteral (h : ∀ b ∈ data, b < 0xA0) : text = asciiLiteral data := by
    rw [htext, asciiLiteral, List.flatMap_congr fun b hb => if_neg (UInt8.not_le.mpr (h b hb))]
  have hbytes (h : ∀ c ∈ text, c.toNat < 0x80) : ∀ b ∈ data, b < 0xA0 := by
    intro b hb
    by_contra hge
    have hmem : Char.ofNat b.toNat ∈ text := by
      rw [htext]
      refine List.mem_cons_of_mem _ (List.mem_cons_of_mem _ (List.mem_append_left _ ?_))
      refine List.mem_flatMap.mpr ⟨b, hb, ?_⟩
      rw [if_pos (UInt8.not_lt.mp hge)]
      exact List.mem_cons_self
    have hlt := h _ hmem
    rw [toNat_ofNat_byte] at hlt
    have hle : (0xA0 : UInt8).toNat ≤ b.toNat := UInt8.le_iff_toNat_le.mp (UInt8.not_lt.mp hge)
    exact absurd (Nat.lt_of_le_of_lt hle hlt) (by decide)
  refine ⟨htext, ⟨fun h => hbytes ?_, hliteral⟩, hbytes, fun h => ?_⟩
  · rw [h]
    exact toNat_lt_of_mem_asciiLiteral
  · rw [hliteral h]
    exact toNat_lt_of_mem_asciiLiteral

/-- The byte `0xE9` is shown as the character `é` and not as an escape. -/
theorem text_bytes_ne_asciiLiteral : (Scalar.bytes [0xE9]).text = "b'é'" ∧
    String.ofList (asciiLiteral [0xE9]) = "b'\\xe9'" ∧
    (Scalar.bytes [0xE9]).text ≠ String.ofList (asciiLiteral [0xE9]) := by
  decide

end SyntaxLens
