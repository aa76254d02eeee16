import SyntaxLens.Text.Numeral
/-!
# Strings and simple values of TOML

Strings stand between apostrophes or quotation marks, on one line or, with three quotes, on
several. Numbers, truth values and dates are recognised as one run of characters and are only
checked, since no option takes them.
-/

namespace SyntaxLens.Toml

/-- A blank within a line. -/
def isSpace (c : Char) : Bool :=
  c = ' ' || c = '\t'

/-- A character that may not stand in a text: a control character other than the tab. -/
def isForbidden (c : Char) : Bool :=
  (c.toNat < 0x20 && c ≠ '\t') || c.toNat = 0x7F

/-- The text after a line break at its start. -/
def lineBreak? : List Char → Option (List Char)
  | '\n' :: cs | '\r' :: '\n' :: cs => some cs
  | _ => none

/-- The character of exactly `n` hexadecimal digits, and the length of the escape with its
letter. -/
def hexEscape? (n : Nat) (cs : List Char) : Option (Char × Nat) :=
  if (cs.take n).length = n then
    (Text.Numeral.readHex? (cs.take n)).bind fun v =>
      if v.isValidChar then some (Char.ofNat v, n + 1) else none
  else none

/-- The character of an escape after its backslash, and the length of the escape. -/
def escape? : List Char → Option (Char × Nat)
  | [] => none
  | c :: cs =>
    if c = 'b' then some ('\x08', 1)
    else if c = 't' then some ('\t', 1)
    else if c = 'n' then some ('\n', 1)
    else if c = 'f' then some ('\x0C', 1)
    else if c = 'r' then some ('\r', 1)
    else if c = 'e' then some ('\x1B', 1)
    else if c = '\x22' ∨ c = '\\' then some (c, 1)
    else if c = 'x' then hexEscape? 2 cs
    else if c = 'u' then hexEscape? 4 cs
    else if c = 'U' then hexEscape? 8 cs
    else none

/-- A text and what follows it. -/
abbrev Rest := List Char × List Char

/-- A text with a character in front. -/
def pushChar (c : Char) (r : Option Rest) : Option Rest :=
  r.map fun (content, rest) => (c :: content, rest)

/-- Reads a string on one line after its opening quote. Only quotation marks allow escapes. -/
def lineString? (quote : Char) : List Char → Option Rest
  | [] => none
  | c :: cs =>
    if c = quote then some ([], cs)
    else if isForbidden c then none
    else if c = '\\' ∧ quote = '\x22' then
      match escape? cs with
      | none => none
      | some (d, n) => pushChar d (lineString? quote (cs.drop n))
    else pushChar c (lineString? quote cs)
termination_by cs => cs.length
decreasing_by all_goals simp only [List.length_cons, List.length_drop]; omega

/-- The number of blanks and line breaks that a backslash at the end of a line removes. -/
def foldedLength (cs : List Char) : Nat :=
  let spaces := cs.takeWhile isSpace
  if (lineBreak? (cs.drop spaces.length)).isSome then
    (cs.takeWhile fun c => isSpace c || c = '\n' || c = '\r').length
  else 0

/-- Reads a string on several lines after its opening quotes. Up to two quotes may stand before
the closing ones. -/
def blockString? (quote : Char) : List Char → Option Rest
  | [] => none
  | c :: cs =>
    if c = quote ∧ cs.take 2 = [quote, quote] then
      let extra := ((cs.drop 2).take 2).takeWhile (· = quote)
      some (extra, cs.drop (2 + extra.length))
    else if c = '\n' then pushChar c (blockString? quote cs)
    else if c = '\r' then
      if cs.head? = some '\n' then pushChar c (blockString? quote cs) else none
    else if isForbidden c then none
    else if c = '\\' ∧ quote = '\x22' then
      match escape? cs with
      | some (d, n) => pushChar d (blockString? quote (cs.drop n))
      | none =>
        if foldedLength cs = 0 then none else blockString? quote (cs.drop (foldedLength cs))
    else pushChar c (blockString? quote cs)
termination_by cs => cs.length
decreasing_by all_goals simp only [List.length_cons, List.length_drop]; omega

/-- Reads a string that starts with the given quote. -/
def string? (quote : Char) (cs : List Char) : Option Rest :=
  if cs.take 2 = [quote, quote] then
    let body := cs.drop 2
    blockString? quote ((lineBreak? body).getD body)
  else lineString? quote cs

/-- Digits with single underscores between them. -/
def isDigits (isDigit : Char → Bool) (cs : List Char) : Bool :=
  cs.head?.any isDigit && cs.getLast?.any isDigit &&
    (cs.zip cs.tail).all (fun (c, d) => !(c = '_' && d = '_')) &&
    cs.all fun c => isDigit c || c = '_'

/-- Decimal digits without a needless zero in front. -/
def isPlainInteger (cs : List Char) : Bool :=
  isDigits Char.isDigit cs && (cs.length = 1 || cs.head? ≠ some '0')

/-- A text without a sign at its start. -/
def dropSign : List Char → List Char
  | '+' :: cs | '-' :: cs => cs
  | cs => cs

/-- The number of digits with underscores in a base. -/
def digitsValue (base : Nat) (cs : List Char) : Nat :=
  (cs.filterMap Text.Numeral.hexDigit?).foldl (fun n d => base * n + d) 0

/-- The number of values of 128 bits. -/
def integerBound : Nat := UInt64.size * UInt64.size

/-- An integer of 128 bits, with or without a sign. -/
def isInteger (cs : List Char) : Bool :=
  match cs with
  | '0' :: 'x' :: ds =>
    isDigits (fun c => (Text.Numeral.hexDigit? c).isSome) ds && digitsValue 16 ds < integerBound
  | '0' :: 'o' :: ds => isDigits (fun c => '0' ≤ c && c ≤ '7') ds && digitsValue 8 ds < integerBound
  | '0' :: 'b' :: ds => isDigits (fun c => c = '0' || c = '1') ds && digitsValue 2 ds < integerBound
  | _ =>
    let digits := dropSign cs
    isPlainInteger digits &&
      if cs.head? = some '-' then 2 * digitsValue 10 digits ≤ integerBound
        else digitsValue 10 digits < integerBound

/-- An exponent, or nothing. -/
def isExponent : List Char → Bool
  | [] => true
  | c :: cs => (c = 'e' || c = 'E') && isDigits Char.isDigit (dropSign cs)

/-- A number with a fraction or an exponent, or one of the words for other numbers. -/
def isFloat (cs : List Char) : Bool :=
  let digits := dropSign cs
  let isPart (c : Char) : Bool := c.isDigit || c = '_'
  let whole := digits.takeWhile isPart
  let after := digits.dropWhile isPart
  digits = "inf".toList || digits = "nan".toList ||
    (isPlainInteger whole && after ≠ [] &&
      match after with
      | '.' :: cs => isDigits Char.isDigit (cs.takeWhile isPart) && isExponent (cs.dropWhile isPart)
      | cs => isExponent cs)

/-- Two digits that denote a number in a range. -/
def isTwoDigits (low high : Nat) (cs : List Char) : Bool :=
  cs.length = 2 && (Text.Numeral.read? cs).any fun n => low ≤ n && n ≤ high

/-- A date: a year, a month and a day that the month has. -/
def isDate (cs : List Char) : Bool :=
  match (String.ofList cs).splitOn "-" with
  | [year, month, day] =>
    let number (s : String) : Nat := Text.Numeral.value s.toList
    let isLeap := number year % 4 = 0 ∧ (number year % 100 ≠ 0 ∨ number year % 400 = 0)
    let days :=
      if number month = 2 then if isLeap then 29 else 28
      else if number month ∈ [4, 6, 9, 11] then 30
      else 31
    year.length = 4 && year.toList.all Char.isDigit && isTwoDigits 1 12 month.toList &&
      isTwoDigits 1 days day.toList
  | _ => false

/-- A time of day, possibly with seconds and a fraction of them. -/
def isTime (cs : List Char) : Bool :=
  match (String.ofList cs).splitOn ":" with
  | [hour, minute] => isTwoDigits 0 23 hour.toList && isTwoDigits 0 59 minute.toList
  | [hour, minute, second] =>
    isTwoDigits 0 23 hour.toList && isTwoDigits 0 59 minute.toList &&
      isTwoDigits 0 60 (second.toList.take 2) &&
      match second.toList.drop 2 with
      | [] => true
      | '.' :: fraction => (Text.Numeral.read? fraction).isSome
      | _ => false
  | _ => false

/-- A distance from universal time. -/
def isZone (cs : List Char) : Bool :=
  match cs with
  | ['Z'] | ['z'] => true
  | sign :: cs =>
    (sign = '+' || sign = '-') && isTwoDigits 0 23 (cs.take 2) && cs[2]? = some ':' &&
      isTwoDigits 0 59 (cs.drop 3)
  | [] => false

/-- A date, a time, or both with or without a zone. -/
def isDateTime (cs : List Char) : Bool :=
  let after := cs.drop 10
  isTime cs || isDate cs ||
    (isDate (cs.take 10) && after.head?.any (fun c => c = 'T' || c = 't' || c = ' ') &&
      let time := after.tail.takeWhile fun c => c.isDigit || c = ':' || c = '.'
      let zone := after.tail.drop time.length
      isTime time && (zone = [] || isZone zone))

/-- Whether a run of characters is a number, a truth value or a date. -/
def isPlainValue (cs : List Char) : Bool :=
  cs = "true".toList || cs = "false".toList || isInteger cs || isFloat cs || isDateTime cs

end SyntaxLens.Toml
