import SyntaxLens.Toml.Scalar
import SyntaxLens.Toml.Table
/-!
# Reading TOML

A file is a list of statements, one on a line: headers of tables, headers of elements and values
given to keys. Every reader uses up characters, so a number of steps that is as great as the
length of the text is never reached.
-/

namespace SyntaxLens.Toml

/-- A text without the blanks at its start. -/
def skipSpaces (cs : List Char) : List Char :=
  cs.dropWhile isSpace

/-- A text without the comment at its start, or nothing if the comment is no text. -/
def skipComment? : List Char → Option (List Char)
  | '#' :: cs =>
    let comment := cs.takeWhile fun c => c ≠ '\n' && c ≠ '\r'
    if comment.any isForbidden then none else some (cs.drop comment.length)
  | cs => some cs

/-- A text without the blanks, comments and line breaks at its start. -/
def skipBlank? : Nat → List Char → Option (List Char)
  | 0, _ => none
  | fuel + 1, cs =>
    (skipComment? (skipSpaces cs)).bind fun cs =>
      match lineBreak? cs with
      | some cs => skipBlank? fuel cs
      | none => some cs

/-- Whether a character may stand in a key without quotes. -/
def isBareKey (c : Char) : Bool :=
  c.isAlphanum || c = '_' || c = '-'

/-- Reads a key without dots. -/
def simpleKey? : List Char → Option (String × List Char)
  | [] => none
  | c :: cs =>
    if c = '\x22' ∨ c = '\x27' then
      (lineString? c cs).map fun (content, rest) => (String.ofList content, rest)
    else
      let key := (c :: cs).takeWhile isBareKey
      if key = [] then none else some (String.ofList key, (c :: cs).drop key.length)

/-- Reads a key, whose dots may have blanks around them. -/
def key? : Nat → List Char → Option (List String × List Char)
  | 0, _ => none
  | fuel + 1, cs =>
    (simpleKey? (skipSpaces cs)).bind fun (key, rest) =>
      match skipSpaces rest with
      | '.' :: rest => (key? fuel rest).map fun (keys, rest) => (key :: keys, rest)
      | rest => some ([key], rest)

/-- The length of the number, truth value or date at the start of a text. A blank may stand
between a date and a time. -/
def plainLength (cs : List Char) : Nat :=
  let isPlain (c : Char) : Bool := c.isAlphanum || c ∈ ['+', '-', '_', '.', ':']
  let first := cs.takeWhile isPlain
  match cs.drop first.length with
  | ' ' :: rest =>
    let second := rest.takeWhile isPlain
    if isDate first ∧ isDateTime (first ++ ' ' :: second) then first.length + 1 + second.length
    else first.length
  | _ => first.length

mutual

def value? : Nat → List Char → Option (Setting × List Char)
  | 0, _ => none
  | _ + 1, [] => none
  | fuel + 1, c :: cs =>
    if c = '\x22' ∨ c = '\x27' then
      (string? c cs).map fun (content, rest) => (.text (String.ofList content), rest)
    else if c = '[' then
      (items? fuel cs).map fun (items, rest) => (.list items, rest)
    else if c = '\x7b' then
      (members? fuel [] cs).map fun (entries, rest) => (.table (settings entries), rest)
    else
      let length := plainLength (c :: cs)
      if isPlainValue ((c :: cs).take length) then some (.other, (c :: cs).drop length) else none

/-- Reads the items of a list after its opening bracket or a comma. -/
def items? : Nat → List Char → Option (List Setting × List Char)
  | 0, _ => none
  | fuel + 1, cs =>
    (skipBlank? (cs.length + 1) cs).bind fun cs =>
      match cs with
      | ']' :: rest => some ([], rest)
      | cs =>
        (value? fuel cs).bind fun (item, rest) =>
          (skipBlank? (rest.length + 1) rest).bind fun rest =>
            match rest with
            | ',' :: rest => (items? fuel rest).map fun (items, rest) => (item :: items, rest)
            | ']' :: rest => some ([item], rest)
            | _ => none

/-- Reads the members of a table in braces after its opening brace or a comma. -/
def members? : Nat → Entries → List Char → Option (Entries × List Char)
  | 0, _, _ => none
  | fuel + 1, entries, cs =>
    (skipBlank? (cs.length + 1) cs).bind fun cs =>
      match cs with
      | '\x7d' :: rest => some (entries, rest)
      | cs =>
        (assignment? fuel cs).bind fun (keys, setting, rest) =>
          (assign setting keys entries).bind fun entries =>
            (skipBlank? (rest.length + 1) rest).bind fun rest =>
              match rest with
              | ',' :: rest => members? fuel entries rest
              | '\x7d' :: rest => some (entries, rest)
              | _ => none

/-- Reads a key and the value that it is given. -/
def assignment? : Nat → List Char → Option (List String × Setting × List Char)
  | 0, _ => none
  | fuel + 1, cs =>
    (key? (cs.length + 1) cs).bind fun (keys, rest) =>
      match rest with
      | '=' :: rest =>
        (value? fuel (skipSpaces rest)).map fun (setting, rest) => (keys, setting, rest)
      | _ => none

end

inductive Statement
  | table (keys : List String)
  | element (keys : List String)
  | assignment (keys : List String) (value : Setting)

/-- Reads a key and the bracket after it. -/
def header? (cs : List Char) : Option (List String × List Char) :=
  (key? (cs.length + 1) cs).bind fun (keys, rest) =>
    match rest with
    | ']' :: rest => some (keys, rest)
    | _ => none

def statement? (fuel : Nat) (cs : List Char) : Option (Statement × List Char) :=
  match cs with
  | '[' :: '[' :: cs =>
    (header? cs).bind fun (keys, rest) =>
      match rest with
      | ']' :: rest => some (.element keys, rest)
      | _ => none
  | '[' :: cs => (header? cs).map fun (keys, rest) => (.table keys, rest)
  | cs => (assignment? fuel cs).map fun (keys, setting, rest) => (.assignment keys setting, rest)

/-- Reads statements, each up to the end of its line. -/
def statements? : Nat → List Char → Option (List Statement)
  | 0, _ => none
  | fuel + 1, cs =>
    (skipBlank? (cs.length + 1) cs).bind fun cs =>
      if cs = [] then some []
      else
        (statement? fuel cs).bind fun (statement, rest) =>
          (skipComment? (skipSpaces rest)).bind fun rest =>
            if rest = [] then some [statement]
            else
              (lineBreak? rest).bind fun rest =>
                (statements? fuel rest).map fun statements => statement :: statements

/-- Carries out statements. Values go to the table at the given path. -/
def build? (path : List String) (root : Entries) : List Statement → Option Entries
  | [] => some root
  | .table keys :: statements =>
    (growAt (openTable (keys.getLastD "")) keys.dropLast root).bind fun root =>
      build? keys root statements
  | .element keys :: statements =>
    (growAt (openElement (keys.getLastD "")) keys.dropLast root).bind fun root =>
      build? keys root statements
  | .assignment keys value :: statements =>
    (growAt (assign value keys) path root).bind fun root => build? path root statements

/-- A text without a byte order mark at its start. -/
def dropMark : List Char → List Char
  | '\uFEFF' :: cs => cs
  | cs => cs

def read? (s : String) : Option Setting :=
  let cs := dropMark s.toList
  (statements? (cs.length + 2) cs).bind fun statements =>
    (build? [] [] statements).map fun entries => .table (settings entries)

end SyntaxLens.Toml
