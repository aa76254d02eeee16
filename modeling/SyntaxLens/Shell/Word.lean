/-!
# Words of a script

A script is cut into words and operators. A word is a sequence of parts: text, which is quoted or
not, and parameters of the script such as `$1` and `"$@"`.
-/

namespace SyntaxLens.Shell

inductive Parameter
  | argument (n : Nat)
  /-- All arguments but the first, as words of their own where it is quoted. -/
  | all
  /-- All arguments but the first, as one word where it is quoted. -/
  | joined
  | count
  | status
  | process
deriving DecidableEq

def Parameter.ofName? (name : String) : Option Parameter :=
  if name = "@" then some .all
  else if name = "*" then some .joined
  else if name = "#" then some .count
  else if name = "?" then some .status
  else if name = "$" then some .process
  else name.toNat?.map .argument

inductive Part
  | text (c : Char) (isQuoted : Bool)
  /-- Quotes with nothing between them, which make a word. -/
  | emptyQuotes
  | parameter (p : Parameter) (isQuoted : Bool)
deriving DecidableEq

/-- A word or an operator of a script. -/
inductive Token
  | word (parts : List Part)
  /-- The end of a command. -/
  | semicolon
  | pipe
  | ampersand
  /-- Sends the output of the given channel to what follows. -/
  | redirect (channel : Nat)
  /-- Takes the input from what follows. -/
  | input
deriving DecidableEq

/-- Where the scan of a script stands. -/
inductive Mode
  | plain
  | comment
  | single
  | double
  | escaped (inQuotes : Bool)
  | dollar (inQuotes : Bool)
  | brace (name : List Char) (inQuotes : Bool)
deriving DecidableEq

/-- The tokens and the parts of an open word, both in reverse. -/
structure Scan where
  tokens : List Token
  word : Option (List Part)
  mode : Mode

namespace Scan

/-- Closes the open word. -/
def flush (s : Scan) : Scan :=
  match s.word with
  | none => s
  | some parts => { s with tokens := .word parts.reverse :: s.tokens, word := none }

/-- Adds a part to the open word. -/
def push (p : Part) (s : Scan) : Scan :=
  { s with word := some (p :: s.word.getD []) }

/-- Adds an operator after the open word. -/
def operator (t : Token) (s : Scan) : Scan :=
  { s.flush with tokens := t :: s.flush.tokens }

/-- Adds a redirection. A digit right before it is the number of the channel. -/
def redirect (s : Scan) : Scan :=
  match s.word with
  | some [.text c false] =>
    if c.isDigit then
      { s with tokens := .redirect (c.toNat - '0'.toNat) :: s.tokens, word := none }
    else s.operator (.redirect 1)
  | _ => s.operator (.redirect 1)

/-- The mode around a part. -/
def around (inQuotes : Bool) : Mode :=
  if inQuotes then .double else .plain

/-- Adds a parameter, or its text where there is no such parameter. -/
def parameter (name : List Char) (inQuotes : Bool) (s : Scan) : Scan :=
  match Parameter.ofName? (String.ofList name) with
  | some p => { s.push (.parameter p inQuotes) with mode := around inQuotes }
  | none =>
    { name.foldl (fun s c => s.push (.text c inQuotes)) (s.push (.text '$' inQuotes)) with
      mode := around inQuotes }

/-- Reads a character outside of quotes. -/
def plain (c : Char) (s : Scan) : Scan :=
  if c = ' ' ∨ c = '\t' then s.flush
  else if c = '\n' ∨ c = ';' then s.operator .semicolon
  else if c = '|' then s.operator .pipe
  else if c = '&' then s.operator .ampersand
  else if c = '>' then s.redirect
  else if c = '<' then s.operator .input
  else if c = '#' ∧ s.word.isNone then { s with mode := .comment }
  else if c = '\x27' then { s with word := some (.emptyQuotes :: s.word.getD []), mode := .single }
  else if c = '\x22' then { s with word := some (.emptyQuotes :: s.word.getD []), mode := .double }
  else if c = '\\' then { s with mode := .escaped false }
  else if c = '$' then { s with mode := .dollar false }
  else s.push (.text c false)

/-- Reads one character. -/
def step (s : Scan) (c : Char) : Scan :=
  match s.mode with
  | .plain => s.plain c
  | .comment => if c = '\n' then { s.operator .semicolon with mode := .plain } else s
  | .single => if c = '\x27' then { s with mode := .plain } else s.push (.text c true)
  | .double =>
    if c = '\x22' then { s with mode := .plain }
    else if c = '\\' then { s with mode := .escaped true }
    else if c = '$' then { s with mode := .dollar true }
    else s.push (.text c true)
  | .escaped inQuotes =>
    let s := { s with mode := around inQuotes }
    if c = '\n' then s
    else if inQuotes ∧ c ∉ ['$', '\x60', '\x22', '\\'] then
      (s.push (.text '\\' true)).push (.text c true)
    else s.push (.text c true)
  | .dollar inQuotes =>
    if c = '\x7b' then { s with mode := .brace [] inQuotes }
    else if c.isDigit ∨ c ∈ ['@', '*', '#', '?', '$'] then s.parameter [c] inQuotes
    else
      let s := { s.push (.text '$' inQuotes) with mode := around inQuotes }
      if inQuotes then
        if c = '\x22' then { s with mode := .plain } else s.push (.text c true)
      else s.plain c
  | .brace name inQuotes =>
    if c = '\x7d' then s.parameter name.reverse inQuotes
    else { s with mode := .brace (c :: name) inQuotes }

end Scan

def tokens (script : List Char) : List Token :=
  let s := script.foldl Scan.step ⟨[], none, .plain⟩
  let s := match s.mode with
    | .dollar inQuotes => s.push (.text '$' inQuotes)
    | _ => s
  s.flush.tokens.reverse

end SyntaxLens.Shell
