import SyntaxLens.Disk
import SyntaxLens.Shell.Process
import SyntaxLens.Text.Numeral
/-!
# Programs

The programs that a command can name: they write text, copy files and compare words. Each takes
its arguments, its input and a disk that it only reads.
-/

namespace SyntaxLens.Shell

open Process

/-- The byte of an octal number at the start of a text of at most `most` digits, and their
number. -/
def octal (most : Nat) (cs : List Char) : Option (UInt8 × Nat) :=
  let digits := (cs.take most).takeWhile fun c => '0' ≤ c && c ≤ '7'
  if digits = [] then none
  else some (UInt8.ofNat (digits.foldl (fun n c => 8 * n + (c.toNat - '0'.toNat)) 0), digits.length)

/-- The character of an escape by a letter. -/
def letterEscape? (c : Char) : Option UInt8 :=
  if c = '\\' then some 0x5C
  else if c = 'a' then some 7
  else if c = 'b' then some 8
  else if c = 't' then some 9
  else if c = 'n' then some 10
  else if c = 'v' then some 11
  else if c = 'f' then some 12
  else if c = 'r' then some 13
  else none

/-- The bytes of the escape after a backslash, and its length. A backslash that starts no escape
stands for itself. Octal digits follow a zero where `zeroFirst` holds. -/
def escapeAt (zeroFirst : Bool) : List Char → List UInt8 × Nat
  | [] => ([0x5C], 0)
  | c :: cs =>
    match letterEscape? c with
    | some b => ([b], 1)
    | none =>
      if zeroFirst then
        if c = '0' then
          match octal 3 cs with
          | some (b, n) => ([b], n + 1)
          | none => ([0], 1)
        else ([0x5C], 0)
      else
        match octal 3 (c :: cs) with
        | some (b, n) => ([b], n)
        | none => ([0x5C], 0)

/-- The bytes of a text with its escapes resolved. -/
def unescape (zeroFirst : Bool) : List Char → List UInt8
  | [] => []
  | c :: cs =>
    if c = '\\' then
      let (bytes, n) := escapeAt zeroFirst cs
      bytes ++ unescape zeroFirst (cs.drop n)
    else String.utf8EncodeChar c ++ unescape zeroFirst cs
termination_by cs => cs.length
decreasing_by all_goals simp only [List.length_cons, List.length_drop]; omega

/-- The text of one argument of `printf` for a conversion. -/
def convert (conversion : Char) (argument : String) : List UInt8 :=
  if conversion = 's' then Text.Utf8.encode argument
  else if conversion = 'b' then unescape true argument.toList
  else if conversion = 'c' then (argument.toList.take 1).flatMap String.utf8EncodeChar
  else if conversion = 'd' ∨ conversion = 'i' ∨ conversion = 'u' then
    Text.Utf8.encode (toString (argument.toInt?.getD 0))
  else Text.Utf8.encode argument

/-- Writes a format once: the bytes and the arguments that are left. -/
def formatOnce : List Char → List String → List UInt8 × List String
  | [], arguments => ([], arguments)
  | c :: cs, arguments =>
    if c = '\\' then
      let (escaped, n) := escapeAt false cs
      let (bytes, rest) := formatOnce (cs.drop n) arguments
      (escaped ++ bytes, rest)
    else if c = '%' then
      match cs with
      | [] => ([0x25], arguments)
      | '%' :: cs =>
        let (bytes, rest) := formatOnce cs arguments
        (0x25 :: bytes, rest)
      | conversion :: cs =>
        let (bytes, rest) := formatOnce cs arguments.tail
        (convert conversion (arguments.headD "") ++ bytes, rest)
    else
      let (bytes, rest) := formatOnce cs arguments
      (String.utf8EncodeChar c ++ bytes, rest)
termination_by cs => cs.length
decreasing_by all_goals simp only [List.length_cons, List.length_drop]; omega

/-- Writes a format until all arguments are used. -/
def format (cs : List Char) : Nat → List String → List UInt8
  | 0, _ => []
  | fuel + 1, arguments =>
    let (bytes, rest) := formatOnce cs arguments
    if rest = [] ∨ rest.length = arguments.length then bytes else bytes ++ format cs fuel rest

/-- Copies files to the output. -/
def concatenate (disk : Disk) (input : List UInt8) : List String → Result
  | [] => .output []
  | path :: paths =>
    let rest := concatenate disk input paths
    if path = "-" then { rest with stdout := input ++ rest.stdout }
    else
      match disk.read path with
      | .ok content => { rest with stdout := content ++ rest.stdout }
      | .error e =>
        let reason := ((e.message.splitOn " (os error").headD "")
        let message := "cat: " ++ path ++ ": " ++ reason ++ "\n"
        ⟨rest.stdout, Text.Utf8.encode message ++ rest.stderr, .exited 1⟩

def compareWords (a op b : String) : Bool :=
  if op = "=" ∨ op = "==" then a = b
  else if op = "!=" then a ≠ b
  else
    match a.toInt?, b.toInt? with
    | some m, some n =>
      if op = "-eq" then m = n
      else if op = "-ne" then m ≠ n
      else if op = "-lt" then m < n
      else if op = "-le" then m ≤ n
      else if op = "-gt" then n < m
      else op = "-ge" && n ≤ m
    | _, _ => false

def testWord (disk : Disk) (op a : String) : Bool :=
  if op = "!" ∨ op = "-z" then a = ""
  else if op = "-n" then a ≠ ""
  else
    let isFile := match disk.read a with
      | .ok _ => true
      | .error _ => false
    if op = "-f" ∨ op = "-s" then isFile
    else if op = "-d" then disk.contains a && !isFile
    else disk.contains a

def test (disk : Disk) : List String → Bool
  | [] => false
  | [a] => a ≠ ""
  | [op, a] => testWord disk op a
  | [a, op, b] => if a = "!" then !testWord disk op b else compareWords a op b
  | "!" :: words => !test disk words
  | _ => false

/-- Runs a program by its name, if there is one. The escapes in the words of `echo` are resolved
where `escapes` holds. -/
def program? (disk : Disk) (escapes : Bool) (input : List UInt8) (name : String)
    (arguments : List String) : Option Result :=
  if name = "true" ∨ name = ":" then some (.code 0)
  else if name = "false" then some (.code 1)
  else if name = "echo" then
    let isOpen := arguments.head? = some "-n"
    let text := " ".intercalate (if isOpen then arguments.tail else arguments)
    let bytes := if escapes then unescape true text.toList else Text.Utf8.encode text
    some (.output (if isOpen then bytes else bytes ++ [10]))
  else if name = "printf" then
    match arguments with
    | [] => some (.fail 2 "printf: missing operand")
    | f :: arguments => some (.output (format f.toList (arguments.length + 1) arguments))
  else if name = "cat" then
    some (concatenate disk input (if arguments = [] then ["-"] else arguments))
  else if name = "test" then some (.code (if test disk arguments then 0 else 1))
  else if name = "[" then some (.code (if test disk arguments.dropLast then 0 else 1))
  else none

end SyntaxLens.Shell
