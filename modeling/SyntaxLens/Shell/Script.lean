import SyntaxLens.Shell.Program
import SyntaxLens.Shell.Word
/-!
# Scripts

A script is a list of pipelines. A pipeline after `&&` runs if the one before it ended well, after
`||` if it did not, and always after the end of a command. Scripts read the disk and do not write
to it: what they send to a file is dropped.
-/

namespace SyntaxLens.Shell

open Process

/-- The arguments of a script, the first of which is its name, and the code of its last command. -/
structure Environment where
  arguments : List String
  code : Nat

namespace Environment

/-- The texts of a parameter: one, or one for each argument. The process has no number here and
goes by the name of its parameter. -/
def values (env : Environment) : Parameter → List String
  | .argument n => [env.arguments.getD n ""]
  | .all => env.arguments.drop 1
  | .joined => [" ".intercalate (env.arguments.drop 1)]
  | .count => [toString (env.arguments.length - 1)]
  | .status => [toString env.code]
  | .process => ["$$"]

/-- A message of the script, which names its first line. -/
def complaint (env : Environment) (message : String) : String :=
  env.arguments.headD "" ++ ": 1: " ++ message

/-- The words of a text that stands without quotes. -/
def fields (s : String) : List String :=
  let spaced := String.ofList (s.toList.map fun c => if c = '\t' ∨ c = '\n' then ' ' else c)
  (spaced.splitOn " ").filter (· ≠ "")

/-- Words with a text added to the last one. -/
def glue : List String → String → List String
  | [], s => [s]
  | ws, s => ws.dropLast ++ [ws.getLastD "" ++ s]

/-- Words with others added, the first of which goes on the last one. -/
def glueAll (ws : List String) : List String → List String
  | [] => ws
  | s :: ss => glue ws s ++ ss

/-- Words after one more part. Quotes make a word even of nothing, unless all arguments stand in
them. -/
def expandPart (env : Environment) (isAlone : Bool) (ws : List String) : Part → List String
  | .text c _ => glue ws c.toString
  | .emptyQuotes => if isAlone then ws else glue ws ""
  | .parameter p true => glueAll ws (env.values p)
  | .parameter p false => glueAll ws ((env.values p).flatMap fields)

/-- The words that a word of a script stands for. -/
def expand (env : Environment) (parts : List Part) : List String :=
  parts.foldl (env.expandPart (parts = [.emptyQuotes, .parameter .all true])) []

end Environment

/-- Where the output of a channel goes. -/
inductive Target
  /-- Where the given channel goes. -/
  | channel (parts : List Part)
  | file (parts : List Part)

structure Command where
  words : List (List Part)
  targets : List (Nat × Target)
  input : Option (List Part)

/-- When a pipeline runs. -/
inductive Condition
  | always
  | onSuccess
  | onFailure
deriving DecidableEq

/-- The pipelines of a script and when they run. A pipeline that has been begun stands before its
open command. -/
def pipelines (condition : Condition) (before : List Command) (c : Command) :
    List Token → List (Condition × List Command)
  | [] => [(condition, before ++ [c])]
  | .word parts :: ts => pipelines condition before { c with words := c.words ++ [parts] } ts
  | .redirect n :: .ampersand :: .word parts :: ts =>
    pipelines condition before { c with targets := c.targets ++ [(n, .channel parts)] } ts
  | .redirect n :: .redirect _ :: .word parts :: ts =>
    pipelines condition before { c with targets := c.targets ++ [(n, .file parts)] } ts
  | .redirect n :: .word parts :: ts =>
    pipelines condition before { c with targets := c.targets ++ [(n, .file parts)] } ts
  | .input :: .word parts :: ts => pipelines condition before { c with input := some parts } ts
  | .ampersand :: .ampersand :: ts =>
    (condition, before ++ [c]) :: pipelines .onSuccess [] ⟨[], [], none⟩ ts
  | .pipe :: .pipe :: ts =>
    (condition, before ++ [c]) :: pipelines .onFailure [] ⟨[], [], none⟩ ts
  | .pipe :: ts => pipelines condition (before ++ [c]) ⟨[], [], none⟩ ts
  | _ :: ts => (condition, before ++ [c]) :: pipelines .always [] ⟨[], [], none⟩ ts

/-- How a command ended, and whether the script ends with it. -/
structure Step where
  result : Result
  isLast : Bool

/-- Runs programs by their names. -/
abbrev Launcher := List UInt8 → String → List String → Option Result

/-- Ends the process of a script by a signal. -/
def kill : List String → Step
  | ["$$"] => ⟨⟨[], [], .killed 15⟩, true⟩
  | [option, "$$"] => send (option.drop 1).toString
  | ["-s", name, "$$"] => send name
  | _ => ⟨.fail 1 "kill: No such process", false⟩
where
  /-- Ends the process by the signal of a name. -/
  send (name : String) : Step :=
    match signalNumber? name with
    | some n => if n ∈ harmlessSignals then ⟨.code 0, false⟩ else ⟨⟨[], [], .killed n⟩, true⟩
    | none => ⟨.fail 2 ("kill: Illegal option -" ++ name), false⟩

/-- Runs a command of a script by its words. -/
def runWords (launch : Launcher) (env : Environment) (input : List UInt8) : List String → Step
  | [] => ⟨.code 0, false⟩
  | ["exit"] => ⟨.code env.code, true⟩
  | "exit" :: code :: _ =>
    match Text.Numeral.read? code.toList with
    | some n => ⟨.code (n % 256), true⟩
    | none => ⟨.fail 2 (env.complaint ("exit: Illegal number: " ++ code)), true⟩
  | "exec" :: [] => ⟨.code 0, false⟩
  | "exec" :: name :: words => ⟨found name words, true⟩
  | "kill" :: words => kill words
  | name :: words => ⟨found name words, false⟩
where
  /-- Runs a program, or says that there is none of that name. -/
  found (name : String) (words : List String) : Result :=
    (launch input name words).getD (.fail 127 (env.complaint (name ++ ": not found")))

/-- Where the channels of a command go: each to a channel of the script, or nowhere. -/
structure Routes where
  stdout : Option Nat
  stderr : Option Nat

/-- Routes after one more redirection. -/
def Routes.add (env : Environment) (r : Routes) (redirection : Nat × Target) : Routes :=
  let goal := match redirection.2 with
    | .file _ => none
    | .channel parts =>
      if env.expand parts = ["1"] then r.stdout
      else if env.expand parts = ["2"] then r.stderr
      else none
  if redirection.1 = 1 then { r with stdout := goal }
  else if redirection.1 = 2 then { r with stderr := goal }
  else r

/-- The output of a command after its redirections. -/
def Routes.apply (r : Routes) (result : Result) : Result :=
  let on (channel : Nat) :=
    (if r.stdout = some channel then result.stdout else []) ++
      if r.stderr = some channel then result.stderr else []
  ⟨on 1, on 2, result.status⟩

def runCommand (disk : Disk) (launch : Launcher) (env : Environment) (input : List UInt8)
    (c : Command) : Step :=
  let source : Except FileError (List UInt8) := match c.input with
    | none => .ok input
    | some parts => disk.read ("".intercalate (env.expand parts))
  match source with
  | .error _ => ⟨.fail 2 (env.complaint "cannot open input"), false⟩
  | .ok input =>
    let step := runWords launch env input (c.words.flatMap env.expand)
    ⟨(c.targets.foldl (Routes.add env) ⟨some 1, some 2⟩).apply step.result, step.isLast⟩

/-- Runs a pipeline, each command on the output of the one before it. Only a command that stands
alone can end the script. -/
def runPipeline (disk : Disk) (launch : Launcher) (env : Environment) (input : List UInt8) :
    List Command → Step
  | [] => ⟨.code 0, false⟩
  | [c] => runCommand disk launch env input c
  | c :: cs =>
    let first := (runCommand disk launch env input c).result
    let rest := (runPipeline disk launch env first.stdout cs).result
    ⟨{ rest with stderr := first.stderr ++ rest.stderr }, false⟩

/-- Whether a pipeline runs after a code. -/
def Condition.holds (code : Nat) : Condition → Bool
  | always => true
  | onSuccess => code = 0
  | onFailure => code ≠ 0

/-- Runs pipelines in order. -/
def runAll (disk : Disk) (launch : Launcher) (input : List UInt8) (env : Environment) :
    List (Condition × List Command) → Result
  | [] => .code env.code
  | (condition, cs) :: ps =>
    if condition.holds env.code ∧ ¬cs.all (fun c => c.words.isEmpty && c.targets.isEmpty) then
      let step := runPipeline disk launch env input cs
      if step.isLast then step.result
      else
        let rest := runAll disk launch input { env with code := step.result.status.code } ps
        ⟨step.result.stdout ++ rest.stdout, step.result.stderr ++ rest.stderr, rest.status⟩
    else runAll disk launch input env ps

/-- Runs a script with its arguments, the first of which is its name. -/
def runScript (disk : Disk) (launch : Launcher) (input : List UInt8) (script : String)
    (arguments : List String) : Result :=
  runAll disk launch input ⟨arguments, 0⟩
    (pipelines .always [] ⟨[], [], none⟩ (tokens script.toList))

/-- The name of the program at a path: a name alone, or one in a directory of programs. -/
def programName? (path : String) : Option String :=
  match path.splitOn "/" with
  | [name] | ["", "bin", name] | ["", "usr", "bin", name] => some name
  | _ => none

/-- Runs a program by its name or its path. Scripts run programs in turn, up to a depth. -/
def launch (disk : Disk) (isBuiltin : Bool) : Nat → Launcher
  | 0, _, _, _ => none
  | depth + 1, input, path, arguments =>
    (programName? path).bind fun name =>
      if name = "sh" then
        let inner := launch disk true depth
        match arguments with
        | [] => some (runScript disk inner [] (Text.Utf8.decodeLossy input) [path])
        | "-c" :: [] => some (.fail 2 (path ++ ": 0: -c requires an argument"))
        | "-c" :: script :: rest =>
          some (runScript disk inner input script (if rest = [] then [path] else rest))
        | file :: rest =>
          match disk.read file with
          | .ok script =>
            some (runScript disk inner input (Text.Utf8.decodeLossy script) (file :: rest))
          | .error _ => some (.fail 2 (path ++ ": 0: cannot open " ++ file ++ ": No such file"))
      else program? disk isBuiltin input name arguments

/-- Runs a program. No file of the disk is one. -/
def run (disk : Disk) (path : String) (arguments : List String) : Except FileError Result :=
  match launch disk false 16 [] path arguments with
  | some result => .ok result
  | none =>
    if '/' ∉ path.toList then .error .notFound
    else
      (disk.locate path).bind fun _ =>
        .error (if disk.contains path then .denied else .notFound)

end SyntaxLens.Shell
