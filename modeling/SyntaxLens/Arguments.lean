import SyntaxLens.Position
/-!
# Arguments of the command line

The arguments name the source file and options with a value each. The value of an option stands
in the next argument or is attached, as in `--name=value`, `-nvalue` and `-n=value`. An option
is settled when the argument after its value is read, so its faults are found before those of the
arguments that follow. After `--` no argument is an option.
-/

namespace SyntaxLens

/-- The format in which a whole tree is written. -/
inductive Format
  | text
  | json
deriving DecidableEq

namespace Format

def name : Format → String
  | text => "text"
  | json => "json"

def ofName? (name : String) : Option Format :=
  [text, json].find? (·.name = name)

end Format

/-- What the command line asks for. -/
structure Arguments where
  /-- The path of the source file. -/
  input : String
  /-- The path of the dump, which else comes from the configured command. -/
  dump : Option String
  /-- The cursor whose node is shown. -/
  cursor : Option LineCol
  /-- The path of the node that is shown. -/
  select : Option String
  format : Format
  /-- The path of the file to write to in the place of the standard output. -/
  output : Option String
  /-- The path of the configuration file. -/
  config : Option String
  logLevel : String
deriving DecidableEq

/-- Why arguments are refused, or what they ask for in the place of a run. -/
inductive ArgumentError
  | missingInput
  /-- No option has that name, or there is more than one input. -/
  | unknown
  /-- An option is given twice, or two that exclude each other. -/
  | conflict
  /-- A value is missing or not one of those that are possible. -/
  | invalidValue
  /-- The cursor is no place. -/
  | badCursor
  /-- A value is attached to an option that takes none. -/
  | needlessValue
  | help
  | version
deriving DecidableEq

namespace Arguments

/-- An option that takes a value. -/
inductive Key
  | dump
  | format
  | output
  | config
  | cursor
  | select
  | logLevel
deriving DecidableEq

inductive Flag
  | valued (key : Key)
  | help
  | version

def ofLong? (name : String) : Option Flag :=
  if name = "dump" then some (.valued .dump)
  else if name = "format" then some (.valued .format)
  else if name = "output" then some (.valued .output)
  else if name = "config" then some (.valued .config)
  else if name = "at" then some (.valued .cursor)
  else if name = "select" then some (.valued .select)
  else if name = "log-level" then some (.valued .logLevel)
  else if name = "help" then some .help
  else if name = "version" then some .version
  else none

def ofShort? (c : Char) : Option Flag :=
  if c = 'd' then some (.valued .dump)
  else if c = 'f' then some (.valued .format)
  else if c = 'o' then some (.valued .output)
  else if c = 'c' then some (.valued .config)
  else if c = 'h' then some .help
  else if c = 'V' then some .version
  else none

/-- The arguments that have been read. -/
structure Given where
  input : Option String
  dump : Option String
  cursor : Option LineCol
  select : Option String
  format : Option Format
  output : Option String
  config : Option String
  logLevel : Option String
  /-- The option whose value is not settled yet, with its value if it has been read. -/
  pending : Option (Key × Option String)

namespace Given

/-- Settles a value that may be given once. -/
def once {α : Type} (old : Option α) (value : Except ArgumentError α) :
    Except ArgumentError (Option α) :=
  match old with
  | some _ => .error .conflict
  | none => value.map some

/-- Settles the value of an option. -/
def set (g : Given) (key : Key) (value : String) : Except ArgumentError Given :=
  match key with
  | .dump => (once g.dump (.ok value)).map fun v => { g with dump := v }
  | .select => (once g.select (.ok value)).map fun v => { g with select := v }
  | .output => (once g.output (.ok value)).map fun v => { g with output := v }
  | .config => (once g.config (.ok value)).map fun v => { g with config := v }
  | .logLevel => (once g.logLevel (.ok value)).map fun v => { g with logLevel := v }
  | .format =>
    (once g.format (((Format.ofName? value).map .ok).getD (.error .invalidValue))).map fun v =>
      { g with format := v }
  | .cursor =>
    (once g.cursor ((LineCol.read value).mapError fun _ => .badCursor)).map fun v =>
      { g with cursor := v }

/-- Settles the option that has been read last. -/
def settle (g : Given) : Except ArgumentError Given :=
  match g.pending with
  | none => .ok g
  | some (_, none) => .error .invalidValue
  | some (key, some value) => { g with pending := none }.set key value

/-- Reads an option, whose value may be attached. -/
def flag (g : Given) (attached : Option String) : Flag → Except ArgumentError Given
  | .help => g.settle.bind fun _ => .error .help
  | .version => g.settle.bind fun _ => .error .version
  | .valued key =>
    g.settle.bind fun g =>
      match attached with
      | some value => g.set key value
      | none => .ok { g with pending := some (key, none) }

/-- Reads an argument that is no option. -/
def plain (g : Given) (a : String) : Except ArgumentError Given :=
  match g.input with
  | some _ => .error .unknown
  | none => g.settle.map fun g => { g with input := some a }

/-- Reads an argument that starts with two hyphens. -/
def long (g : Given) (name : List Char) : Except ArgumentError Given :=
  let attached := (name.dropWhile (· ≠ '=')).tail
  let hasValue := '=' ∈ name
  match ofLong? (String.ofList (name.takeWhile (· ≠ '='))) with
  | none => .error .unknown
  | some (.valued key) =>
    g.flag (if hasValue then some (String.ofList attached) else none) (.valued key)
  | some other => if hasValue then .error .needlessValue else g.flag none other

/-- Reads an argument that starts with one hyphen and a letter. -/
def short (g : Given) (c : Char) (rest : List Char) : Except ArgumentError Given :=
  match ofShort? c with
  | none => .error .unknown
  | some f =>
    match rest with
    | [] => g.flag none f
    | '=' :: value => g.flag (some (String.ofList value)) f
    | value => g.flag (some (String.ofList value)) f

/-- Reads the value of the option before it, or else an input. -/
def value (g : Given) (a : String) : Except ArgumentError Given :=
  match g.pending with
  | some (key, none) => .ok { g with pending := some (key, some a) }
  | _ => g.plain a

def readAll (g : Given) : List String → Except ArgumentError Given
  | [] => g.settle
  | a :: rest =>
    match a.toList with
    | ['-', '-'] => (rest.foldlM plain g).bind settle
    | '-' :: '-' :: name => (g.long name).bind fun g => readAll g rest
    | '-' :: c :: cs => (g.short c cs).bind fun g => readAll g rest
    | _ => (g.value a).bind fun g => readAll g rest

end Given

/-- The arguments of a command line without the name of the program. -/
def read (arguments : List String) : Except ArgumentError Arguments :=
  (Given.readAll ⟨none, none, none, none, none, none, none, none, none⟩ arguments).bind fun g =>
    if g.cursor.isSome ∧ g.select.isSome then .error .conflict
    else
      match g.input with
      | none => .error .missingInput
      | some input =>
        .ok ⟨input, g.dump, g.cursor, g.select, g.format.getD .text, g.output, g.config,
          g.logLevel.getD "warn"⟩

end Arguments

end SyntaxLens
