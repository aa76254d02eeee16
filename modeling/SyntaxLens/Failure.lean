import SyntaxLens.Diagnostic
import SyntaxLens.Disk
import SyntaxLens.Process
/-!
# Failures

A `Failure` is the reason why a tree cannot be loaded or shown. `Failure.reports` is what is told
about it: one report for every diagnostic of a dump, and one for any other failure.
-/

namespace SyntaxLens

/-- Why the parser command gave no dump. -/
inductive CommandError
  | cannotRun (program reason : String)
  | failed (program : String) (status : Process.Status) (stderr : String)
  | notText (fault : Text.Utf8.Fault)

/-- Why there are no options to work with. -/
inductive ConfigError
  | emptyCommand
  | malformedToml
  | missingFile (path : String)
  | noProgram
  | noColumns

/-- Why a tree cannot be written. -/
inductive ExportError
  | noColumns
  /-- The output takes no more bytes. -/
  | limitReached

/-- Why a tree cannot be loaded or shown. -/
inductive Failure
  | file (e : FileError)
  /-- The dump, and what is wrong with it. -/
  | dump (text : String) (diagnostics : List Diagnostic)
  | command (e : CommandError)
  | config (e : ConfigError)
  | unknownPath (path : String)
  | output (e : ExportError)

/-- The wording of a failed command. -/
def CommandError.message : CommandError → String
  | cannotRun program reason => s!"cannot run `{program}`: {reason}"
  | failed program status stderr => s!"`{program}` exited with {status.text}: {stderr}"
  | notText fault => s!"output is not UTF-8: {fault.message}"

/-- The wording of missing options. -/
def ConfigError.message : ConfigError → String
  | emptyCommand => "parser command is empty"
  | malformedToml => "Failed to parse TOML configuration"
  | missingFile path => s!"Missing configuration file: {path}"
  | noProgram => "Validation error: `parser.command` must name a program"
  | noColumns => "Validation error: `view.columns` must list at least one column"

/-- The reason for an output that fails as it is written. -/
def ExportError.cause? : ExportError → Option String
  | noColumns => none
  | limitReached => some "limit reached"

/-- The wording of a failed output. -/
def ExportError.message : ExportError → String
  | noColumns => "Render error: no columns to export"
  | limitReached => "I/O error: limit reached"

/-- What is told about a failure. -/
structure Report where
  message : String
  code : Option String
  help : Option String
  labels : Option (List Label)
  /-- The labels are ranges of a dump. -/
  hasSource : Bool
  cause : Option String

namespace Failure

def message : Failure → String
  | file e => s!"I/O error: {e.message}"
  | dump _ diagnostics => Diagnostic.summary diagnostics
  | command e => s!"Parser command failed: {e.message}"
  | config e => s!"Configuration error: {e.message}"
  | unknownPath path => s!"No node at path `{path}`"
  | output e => s!"Export error: {e.message}"

/-- The code of a failure that has no place in a dump. -/
def code? : Failure → Option String
  | file _ => some "astview::io"
  | dump _ _ => none
  | command _ => some "astview::parser"
  | config _ => some "astview::config"
  | unknownPath _ => some "astview::path"
  | output _ => some "astview::export"

def help? : Failure → Option String
  | command _ => some "set `parser.command` in the configuration or pass `--dump FILE`"
  | unknownPath _ => some "paths look like `body[0].value.keys[1]`"
  | file _ | dump _ _ | config _ | output _ => none

/-- The reason behind a failure. -/
def cause? : Failure → Option String
  | file e => some e.message
  | dump _ _ | command _ | config _ | unknownPath _ | output _ => none

end Failure

def Diagnostic.report (d : Diagnostic) : Report :=
  ⟨d.message, d.kind.map DiagnosticKind.code, d.help, if d.labels = [] then none else some d.labels,
    true, none⟩

def Failure.reports : Failure → List Report
  | dump _ diagnostics => diagnostics.map Diagnostic.report
  | f => [⟨f.message, f.code?, f.help?, none, false, f.cause?⟩]

end SyntaxLens
