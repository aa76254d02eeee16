import SyntaxLens.Config
import SyntaxLens.Toml.Reader
/-!
# Options in TOML

A configuration has the sections `parser`, `resolve` and `view`. Whatever they leave out keeps its
default, and what they do not know is passed over.
-/

namespace SyntaxLens

namespace Config

/-- Reads the options of the section `parser`. -/
def readParser? (c : Config) (s : Setting) : Option Config := do
  let entries ← s.section? ["command", "mode"]
  let command ← Setting.entryOr? entries "command" (·.listOf? Setting.text?) c.command
  let mode ← Setting.entryOr? entries "mode" (·.text?.bind SourceMode.ofName?) c.mode
  return { c with command, mode }

/-- Reads the options of the section `resolve`. -/
def readResolve? (c : Config) (s : Setting) : Option Config := do
  let entries ← s.section? ["detached_fields"]
  let detached ← Setting.entryOr? entries "detached_fields"
    (fun s => (s.listOf? Setting.text?).map LabelSet.ofList) c.detached
  return { c with detached }

/-- Reads the options of the section `view`. -/
def readView? (c : Config) (s : Setting) : Option Config := do
  let entries ← s.section? ["columns", "expand"]
  let columns ← Setting.entryOr? entries "columns"
    (·.listOf? (·.text?.bind Column.ofName?)) c.view.columns
  let expansion ← Setting.entryOr? entries "expand"
    (·.text?.bind Expansion.ofName?) c.view.expansion
  return { c with view := ⟨columns, expansion⟩ }

def ofSetting? (s : Setting) : Option Config := do
  let sections ← s.section? ["parser", "resolve", "view"]
  let c ← Setting.entryOr? sections "parser" (readParser? default) default
  let c ← Setting.entryOr? sections "resolve" (readResolve? c) c
  Setting.entryOr? sections "view" (readView? c) c

end Config

/-- The options that a text holds. -/
def Toml.options? (s : String) : Option Config :=
  (read? s).bind Config.ofSetting?

end SyntaxLens
