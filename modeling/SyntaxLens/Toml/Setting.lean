/-!
# Settings

A `Setting` is the content of a configuration file without its notation: texts, lists, tables of
named settings, and values of other types, which no option takes.
-/

namespace SyntaxLens

/-- A value in a configuration. -/
inductive Setting
  | text (value : String)
  | list (items : List Setting)
  | table (entries : List (String × Setting))
  /-- A number, a truth value, a date or an empty value. -/
  | other

namespace Setting

instance : Inhabited Setting := ⟨other⟩

/-- The text of a setting that is one. -/
def text? : Setting → Option String
  | text value => some value
  | list _ | table _ | other => none

/-- What every item of a list reads as. -/
def listOf? {α : Type} (item? : Setting → Option α) : Setting → Option (List α)
  | list items => items.mapM item?
  | text _ | table _ | other => none

/-- The named settings of a section. A list gives the settings in the order of their names. -/
def section? (names : List String) : Setting → Option (List (String × Setting))
  | table entries => some entries
  | list items => if items.length ≤ names.length then some (names.zip items) else none
  | text _ | other => none

/-- What the setting of a name reads as, or a default if there is none of that name. -/
def entryOr? {α : Type} (entries : List (String × Setting)) (name : String)
    (read? : Setting → Option α) (default : α) : Option α :=
  match entries.lookup name with
  | some setting => read? setting
  | none => some default

end Setting

end SyntaxLens
