import SyntaxLens.Toml.Setting
/-!
# Tables of TOML

Tables grow entry by entry. A table is opened by its header, by a dotted key, or only because a
table below it is opened; a header opens a table once, and a key is given once.
-/

namespace SyntaxLens.Toml

inductive Origin
  | header
  | dottedKey
  /-- A header of a table below it. -/
  | descendant
deriving DecidableEq

/-- An entry of a table that grows. -/
inductive Item
  | value (setting : Setting)
  | table (origin : Origin) (entries : List (String × Item))
  /-- Tables of one name, the last of which grows. -/
  | tables (elements : List (List (String × Item)))

/-- The entries of a table. -/
abbrev Entries := List (String × Item)

/-- Changes the entry of a key, which may be missing. -/
def updateEntry (key : String) (f : Option Item → Option Item) : Entries → Option Entries
  | [] => (f none).map fun item => [(key, item)]
  | (k, item) :: entries =>
    if k = key then (f (some item)).map fun item => (k, item) :: entries
    else (updateEntry key f entries).map fun entries => (k, item) :: entries

/-- Gives a value to a dotted key. Only a table that was opened by dotted keys takes it; they may
lead to it through a table that was opened for one below it. -/
def assign (value : Setting) : List String → Entries → Option Entries
  | [], _ => none
  | [key], entries =>
    updateEntry key (fun
      | none => some (.value value)
      | some _ => none) entries
  | key :: keys, entries =>
    updateEntry key (fun
      | none => (assign value keys []).map (.table .dottedKey)
      | some (.table .dottedKey entries) => (assign value keys entries).map (.table .dottedKey)
      | some (.table .descendant entries) =>
        if keys.length = 1 then none else (assign value keys entries).map (.table .descendant)
      | some _ => none) entries

/-- Changes the entries of a table that grows. -/
def growItem (f : Entries → Option Entries) : Item → Option Item
  | .value _ => none
  | .table origin entries => (f entries).map (.table origin)
  | .tables elements =>
    (f (elements.getLastD [])).map fun entries => .tables (elements.dropLast ++ [entries])

/-- Changes the entries of the table at a path. Tables on the way to it are opened. -/
def growAt (f : Entries → Option Entries) : List String → Entries → Option Entries
  | [], entries => f entries
  | key :: keys, entries =>
    updateEntry key (fun
      | none => (growAt f keys []).map (.table .descendant)
      | some item => growItem (growAt f keys) item) entries

/-- Opens a table by its header. -/
def openTable (key : String) (entries : Entries) : Option Entries :=
  updateEntry key (fun
    | none => some (.table .header [])
    | some (.table .descendant entries) => some (.table .header entries)
    | some _ => none) entries

/-- Opens one more of the tables of a name. -/
def openElement (key : String) (entries : Entries) : Option Entries :=
  updateEntry key (fun
    | none => some (.tables [[]])
    | some (.tables elements) => some (.tables (elements ++ [[]]))
    | some _ => none) entries

mutual

def Item.setting : Item → Setting
  | .value setting => setting
  | .table _ entries => .table (settings entries)
  | .tables elements => .list (elementSettings elements)

def settings : List (String × Item) → List (String × Setting)
  | [] => []
  | (key, item) :: entries => (key, item.setting) :: settings entries

/-- The settings of tables of one name. -/
def elementSettings : List (List (String × Item)) → List Setting
  | [] => []
  | entries :: elements => .table (settings entries) :: elementSettings elements

end

end SyntaxLens.Toml
