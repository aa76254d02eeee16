import Mathlib
import SyntaxLens.Machine

/-!
# Where the options of a run come from

The options come from the file that is given, or else from the first of two files that exists, that
of the directory and that of the user, or else they are the default ones. A file whose options no
run can work with is refused, and no other one is tried after it. What a file holds is up to the
machine, and a file exists if it is found when it is looked for.
-/

namespace SyntaxLens

/-- Where options come from. -/
inductive ConfigSource
  | file (path : String)
  | defaults

/-- The options of a run for a given file, if there is one, come from the source. -/
inductive IsSource (disk : Disk) (user : Option String) : Option String → ConfigSource → Prop
  | given (path : String) : IsSource disk user (some path) (.file path)
  | ofDirectory (h : disk.contains localConfigPath = true) :
    IsSource disk user none (.file localConfigPath)
  | ofUser {path : String} (hlocal : disk.contains localConfigPath = false)
    (huser : user = some path) (h : disk.contains path = true) :
    IsSource disk user none (.file path)
  | defaults (hlocal : disk.contains localConfigPath = false)
    (huser : ∀ path ∈ user, disk.contains path = false) : IsSource disk user none .defaults

/-- The file is there and holds the options. -/
structure HoldsOptions (m : Machine) (disk : Disk) (path : String) (config : Config) : Prop where
  exists_file : disk.contains path = true
  holds : ∃ text, readFile disk path = .ok text ∧ m.options? text = some config

/-- The source has options that a run can work with. -/
inductive ConfigSource.Gives (m : Machine) (disk : Disk) : ConfigSource → Config → Prop
  | file {path : String} {config : Config} (h : HoldsOptions m disk path config)
    (hcommand : config.command ≠ []) (hcolumns : config.view.columns ≠ []) :
    Gives m disk (.file path) config
  | defaults : Gives m disk .defaults default

/-- Why a source has no options that a run can work with. -/
inductive ConfigSource.IsRefused (m : Machine) (disk : Disk) : ConfigSource → Failure → Prop
  | missing {path : String} (h : disk.contains path = false) :
    IsRefused m disk (.file path) (.config (.missingFile path))
  | unreadable {path : String} {e : FileError} (hfile : disk.contains path = true)
    (h : disk.readText path = .error e) : IsRefused m disk (.file path) (.file e)
  | malformed {path text : String} (hfile : disk.contains path = true)
    (hread : readFile disk path = .ok text)
    (h : m.options? text = none) : IsRefused m disk (.file path) (.config .malformedToml)
  | noProgram {path : String} {config : Config} (hholds : HoldsOptions m disk path config)
    (h : config.command = []) : IsRefused m disk (.file path) (.config .noProgram)
  | noColumns {path : String} {config : Config} (hholds : HoldsOptions m disk path config)
    (hcommand : config.command ≠ []) (h : config.view.columns = []) :
    IsRefused m disk (.file path) (.config .noColumns)

variable {m : Machine} {disk : Disk} {user explicit : Option String} {source : ConfigSource}
  {config : Config} {f : Failure}

theorem exists_source (disk : Disk) (user explicit : Option String) :
    ∃ source, IsSource disk user explicit source := by
  cases explicit with
  | some path => exact ⟨_, .given path⟩
  | none =>
    cases hlocal : disk.contains localConfigPath with
    | true => exact ⟨_, .ofDirectory hlocal⟩
    | false =>
      cases user with
      | none => exact ⟨_, .defaults hlocal nofun⟩
      | some path =>
        cases hpath : disk.contains path with
        | true => exact ⟨_, .ofUser hlocal rfl hpath⟩
        | false =>
          refine ⟨_, .defaults hlocal fun p hp => ?_⟩
          rwa [← Option.some.inj hp]

/-- Options that are read from the source. -/
def ConfigSource.load (m : Machine) (disk : Disk) : ConfigSource → Except Failure Config
  | file path => m.loadConfigFile disk path
  | defaults => .ok default

lemma loadConfig_eq (h : IsSource disk user explicit source) :
    m.loadConfig disk user explicit = source.load m disk := by
  unfold Machine.loadConfig
  cases h with
  | given path => rfl
  | ofDirectory hlocal => simp only [List.find?_cons, hlocal]; rfl
  | ofUser hlocal huser h =>
    simp only [huser, Option.toList_some, List.find?_cons, hlocal, h]
    rfl
  | defaults hlocal huser =>
    have hnone : (localConfigPath :: user.toList).find? disk.contains = none := by
      rw [List.find?_cons_of_neg (by simp [hlocal]), List.find?_eq_none]
      intro path hpath
      simp [huser path (Option.mem_toList.mp hpath)]
    simp only [hnone]
    rfl

lemma IsSource.unique {other : ConfigSource} (h : IsSource disk user explicit source)
    (hother : IsSource disk user explicit other) : other = source := by
  cases h with
  | given path =>
    cases hother
    rfl
  | ofDirectory hlocal =>
    cases hother with
    | ofDirectory => rfl
    | ofUser hnone | defaults hnone => rw [hlocal] at hnone; cases hnone
  | ofUser hlocal huser hfile =>
    cases hother with
    | ofDirectory hsome => rw [hlocal] at hsome; cases hsome
    | ofUser hnone huser' => rw [huser] at huser'; cases huser'; rfl
    | defaults hnone hnot => rw [hnot _ huser] at hfile; cases hfile
  | defaults hlocal hnot =>
    cases hother with
    | ofDirectory hsome => rw [hlocal] at hsome; cases hsome
    | ofUser hnone huser' hfile => rw [hnot _ huser'] at hfile; cases hfile
    | defaults => rfl

/-- A file that is there holds options or is refused before any are looked at. -/
lemma holdsOptions_or_refused {path : String} (hfile : disk.contains path = true) :
    (∃ config, HoldsOptions m disk path config) ∨
      ∃ f, ConfigSource.IsRefused m disk (.file path) f := by
  cases hread : disk.readText path with
  | error e => exact .inr ⟨_, .unreadable hfile hread⟩
  | ok text =>
    have htext : readFile disk path = .ok text := by rw [readFile, hread]; rfl
    cases hsetting : m.options? text with
    | none => exact .inr ⟨_, .malformed hfile htext hsetting⟩
    | some config => exact .inl ⟨config, hfile, text, htext, hsetting⟩

theorem ConfigSource.gives_or_refused (m : Machine) (disk : Disk) (source : ConfigSource) :
    (∃ config, source.Gives m disk config) ∨ ∃ f, source.IsRefused m disk f := by
  cases source with
  | defaults => exact .inl ⟨_, .defaults⟩
  | file path =>
    cases hfile : disk.contains path with
    | false => exact .inr ⟨_, .missing hfile⟩
    | true =>
      rcases holdsOptions_or_refused hfile with ⟨config, hholds⟩ | hrefused
      · by_cases hcommand : config.command = []
        · exact .inr ⟨_, .noProgram hholds hcommand⟩
        · by_cases hcolumns : config.view.columns = []
          · exact .inr ⟨_, .noColumns hholds hcommand hcolumns⟩
          · exact .inl ⟨config, .file hholds hcommand hcolumns⟩
      · exact .inr hrefused

lemma HoldsOptions.loadConfigFile_eq {path : String} (h : HoldsOptions m disk path config) :
    m.loadConfigFile disk path = validate config := by
  obtain ⟨hfile, text, hread, hsetting⟩ := h
  rw [Machine.loadConfigFile, if_pos hfile, hread]
  simp only [Except.bind, hsetting]

lemma ConfigSource.Gives.load_eq (h : source.Gives m disk config) :
    source.load m disk = .ok config := by
  cases h with
  | file hholds hcommand hcolumns =>
    rw [load, hholds.loadConfigFile_eq, validate, if_neg hcommand, if_neg hcolumns]
  | defaults => rfl

lemma ConfigSource.IsRefused.load_eq (h : source.IsRefused m disk f) :
    source.load m disk = .error f := by
  cases h with
  | missing h => rw [load, Machine.loadConfigFile, if_neg (by simp [h])]
  | unreadable hfile h => rw [load, Machine.loadConfigFile, if_pos hfile, readFile, h]; rfl
  | malformed hfile hread h =>
    rw [load, Machine.loadConfigFile, if_pos hfile, hread]
    simp only [Except.bind, h]
  | noProgram hholds h => rw [load, hholds.loadConfigFile_eq, validate, if_pos h]
  | noColumns hholds hcommand h =>
    rw [load, hholds.loadConfigFile_eq, validate, if_neg hcommand, if_pos h]

/-- The options that are loaded are those that the source gives. -/
theorem loadConfig_eq_ok_iff (h : IsSource disk user explicit source) :
    m.loadConfig disk user explicit = .ok config ↔ source.Gives m disk config := by
  rw [loadConfig_eq h]
  refine ⟨fun hload => ?_, ConfigSource.Gives.load_eq⟩
  rcases source.gives_or_refused m disk with ⟨c, hgives⟩ | ⟨f, hrefused⟩
  · cases hload.symm.trans hgives.load_eq
    exact hgives
  · cases hload.symm.trans hrefused.load_eq

theorem loadConfig_eq_error_iff (h : IsSource disk user explicit source) :
    m.loadConfig disk user explicit = .error f ↔ source.IsRefused m disk f := by
  rw [loadConfig_eq h]
  refine ⟨fun hload => ?_, ConfigSource.IsRefused.load_eq⟩
  rcases source.gives_or_refused m disk with ⟨c, hgives⟩ | ⟨e, hrefused⟩
  · cases hload.symm.trans hgives.load_eq
  · cases hload.symm.trans hrefused.load_eq
    exact hrefused

lemma ConfigSource.Gives.usable (h : source.Gives m disk config) :
    config.command ≠ [] ∧ config.view.columns ≠ [] := by
  cases h with
  | file _ hcommand hcolumns => exact ⟨hcommand, hcolumns⟩
  | defaults => decide

theorem usable_of_loadConfig (h : m.loadConfig disk user explicit = .ok config) :
    config.command ≠ [] ∧ config.view.columns ≠ [] := by
  obtain ⟨source, hsource⟩ := exists_source disk user explicit
  exact ((loadConfig_eq_ok_iff hsource).mp h).usable

end SyntaxLens
