import Mathlib
import SyntaxLens.Proofs.Run.Outcomes

/-!
# Runs and their options

A run works with the options of the first file that exists, whatever the files after it hold, or it
fails with the reason why that file is refused. A file that exists may still not be readable; one
that cannot be reached does not exist for the run. All options that it can work with name a program
and have columns to show, so that it never finds itself without a command or a table to write.
-/

namespace SyntaxLens

variable {m : Machine} {disk disk' : Disk} {user user' explicit : Option String}
  {arguments : Arguments} {config : Config} {source : ConfigSource} {f : Failure}

/-- The files that may hold the options, in the order in which they are looked for. -/
def configCandidates (user explicit : Option String) : List String :=
  explicit.toList ++ localConfigPath :: user.toList

/-- The file that the options come from. -/
def ConfigSource.path? : ConfigSource → Option String
  | file path => some path
  | defaults => none

lemma find?_configCandidates (h : IsSource disk user explicit source)
    (hgives : source.Gives m disk config) :
    (configCandidates user explicit).find? disk.contains = source.path? := by
  cases h with
  | given path =>
    cases hgives with
    | file hholds => exact List.find?_cons_of_pos hholds.exists_file
  | ofDirectory hlocal => exact List.find?_cons_of_pos hlocal
  | ofUser hlocal huser h =>
    subst huser
    exact (List.find?_cons_of_neg (by simp [hlocal])).trans (List.find?_cons_of_pos h)
  | defaults hlocal huser =>
    refine (List.find?_cons_of_neg (by simp [hlocal])).trans (List.find?_eq_none.mpr ?_)
    intro path hpath
    simp [huser path (Option.mem_toList.mp hpath)]

lemma loadConfigFile_congr {path : String} (hfile : disk'.contains path = disk.contains path)
    (hread : readFile disk' path = readFile disk path) :
    m.loadConfigFile disk' path = m.loadConfigFile disk path := by
  rw [Machine.loadConfigFile, Machine.loadConfigFile, hfile, hread]

lemma loadConfig_congr (h : IsSource disk user explicit source)
    (h' : IsSource disk' user' explicit source)
    (hfile : ∀ path, source = .file path → disk'.contains path = disk.contains path ∧
      readFile disk' path = readFile disk path) :
    m.loadConfig disk' user' explicit = m.loadConfig disk user explicit := by
  rw [loadConfig_eq h, loadConfig_eq h']
  cases source with
  | file path => exact loadConfigFile_congr (hfile path rfl).1 (hfile path rfl).2
  | defaults => rfl

lemma failure_printText {text : Except Failure String}
    (h : (printText disk text).failure = some f) : text = .error f := by
  cases text with
  | error e => rw [Option.some.inj h]
  | ok s => cases h

/-- With options that it can work with, a run fails as it loads a tree, as it opens its output, or
since no node has the path that it is asked for. -/
lemma failure_runWith (hcommand : config.command ≠ []) (hcolumns : config.view.columns ≠ [])
    (h : (m.runWith disk config arguments).failure = some f) :
    f.OfTree ∨ ∃ path, arguments.select = some path ∧ f = .unknownPath path := by
  have htree : FailsByTree (m.loadTree disk config arguments).1 := failsByTree_loadTree hcommand
  unfold Machine.runWith at h
  generalize m.loadTree disk config arguments = loading at h htree
  obtain ⟨loaded, after⟩ := loading
  cases loaded with
  | error e =>
    cases h
    exact .inl (htree _ rfl)
  | ok t =>
    cases hpath : arguments.output with
    | none =>
      simp only [hpath] at h
      exact .inr (output_eq_error hcolumns (failure_printText h))
    | some path =>
      simp only [hpath] at h
      rcases writeFile_of_failure h with ⟨e, rfl, -⟩ | ⟨htext, -⟩
      · exact .inl (.file e)
      · exact .inr (output_eq_error hcolumns htext)

lemma ConfigSource.IsRefused.ne_misconfigured (h : source.IsRefused m disk f) :
    f ≠ .output .noColumns ∧ f ≠ .config .emptyCommand := by
  cases h <;> exact ⟨by simp, by simp⟩

lemma Failure.OfTree.ne_misconfigured (h : f.OfTree) :
    f ≠ .output .noColumns ∧ f ≠ .config .emptyCommand := by
  cases h <;> exact ⟨by simp, by simp⟩

/-- No run finds that there is no column to show or no command to run. -/
theorem failure_run_ne (h : (m.run disk user arguments).failure = some f) :
    f ≠ .output .noColumns ∧ f ≠ .config .emptyCommand := by
  obtain ⟨source, hsource⟩ := exists_source disk user arguments.config
  rw [Machine.run] at h
  cases hconfig : m.loadConfig disk user arguments.config with
  | error e =>
    rw [hconfig] at h
    cases h
    exact ((loadConfig_eq_error_iff hsource).mp hconfig).ne_misconfigured
  | ok config =>
    rw [hconfig] at h
    obtain ⟨hcommand, hcolumns⟩ := usable_of_loadConfig hconfig
    rcases failure_runWith hcommand hcolumns h with htree | ⟨path, -, rfl⟩
    · exact htree.ne_misconfigured
    · exact ⟨by simp, by simp⟩

/-- The options of a run have one source: the file that is given, or else the first of the other
candidates that exists, or else none. The run works with the options that the source gives, and
then the source is the first candidate that exists, or it fails with the reason why the source is
refused, be it that the file cannot be read. Neither depends on anything that the disk holds
elsewhere. A candidate that does not exist for the run is not there or cannot be reached, and one
that can be read exists. Whatever the disk holds and refuses, the run does not find itself without
columns to show or without a command to run. -/
theorem run_by_source (m : Machine) (disk : Disk) (user : Option String) (arguments : Arguments) :
    ∃ source, IsSource disk user arguments.config source ∧
      (∀ other, IsSource disk user arguments.config other → other = source) ∧
      ((∃ config, source.Gives m disk config) ∨ ∃ f, source.IsRefused m disk f) ∧
      (∀ config, source.Gives m disk config →
        m.loadConfig disk user arguments.config = .ok config ∧
        (configCandidates user arguments.config).find? disk.contains = source.path? ∧
        m.run disk user arguments = m.runWith disk config arguments) ∧
      (∀ f, source.IsRefused m disk f → m.run disk user arguments = ⟨"", disk, some f⟩) ∧
      (∀ path, disk.contains path = false →
        disk.unlocked.contains path = false ∨ disk.locate path = .error .denied) ∧
      (∀ path text, disk.readText path = .ok text → disk.contains path = true) ∧
      (∀ disk' user', IsSource disk' user' arguments.config source →
        (∀ path, source = .file path → disk'.contains path = disk.contains path ∧
          readFile disk' path = readFile disk path) →
        m.loadConfig disk' user' arguments.config = m.loadConfig disk user arguments.config) ∧
      ∀ f, (m.run disk user arguments).failure = some f →
        f ≠ .output .noColumns ∧ f ≠ .config .emptyCommand := by
  obtain ⟨source, hsource⟩ := exists_source disk user arguments.config
  refine ⟨source, hsource, fun _ => hsource.unique, source.gives_or_refused m disk, ?_, ?_,
    fun path => Disk.unlocked_or_denied, fun path text => Disk.contains_of_readText,
    fun disk' user' => loadConfig_congr hsource, fun f => failure_run_ne⟩
  · intro config hgives
    have hconfig := (loadConfig_eq_ok_iff hsource).mpr hgives
    exact ⟨hconfig, find?_configCandidates hsource hgives, run_of_loadConfig hconfig⟩
  · intro f hrefused
    rw [Machine.run, (loadConfig_eq_error_iff hsource).mpr hrefused]

/-- The file of the directory is there. If it may not be read, no run goes on to the file of the
user, but if its directory may not be searched, every run does. -/
example (m : Machine) :
    let files : List (Location × List UInt8) :=
      [(["astview", "config.toml"], []), (["user.toml"], [])]
    let unreadable : Disk := ⟨files, [(["astview", "config.toml"], .read)]⟩
    let unreachable : Disk := ⟨files, [(["astview"], .search)]⟩
    m.loadConfig unreadable (some "user.toml") none = .error (.file .denied) ∧
      m.loadConfig unreachable (some "user.toml") none =
        m.loadConfigFile unreachable "user.toml" := by
  intro files unreadable unreachable
  constructor
  · cbv
  · cbv

end SyntaxLens
