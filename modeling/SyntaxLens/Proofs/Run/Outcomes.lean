import Mathlib
import SyntaxLens.Proofs.Disk
import SyntaxLens.Proofs.Run.Options

/-!
# What a run leaves on the disk

A run that fails before its output is opened leaves the disk as its parser command did, or as it
was if it starts none. Only the path of a node is looked up later, so that a failed run with an
output file either does nothing to that file or has emptied it for a path that no node has.
-/

namespace SyntaxLens

variable {m : Machine} {disk after : Disk} {user : Option String} {arguments : Arguments}
  {config : Config} {t : SourceTree} {f : Failure}

/-- The failure is one of those with which a tree is loaded: a file that is not read, a dump that
is none, or a command that gives no dump. -/
inductive Failure.OfTree : Failure → Prop
  | file (e : FileError) : OfTree (.file e)
  | dump (text : String) (diagnostics : List Diagnostic) : OfTree (.dump text diagnostics)
  | command (e : CommandError) : OfTree (.command e)

/-- The failure, if there is one, is one of those with which a tree is loaded. -/
def FailsByTree {α : Type} (x : Except Failure α) : Prop :=
  ∀ f, x = .error f → f.OfTree

lemma FailsByTree.bind {α β : Type} {x : Except Failure α} {g : α → Except Failure β}
    (hx : FailsByTree x) (hg : ∀ a, FailsByTree (g a)) : FailsByTree (x.bind g) := by
  intro f h
  cases x with
  | error e => exact hx f (congrArg Except.error (Except.error.inj h))
  | ok a => exact hg a f h

lemma failsByTree_readFile (path : String) : FailsByTree (readFile disk path) := by
  intro f h
  unfold readFile at h
  cases hread : disk.readText path with
  | error e => rw [hread] at h; cases h; exact .file e
  | ok s => rw [hread] at h; cases h

lemma failsByTree_load (source dump label : String) :
    FailsByTree (load config source dump label) := by
  intro f h
  unfold load at h
  cases hread : Dump.read dump with
  | error ds => rw [hread] at h; cases h; exact .dump dump ds
  | ok tree => rw [hread] at h; cases h

lemma failsByTree_printedDump (program : String) (result : Except String Process.Result) :
    FailsByTree (printedDump program result) := by
  intro f h
  unfold printedDump at h
  cases result with
  | error reason => cases h; exact .command _
  | ok result =>
    by_cases hstatus : result.status.isSuccess = true
    · simp only [if_pos hstatus] at h
      cases hdecode : Text.Utf8.decode result.stdout with
      | error fault => rw [hdecode] at h; cases h; exact .command _
      | ok dump => rw [hdecode] at h; cases h
    · simp only [if_neg hstatus] at h
      cases h
      exact .command _

lemma failsByTree_runParser (hcommand : config.command ≠ []) (path : String) :
    FailsByTree (m.runParser config disk path).1 := by
  unfold Machine.runParser
  split
  · contradiction
  · exact failsByTree_printedDump _ _

lemma failsByTree_loadFile (hcommand : config.command ≠ []) (path : String) :
    FailsByTree (m.loadFile config disk path).1 := by
  unfold Machine.loadFile
  split
  · next e hread =>
    intro f h
    cases h
    exact failsByTree_readFile path _ hread
  · exact (failsByTree_runParser hcommand path).bind fun dump => failsByTree_load _ dump path

lemma failsByTree_loadTree (hcommand : config.command ≠ []) :
    FailsByTree (m.loadTree disk config arguments).1 := by
  unfold Machine.loadTree
  split
  · exact failsByTree_loadFile hcommand _
  · exact (failsByTree_readFile _).bind fun source => (failsByTree_readFile _).bind fun dump =>
      failsByTree_load source dump _

/-- The disk is one that a run can find when it opens its output: the disk that it started on, or
what the parser command has left. -/
inductive Machine.Reaches (m : Machine) (disk : Disk) (user : Option String)
    (arguments : Arguments) : Disk → Prop
  | untouched : Reaches m disk user arguments disk
  | parsed {config : Config} (hdump : arguments.dump = none)
    (hconfig : m.loadConfig disk user arguments.config = .ok config) :
    Reaches m disk user arguments (m.runParser config disk arguments.input).2

/-- The parser command of a run, if it starts one, leaves the file of a path as it is. -/
def Machine.ParserSpares (m : Machine) (disk : Disk) (user : Option String)
    (arguments : Arguments) (path : String) : Prop :=
  ∀ config, arguments.dump = none → m.loadConfig disk user arguments.config = .ok config →
    (m.runParser config disk arguments.input).2.content? path = disk.content? path

lemma Machine.ParserSpares.content?_eq {path : String}
    (h : m.ParserSpares disk user arguments path) (hafter : m.Reaches disk user arguments after) :
    after.content? path = disk.content? path := by
  cases hafter with
  | untouched => rfl
  | parsed hdump hconfig => exact h _ hdump hconfig

lemma reaches_loadTree (hconfig : m.loadConfig disk user arguments.config = .ok config) :
    m.Reaches disk user arguments (m.loadTree disk config arguments).2 := by
  unfold Machine.loadTree
  split
  · next hdump =>
    unfold Machine.loadFile
    split
    · exact .untouched
    · exact .parsed hdump hconfig
  · exact .untouched

lemma run_of_loadConfig (h : m.loadConfig disk user arguments.config = .ok config) :
    m.run disk user arguments = m.runWith disk config arguments := by
  rw [Machine.run, h]

lemma run_of_loaded (hconfig : m.loadConfig disk user arguments.config = .ok config)
    (ht : m.loadTree disk config arguments = (.ok t, after)) : m.run disk user arguments =
      match arguments.output with
      | some path => writeFile after path (output config arguments t)
      | none => printText after (output config arguments t) := by
  have hrun := run_of_loadConfig hconfig
  rw [Machine.runWith, ht] at hrun
  exact hrun

lemma ConfigSource.IsRefused.not_unknownPath {source : ConfigSource}
    (h : source.IsRefused m disk f) (path : String) : f ≠ .unknownPath path := by
  cases h <;> nofun

lemma Failure.OfTree.not_unknownPath (h : f.OfTree) (path : String) : f ≠ .unknownPath path := by
  cases h <;> nofun

/-- A run either fails as it loads and opens no output, or it has loaded a tree. -/
theorem run_cases (m : Machine) (disk : Disk) (user : Option String) (arguments : Arguments) :
    ∃ after, m.Reaches disk user arguments after ∧
      ((∃ f, m.run disk user arguments = ⟨"", after, some f⟩ ∧ ∀ path, f ≠ .unknownPath path) ∨
      ∃ config t, m.loadConfig disk user arguments.config = .ok config ∧
        m.loadTree disk config arguments = (.ok t, after)) := by
  cases hconfig : m.loadConfig disk user arguments.config with
  | error e =>
    obtain ⟨source, hsource⟩ := exists_source disk user arguments.config
    have he := ((loadConfig_eq_error_iff hsource).mp hconfig).not_unknownPath
    refine ⟨disk, .untouched, .inl ⟨e, ?_, he⟩⟩
    rw [Machine.run, hconfig]
  | ok config =>
    have hreaches := reaches_loadTree hconfig
    have htree : FailsByTree (m.loadTree disk config arguments).1 :=
      failsByTree_loadTree (usable_of_loadConfig hconfig).1
    cases hload : m.loadTree disk config arguments with
    | mk loaded after =>
      rw [hload] at hreaches htree
      refine ⟨after, hreaches, ?_⟩
      cases loaded with
      | error e =>
        refine .inl ⟨e, ?_, (htree e rfl).not_unknownPath⟩
        rw [run_of_loadConfig hconfig, Machine.runWith, hload]
      | ok t => exact .inr ⟨config, t, rfl, hload⟩

lemma output_eq_error (hcolumns : config.view.columns ≠ [])
    (h : output config arguments t = .error f) :
    ∃ path, arguments.select = some path ∧ f = .unknownPath path := by
  unfold output at h
  cases hcursor : arguments.cursor with
  | some cursor => simp only [hcursor] at h; cases h
  | none =>
    cases hselect : arguments.select with
    | some path =>
      simp only [hcursor, hselect, SourceTree.node] at h
      cases hnode : t.root.atPath? path with
      | some n => simp only [hnode] at h; cases h
      | none =>
        simp only [hnode] at h
        cases h
        exact ⟨path, rfl, rfl⟩
    | none =>
      simp only [hcursor, hselect] at h
      cases hformat : arguments.format with
      | text =>
        simp only [hformat, SourceTree.tableText, if_neg hcolumns, withinLimit] at h
        cases h
      | json =>
        simp only [hformat, SourceTree.documentText, withinLimit] at h
        cases h

lemma writeFile_of_failure {path : String} {text : Except Failure String}
    (h : (writeFile disk path text).failure = some f) :
    (∃ e, f = .file e ∧ (writeFile disk path text).disk = disk) ∨
      text = .error f ∧ ∃ location, disk.target path = .ok location ∧
        (writeFile disk path text).disk = disk.put location [] := by
  unfold writeFile at h ⊢
  cases htarget : disk.target path with
  | error e =>
    rw [htarget] at h
    exact .inl ⟨e, (Option.some.inj h).symm, rfl⟩
  | ok location =>
    cases text with
    | error e =>
      rw [htarget] at h
      obtain rfl : e = f := Option.some.inj h
      exact .inr ⟨rfl, location, rfl, rfl⟩
    | ok s => rw [htarget] at h; cases h

/-- Let the parser command leave the output file alone. A failed run leaves that file as it was,
and the disk as the command did, unless it fails since no node has the path that it is asked for.
In that case the output file is emptied and nothing else is written. -/
theorem disk_of_failed_run {path : String} (houtput : arguments.output = some path)
    (hcommand : m.ParserSpares disk user arguments path)
    (hf : (m.run disk user arguments).failure = some f) :
    ((∀ p, f ≠ .unknownPath p) →
      (m.run disk user arguments).disk.content? path = disk.content? path ∧
        m.Reaches disk user arguments (m.run disk user arguments).disk) ∧
    ∀ p, f = .unknownPath p → arguments.select = some p ∧
      (m.run disk user arguments).disk.content? path = some [] ∧
      ∃ before location, m.Reaches disk user arguments before ∧
        before.target path = .ok location ∧
        ∀ other, other ≠ location →
          (m.run disk user arguments).disk.file? other = before.file? other := by
  obtain ⟨after, hreaches, hcases⟩ := run_cases m disk user arguments
  have hcontent : after.content? path = disk.content? path := hcommand.content?_eq hreaches
  rcases hcases with ⟨e, hrun, hpath⟩ | ⟨config, t, hconfig, ht⟩
  · rw [hrun] at hf ⊢
    cases hf
    exact ⟨fun _ => ⟨hcontent, hreaches⟩, fun p hp => absurd hp (hpath p)⟩
  · have hrun := run_of_loaded hconfig ht
    simp only [houtput] at hrun
    rw [hrun] at hf ⊢
    rcases writeFile_of_failure hf with ⟨e, rfl, hdisk⟩ | ⟨htext, location, htarget, hdisk⟩
    · rw [hdisk]
      exact ⟨fun _ => ⟨hcontent, hreaches⟩, fun p hp => nomatch hp⟩
    · obtain ⟨p, hselect, rfl⟩ := output_eq_error (usable_of_loadConfig hconfig).2 htext
      rw [hdisk]
      refine ⟨fun hp => absurd rfl (hp p), fun q hq => ?_⟩
      cases hq
      exact ⟨hselect, Disk.content?_put_of_target htarget, after, location, hreaches, htarget,
        fun other => Disk.file?_put_of_ne⟩

/-- The parser command writes to a file of its own and fails. -/
theorem disk_of_failed_run_failing_command :
    let script := "echo a>log;exit 3"
    let text := "parser.command=[\"sh\",\"-c\",\"echo a>log;exit 3\"]"
    let config : Config := { (default : Config) with command := ["sh", "-c", script] }
    let m : Machine :=
      ⟨fun disk program arguments =>
        if program = "sh" ∧ arguments = ["-c", script, "exec", "a.py"] then
          (.ok ⟨[], [], .exited 3⟩, disk.put ["log"] [97, 10])
        else (.error FileError.notFound.message, disk),
        fun s => if s = text then some config else none⟩
    let disk : Disk := ⟨[(["a.py"], []), (["out.txt"], [111, 108, 100]),
      (["astview", "config.toml"], Text.Utf8.encode text)], []⟩
    let arguments : Arguments :=
      ⟨"a.py", none, none, some "nope", .text, some "out.txt", none, "warn"⟩
    let f : Failure := .command (.failed "sh" (.exited 3) "")
    arguments.output = some "out.txt" ∧ m.ParserSpares disk none arguments "out.txt" ∧
      (m.run disk none arguments).failure = some f ∧ (∀ p, f ≠ .unknownPath p) ∧
      (m.run disk none arguments).disk.content? "out.txt" = disk.content? "out.txt" ∧
      m.Reaches disk none arguments (m.run disk none arguments).disk ∧
      disk.content? "out.txt" = some [111, 108, 100] ∧
      (m.run disk none arguments).disk.content? "log" = some [97, 10] := by
  intro script text config m disk arguments f
  have hlocal : disk.contains localConfigPath = true := by cbv
  have hread : readFile disk localConfigPath = .ok text := by cbv
  have hoptions : m.options? text = some config := by
    change (if text = text then some config else none) = _
    rw [if_pos rfl]
  have hconfig : m.loadConfig disk none none = .ok config :=
    (loadConfig_eq_ok_iff (.ofDirectory hlocal)).mpr
      (.file ⟨hlocal, text, hread, hoptions⟩ (List.cons_ne_nil _ _) (by decide))
  have hparser : m.runParser config disk "a.py" = (.error f, disk.put ["log"] [97, 10]) := by
    change (printedDump "sh" (m.command disk "sh" ["-c", script, "exec", "a.py"]).1,
      (m.command disk "sh" ["-c", script, "exec", "a.py"]).2) = _
    have hcommand : m.command disk "sh" ["-c", script, "exec", "a.py"] =
        (.ok ⟨[], [], .exited 3⟩, disk.put ["log"] [97, 10]) := by
      simp only [m, and_self, if_true]
    rw [hcommand]
    cbv
  have hspares : m.ParserSpares disk none arguments "out.txt" := by
    intro c _ hc
    obtain rfl : config = c := Except.ok.inj (hconfig.symm.trans hc)
    change (m.runParser config disk "a.py").2.content? _ = _
    rw [hparser]
    cbv
  have hsource : readFile disk "a.py" = .ok "" := by cbv
  have hrun : m.run disk none arguments = ⟨"", disk.put ["log"] [97, 10], some f⟩ := by
    have hload : m.loadTree disk config arguments = (.error f, disk.put ["log"] [97, 10]) := by
      simp only [Machine.loadTree, Machine.loadFile, arguments, hsource, hparser]
      rfl
    rw [run_of_loadConfig hconfig, Machine.runWith, hload]
  have hf : (m.run disk none arguments).failure = some f := by rw [hrun]
  have hpath : ∀ p, f ≠ .unknownPath p := (Failure.OfTree.command _).not_unknownPath
  obtain ⟨hcontent, hreaches⟩ := (disk_of_failed_run rfl hspares hf).1 hpath
  refine ⟨rfl, hspares, hf, hpath, hcontent, hreaches, ?_, ?_⟩
  · cbv
  · rw [hrun]
    cbv

/-- The dump is `A()`, which has a root alone, and the text `old` in the output file is lost. No
program is started and no configuration read. -/
theorem run_unknownPath_empties_output :
    let m : Machine := ⟨fun disk _ _ => (.error FileError.notFound.message, disk), fun _ => none⟩
    let disk : Disk :=
      ⟨[(["a.py"], []), (["a.dump"], [65, 40, 41]), (["out.txt"], [111, 108, 100])], []⟩
    let arguments : Arguments :=
      ⟨"a.py", some "a.dump", none, some "nope", .text, some "out.txt", none, "warn"⟩
    (m.run disk none arguments).failure = some (.unknownPath "nope") ∧
      disk.read "out.txt" = .ok [111, 108, 100] ∧
      (m.run disk none arguments).disk.read "out.txt" = .ok [] := by
  intro m disk arguments
  refine ⟨?_, ?_, ?_⟩ <;> cbv

end SyntaxLens
