import Mathlib
import SyntaxLens.Proofs.Outline.Paths
import SyntaxLens.Proofs.Run.Outcomes
import SyntaxLens.Proofs.Selection

/-!
# Selecting by path

Where no two nodes have the same path, a node can be asked for again by the path that is shown for
it: a run that selects the node at a cursor prints a line with the path of this node, and a run that
selects this path leaves the same behind.
-/

namespace SyntaxLens

variable {config : Config} {arguments : Arguments} {t : SourceTree}

lemma atPath?_of_load {source dump label : String} {tree : Node} (h : tree.IsNamed)
    (hread : Dump.read dump = .ok tree) (hload : load config source dump label = .ok t)
    {n : Outline} (hn : n ∈ t.root.nodes) : t.root.atPath? n.entry.path = some n := by
  obtain ⟨tree', hread', -, hroot⟩ := load_cases hload
  rw [hread] at hread'
  cases hread'
  apply Outline.atPath?_of_nodup _ hn
  rw [hroot, Outline.paths_resolve]
  exact Outline.nodup_paths h label ""

lemma output_of_cursor {cursor : LineCol} (hcursor : arguments.cursor = some cursor) {n : Outline}
    (hn : t.select? cursor = some n) : output config arguments t = .ok (t.selectionText n) := by
  unfold output
  simp only [hcursor, hn, Option.elim_some]

lemma output_of_path {path : String} {n : Outline} (hn : t.root.atPath? path = some n) :
    output config { arguments with cursor := none, select := some path } t =
      .ok (t.selectionText n) := by
  unfold output SourceTree.node
  simp only [hn]
  rfl

lemma selectionText_eq (t : SourceTree) (n : Outline) : ∃ rest, t.selectionText n =
    n.entry.caption ++ "\n" ++ "path: " ++ n.entry.path ++ "\n" ++ rest := by
  unfold SourceTree.selectionText
  have hrest (s a b c : String) : s ++ a ++ b ++ c = s ++ (a ++ (b ++ c)) := by
    rw [String.append_assoc, String.append_assoc]
  exact ⟨_, hrest _ _ _ _⟩

/-- In the outline of a named tree all paths are distinct, so that the path of each node leads to
the node where its route leads. When such a tree is loaded and a cursor selects a node of it, a run
for the cursor writes a text with the path of this node on the line after its caption, and a run
for this path leaves the same behind. -/
theorem paths_identify_nodes {tree : Node} (h : tree.IsNamed) (label : String) :
    let o := Outline.ofTree label tree
    (o.nodes.map (·.entry.path)).Nodup ∧
    (∀ route n, o.descend? route = some n → o.atPath? n.entry.path = some n) ∧
    ∀ (m : Machine) (config : Config) (disk after : Disk) (user : Option String)
      (arguments : Arguments) (source dump : String) (t : SourceTree),
      Dump.read dump = .ok tree → load config source dump label = .ok t →
      m.loadConfig disk user arguments.config = .ok config →
      m.loadTree disk config arguments = (.ok t, after) →
      ∀ cursor n, arguments.cursor = some cursor → t.select? cursor = some n →
        let selecting := { arguments with cursor := none, select := some n.entry.path }
        ∃ text rest, output config arguments t = .ok text ∧
          text = n.entry.caption ++ "\n" ++ "path: " ++ n.entry.path ++ "\n" ++ rest ∧
          (arguments.output = none → m.run disk user arguments = ⟨text, after, none⟩) ∧
          m.run disk user selecting = m.run disk user arguments := by
  intro o
  have hnodup : o.paths.Nodup := Outline.nodup_paths h label ""
  refine ⟨hnodup, fun route n hn => ?_, ?_⟩
  · exact Outline.atPath?_of_nodup hnodup (Outline.mem_nodes_of_descend? hn)
  · intro m config disk after user arguments source dump t hread hload hconfig ht cursor n hcursor
      hn selecting
    have hmem : n ∈ t.root.nodes := (Outline.matches_of_at? hn).1
    have hat : output config arguments t = .ok (t.selectionText n) := output_of_cursor hcursor hn
    have hpath : output config selecting t = .ok (t.selectionText n) :=
      output_of_path (atPath?_of_load h hread hload hmem)
    have hconfig' : m.loadConfig disk user selecting.config = .ok config := hconfig
    have ht' : m.loadTree disk config selecting = (.ok t, after) := ht
    obtain ⟨rest, hrest⟩ := selectionText_eq t n
    refine ⟨t.selectionText n, rest, hat, hrest, fun houtput => ?_, ?_⟩
    · rw [run_of_loaded hconfig ht, houtput, hat]
      rfl
    · rw [run_of_loaded hconfig ht, run_of_loaded hconfig' ht', hat, hpath]

/-- What the default command prints for a file with the single statement `pass`. -/
def passDump : String :=
  "Module(body=[Pass(lineno=1, col_offset=0, end_lineno=1, end_col_offset=4)])\n"

def passTree : Node :=
  .composite "Module" [("body", .sequence .list [.composite "Pass" [] (some ⟨1, 0⟩)])] none

/-- A machine whose only program is the default command and whose only source file is `a.py`. -/
def passMachine : Machine where
  command disk program arguments :=
    if program = "python3" ∧ arguments = ["-c", Config.dumpScript, "exec", "a.py"] then
      (.ok ⟨Text.Utf8.encode passDump, [], .exited 0⟩, disk)
    else (.error FileError.notFound.message, disk)
  options? _ := none

lemma read_passDump : Dump.read passDump = .ok passTree := by cbv

lemma runParser_passMachine (disk : Disk) :
    passMachine.runParser default disk "a.py" = (.ok passDump, disk) := by
  have hdecode : Text.Utf8.decode (Text.Utf8.encode passDump) = .ok passDump := by cbv
  have hcommand : passMachine.command disk "python3" ["-c", Config.dumpScript, "exec", "a.py"] =
      (.ok ⟨Text.Utf8.encode passDump, [], .exited 0⟩, disk) := by
    simp only [passMachine, and_self, if_true]
  have hrun : passMachine.runParser default disk "a.py" =
      (printedDump "python3"
        (passMachine.command disk "python3" ["-c", Config.dumpScript, "exec", "a.py"]).1,
      (passMachine.command disk "python3" ["-c", Config.dumpScript, "exec", "a.py"]).2) := rfl
  rw [hrun, hcommand, printedDump, if_pos (by decide), hdecode]
  rfl

/-- A cursor within the only statement of a source file. -/
theorem paths_identify_nodes_statement :
    let disk : Disk := ⟨[(["a.py"], [112, 97, 115, 115])], []⟩
    let arguments : Arguments := ⟨"a.py", none, some ⟨1, 2⟩, none, .text, none, none, "warn"⟩
    let selecting : Arguments := ⟨"a.py", none, none, some "body[0]", .text, none, none, "warn"⟩
    let text := "body[0] = Pass\npath: body[0]\nposition: 1:0\nhighlight: 1:0 : 1:4\n---\npass\n"
    let o := Outline.ofTree "a.py" passTree
    passTree.IsNamed ∧ (o.nodes.map (·.entry.path)).Nodup ∧
      (∀ route n, o.descend? route = some n → o.atPath? n.entry.path = some n) ∧
      passMachine.run disk none arguments = ⟨text, disk, none⟩ ∧
      passMachine.run disk none selecting = passMachine.run disk none arguments := by
  intro disk arguments selecting text o
  have hpass : Node.IsNamed (.composite "Pass" [] (some ⟨1, 0⟩)) := .composite nofun .nil nofun
  have hbody : Node.IsNamed (.sequence .list [.composite "Pass" [] (some ⟨1, 0⟩)]) :=
    .sequence fun v hv => List.mem_singleton.mp hv ▸ hpass
  have h : passTree.IsNamed := .composite (by decide) (List.nodup_singleton "body")
    fun f hf => List.mem_singleton.mp hf ▸ hbody
  obtain ⟨hnodup, hat, hrun⟩ := paths_identify_nodes h "a.py"
  let t : SourceTree := ⟨.ofText "pass",
    o.resolve (default : Config).detached (.loc (LineTable.ofText "pass").endOfDocument)⟩
  have hload : load default "pass" passDump "a.py" = .ok t := by rw [load, read_passDump]
  have hfile : disk.contains localConfigPath = false := by cbv
  have hconfig : passMachine.loadConfig disk none none = .ok default := by
    simp only [Machine.loadConfig, Option.toList_none, List.find?_cons, hfile, List.find?_nil]
  have hsource : readFile disk "a.py" = .ok "pass" := by cbv
  have ht : passMachine.loadTree disk default arguments = (.ok t, disk) := by
    simp only [Machine.loadTree, Machine.loadFile, arguments, hsource, runParser_passMachine,
      Except.bind, hload]
  let n : Outline := ⟨⟨"body[0]", "Pass", "", "body[0]", .composite, some ⟨1, 0⟩⟩,
    some ⟨.loc ⟨1, 0⟩, .loc ⟨1, 4⟩⟩, false, []⟩
  have hn : t.select? ⟨1, 2⟩ = some n := by cbv
  have htext : output default arguments t = .ok text := by
    rw [output_of_cursor rfl hn]
    cbv
  obtain ⟨text', rest, htext', -, hprinted, hsame⟩ :=
    hrun passMachine default disk disk none arguments _ _ t read_passDump hload hconfig ht _ _ rfl
      hn
  obtain rfl : text = text' := Except.ok.inj (htext.symm.trans htext')
  exact ⟨h, hnodup, hat, hprinted rfl, hsame⟩

end SyntaxLens
