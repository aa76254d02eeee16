import Mathlib
import SyntaxLens.Proofs.Outline.Labels
import SyntaxLens.Viewer

/-!
# The label of a loaded tree

The root of a tree is no field, but its label is looked up among those of detached fields. As long
as two labels do not differ in this, neither for the root nor for an item that is labelled after
it, they give the same spans and the same selections.
-/

namespace SyntaxLens

variable {dump : String} {tree : Node}

lemma load_of_read (hread : Dump.read dump = .ok tree) (config : Config) (source label : String) :
    load config source dump label = .ok ⟨.ofText source,
      (Outline.ofTree label tree).resolve config.detached
        (.loc (LineTable.ofText source).endOfDocument)⟩ := by
  rw [load, hread]

/-- A dump that is loaded with two labels has the same spans and marks at all routes and the same
selections, unless the root, or an item of a sequence that is the root or such an item, is detached
by its label in only one of the trees. -/
theorem load_relabelled {config : Config} (hread : Dump.read dump = .ok tree) (source : String)
    {label label' : String} (h : ∀ indices : List Nat, (tree.item? indices).isSome →
      (indices.foldl Outline.indexed label ∈ config.detached ↔
        indices.foldl Outline.indexed label' ∈ config.detached)) :
    ∃ t t', load config source dump label = .ok t ∧ load config source dump label' = .ok t' ∧
      (∀ route, (t.root.descend? route).map (fun n => (n.span, n.outOfOrder)) =
        (t'.root.descend? route).map fun n => (n.span, n.outOfOrder)) ∧
      ∀ cursor : LineCol, t.root.routeTo? cursor = t'.root.routeTo? cursor ∧
        (t.select? cursor).map t.highlightText? = (t'.select? cursor).map t'.highlightText? := by
  have halike := (Outline.alike_ofNode "" tree h).resolve
    (.loc (LineTable.ofText source).endOfDocument)
  refine ⟨_, _, load_of_read hread config source label, load_of_read hread config source label',
    fun route => ?_, fun cursor => ⟨?_, ?_⟩⟩
  · exact halike.map_descend?_eq (fun n n' hn => by cases hn; rfl) route
  · exact halike.routeTo?_eq cursor
  · exact halike.map_at?_eq (fun n n' hn => by cases hn; rfl) cursor

lemma read_two_fields : Dump.read "Module(a=Name(lineno=1),b=Name(lineno=2))" =
    .ok (.composite "Module" [("a", .composite "Name" [] (some ⟨1, 0⟩)),
      ("b", .composite "Name" [] (some ⟨2, 0⟩))] none) := by
  cbv

/-- Two names of a file, neither of them that of a detached field. -/
theorem load_relabelled_files :
    let dump := "Module(a=Name(lineno=1),b=Name(lineno=2))"
    ∃ t t', load default "a\nbb" dump "a.py" = .ok t ∧ load default "a\nbb" dump "b.py" = .ok t' ∧
      (∀ route, (t.root.descend? route).map (fun n => (n.span, n.outOfOrder)) =
        (t'.root.descend? route).map fun n => (n.span, n.outOfOrder)) ∧
      ∀ cursor : LineCol, t.root.routeTo? cursor = t'.root.routeTo? cursor ∧
        (t.select? cursor).map t.highlightText? = (t'.select? cursor).map t'.highlightText? := by
  refine load_relabelled read_two_fields "a\nbb" fun indices hsome => ?_
  cases indices with
  | nil => decide
  | cons i indices => cases hsome

/-- A root that has the name of a detached field has no start, and its first field goes on up to
the end of the document. -/
theorem load_detached_label :
    let dump := "Module(a=Name(lineno=1),b=Name(lineno=2))"
    ∃ t t', load default "a\nbb" dump "tree" = .ok t ∧
      load default "a\nbb" dump "decorator_list" = .ok t' ∧
      t.root.routeTo? (.loc ⟨2, 1⟩) = some [1] ∧ t'.root.routeTo? (.loc ⟨2, 1⟩) = some [0] ∧
      (t.root.descend? [0]).map (·.span) = some (some ⟨.loc ⟨1, 0⟩, .loc ⟨2, 0⟩⟩) ∧
      (t'.root.descend? [0]).map (·.span) = some (some ⟨.loc ⟨1, 0⟩, .loc ⟨2, 2⟩⟩) := by
  refine ⟨_, _, load_of_read read_two_fields default "a\nbb" "tree",
    load_of_read read_two_fields default "a\nbb" "decorator_list", ?_, ?_, ?_, ?_⟩ <;> cbv

end SyntaxLens
