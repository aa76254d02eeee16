import Mathlib.Data.List.Nodup
import Mathlib.Tactic.Common
import SyntaxLens.Proofs.Dump.Spelling
import SyntaxLens.Proofs.Outline.Building
import SyntaxLens.Proofs.Outline.Placement

/-!
# Paths of nodes

In the outline of a tree whose fields have names, no two fields of a node the same one, no two
nodes have the same path. What follows the path of a child in the path of a node below it starts
with a point or a bracket, so a path tells the name or the index of every child that it leads
through.
-/

namespace SyntaxLens

/-- A tree whose fields have names, no two fields of one composite the same name. -/
inductive Node.IsNamed : Node → Prop
  | composite {typeName : String} {fields : List (String × Node)} {position : Option LineCol}
      (names : ∀ f ∈ fields, IsName f.1) (distinct : (fields.map Prod.fst).Nodup)
      (values : ∀ f ∈ fields, f.2.IsNamed) : (composite typeName fields position).IsNamed
  | sequence {kind : SequenceKind} {items : List Node} (values : ∀ v ∈ items, v.IsNamed) :
      (sequence kind items).IsNamed
  | scalar {value : Scalar} : (scalar value).IsNamed

namespace Outline

/-- The paths of a node and all below it, in pre-order. -/
def paths (o : Outline) : List String :=
  o.nodes.map (·.entry.path)

/-- Nothing, or what follows the path of a node in that of another one below it. -/
def IsBelow (rest : List Char) : Prop :=
  ∀ c ∈ rest.head?, c = '.' ∨ c = '['

/-- What stands before the name of a field in its path. -/
def fieldStem (path : String) : List Char :=
  if path = "" then [] else path.toList ++ ['.']

lemma toList_fieldPath (path name : String) :
    (fieldPath path name).toList = fieldStem path ++ name.toList := by
  unfold fieldPath fieldStem
  by_cases h : path = ""
  · rw [if_pos h, if_pos h, List.nil_append]
  · rw [if_neg h, if_neg h, String.toList_append, String.toList_append]
    rfl

lemma toList_indexed (s : String) (i : Nat) :
    (indexed s i).toList = s.toList ++ '[' :: (Nat.toDigits 10 i ++ [']']) := by
  unfold indexed
  rw [String.toList_append, String.toList_append, String.toList_append, Nat.toString_eq_repr,
    Nat.toList_repr]
  simp

lemma IsBelow.isNameChar {rest : List Char} (h : IsBelow rest) :
    ∀ c ∈ rest.head?, Dump.Literal.isNameChar c = false := by
  intro c hc
  rcases h c hc with rfl | rfl <;> decide

lemma name_eq_of_fieldPath {path : String} {a b : String} {r s : List Char} (ha : IsName a)
    (hb : IsName b) (hr : IsBelow r) (hs : IsBelow s)
    (h : (fieldPath path a).toList ++ r = (fieldPath path b).toList ++ s) : a = b := by
  rw [toList_fieldPath, toList_fieldPath, List.append_assoc, List.append_assoc] at h
  have hnames := Text.run_eq_of_append_eq ha.2 hb.2 hr.isNameChar hs.isNameChar
    (List.append_cancel_left h)
  exact String.toList_inj.mp hnames

lemma index_eq_of_indexed {path : String} {i j : Nat} {r s : List Char}
    (h : (indexed path i).toList ++ r = (indexed path j).toList ++ s) : i = j := by
  rw [toList_indexed, toList_indexed, List.append_assoc, List.append_assoc] at h
  have htail := List.append_cancel_left h
  rw [List.cons_append, List.cons_append, List.append_assoc, List.append_assoc] at htail
  have hclose (t : List Char) : ∀ c ∈ ([']'] ++ t).head?, c.isDigit = false := by
    intro c hc
    obtain rfl : ']' = c := Option.some.inj hc
    decide
  exact (Text.Numeral.toDigits_append_inj (hclose r) (hclose s) (List.cons.inj htail).2).1

lemma ne_nil_of_isName {name : String} (h : IsName name) : name.toList ≠ [] := by
  intro hnil
  have hstart := h.1
  rw [hnil] at hstart
  cases hstart

lemma fieldPath_ne_empty {path name : String} (h : IsName name) : fieldPath path name ≠ "" := by
  intro hempty
  have hlist := congrArg String.toList hempty
  rw [toList_fieldPath] at hlist
  exact ne_nil_of_isName h (List.append_eq_nil_iff.mp hlist).2

lemma indexed_ne_empty (path : String) (i : Nat) : indexed path i ≠ "" := by
  intro hempty
  have hlist := congrArg String.toList hempty
  rw [toList_indexed] at hlist
  exact List.cons_ne_nil _ _ (List.append_eq_nil_iff.mp hlist).2

lemma isBelow_nil : IsBelow [] :=
  fun _ hc => absurd hc (Option.not_mem_none _)

lemma isBelow_cons {c : Char} (h : c = '.' ∨ c = '[') (rest : List Char) :
    IsBelow (c :: rest) := by
  intro d hd
  obtain rfl : c = d := Option.some.inj hd
  exact h

lemma exists_path_eq_append {v : Node} (hv : v.IsNamed) {label path : String} (hpath : path ≠ "")
    {n : Outline} (hn : n ∈ (ofNode label path v).nodes) :
    ∃ rest, n.entry.path.toList = path.toList ++ rest ∧ IsBelow rest := by
  induction hv generalizing label path with
  | composite names distinct values ih =>
    rcases mem_nodes.mp hn with rfl | ⟨c, hc, hn⟩
    · exact ⟨[], (List.append_nil _).symm, isBelow_nil⟩
    · obtain ⟨f, hf, rfl⟩ := mem_ofFields hc
      obtain ⟨rest, hrest, -⟩ := ih f hf (fieldPath_ne_empty (names f hf)) hn
      refine ⟨'.' :: (f.1.toList ++ rest), ?_, isBelow_cons (.inl rfl) _⟩
      rw [hrest, toList_fieldPath, fieldStem, if_neg hpath]
      simp
  | sequence values ih =>
    rcases mem_nodes.mp hn with rfl | ⟨c, hc, hn⟩
    · exact ⟨[], (List.append_nil _).symm, isBelow_nil⟩
    · obtain ⟨w, hw, j, -, rfl⟩ := mem_ofItems hc
      obtain ⟨rest, hrest, -⟩ := ih w hw (indexed_ne_empty path j) hn
      refine ⟨'[' :: (Nat.toDigits 10 j ++ ']' :: rest), ?_, isBelow_cons (.inr rfl) _⟩
      rw [hrest, toList_indexed]
      simp
  | scalar =>
    rcases mem_nodes.mp hn with rfl | ⟨c, hc, -⟩
    · exact ⟨[], (List.append_nil _).symm, isBelow_nil⟩
    · exact absurd hc List.not_mem_nil

lemma disjoint_paths {v w : Node} (hv : v.IsNamed) (hw : w.IsNamed) {label label' : String}
    {path path' : String} (hpath : path ≠ "") (hpath' : path' ≠ "")
    (h : ∀ r s, IsBelow r → IsBelow s → path.toList ++ r ≠ path'.toList ++ s) :
    List.Disjoint (ofNode label path v).paths (ofNode label' path' w).paths := by
  intro q hq hq'
  obtain ⟨n, hn, rfl⟩ := List.mem_map.mp hq
  obtain ⟨m, hm, hmn⟩ := List.mem_map.mp hq'
  obtain ⟨r, hr, hbelow⟩ := exists_path_eq_append hv hpath hn
  obtain ⟨s, hs, hbelow'⟩ := exists_path_eq_append hw hpath' hm
  apply h r s hbelow hbelow'
  rw [← hr, ← hs, hmn]

lemma pairwise_disjoint_ofFields {path : String} {fields : List (String × Node)}
    (names : ∀ f ∈ fields, IsName f.1) (distinct : (fields.map Prod.fst).Nodup)
    (values : ∀ f ∈ fields, f.2.IsNamed) :
    (ofFields path fields).Pairwise fun o o' => List.Disjoint o.paths o'.paths := by
  induction fields with
  | nil => exact .nil
  | cons f fields ih =>
    rw [List.map_cons, List.nodup_cons] at distinct
    have hf := names f List.mem_cons_self
    refine .cons ?_ (ih (fun g hg => names g (List.mem_cons_of_mem f hg)) distinct.2
      fun g hg => values g (List.mem_cons_of_mem f hg))
    intro c hc
    obtain ⟨g, hg, rfl⟩ := mem_ofFields hc
    have hg' := names g (List.mem_cons_of_mem f hg)
    refine disjoint_paths (values f List.mem_cons_self) (values g (List.mem_cons_of_mem f hg))
      (fieldPath_ne_empty hf) (fieldPath_ne_empty hg') ?_
    intro r s hr hs heq
    apply distinct.1
    rw [name_eq_of_fieldPath hf hg' hr hs heq]
    exact List.mem_map_of_mem hg

lemma pairwise_disjoint_ofItems {label path : String} {items : List Node} (i : Nat)
    (values : ∀ v ∈ items, v.IsNamed) :
    (ofItems label path i items).Pairwise fun o o' => List.Disjoint o.paths o'.paths := by
  induction items generalizing i with
  | nil => exact .nil
  | cons v items ih =>
    refine .cons ?_ (ih (i + 1) fun w hw => values w (List.mem_cons_of_mem v hw))
    intro c hc
    obtain ⟨w, hw, j, hj, rfl⟩ := mem_ofItems hc
    refine disjoint_paths (values v List.mem_cons_self) (values w (List.mem_cons_of_mem v hw))
      (indexed_ne_empty path i) (indexed_ne_empty path j) ?_
    intro r s _ _ heq
    have hij : i = j := index_eq_of_indexed heq
    omega

lemma map_path_nodesOf (os : List Outline) :
    (nodesOf os).map (·.entry.path) = os.flatMap paths := by
  induction os with
  | nil => rfl
  | cons o os ih =>
    rw [nodesOf, List.map_append, ih, List.flatMap_cons]
    rfl

/-- A node has a path of its own if that of each child is longer and no two children share one. -/
lemma nodup_paths_of_children {o : Outline} (hnodup : ∀ c ∈ o.children, c.paths.Nodup)
    (hdisjoint : o.children.Pairwise fun c c' => List.Disjoint c.paths c'.paths)
    (hself : ∀ c ∈ o.children, o.entry.path ∉ c.paths) : o.paths.Nodup := by
  unfold paths
  rw [nodes_eq, List.map_cons, map_path_nodesOf, List.nodup_cons, List.nodup_flatMap]
  refine ⟨?_, hnodup, hdisjoint⟩
  intro hmem
  obtain ⟨c, hc, hpath⟩ := List.mem_flatMap.mp hmem
  exact hself c hc hpath

lemma path_notMem_paths {v : Node} (hv : v.IsNamed) {label path path' : String}
    (hpath : path' ≠ "") (hlt : path.toList.length < path'.toList.length) :
    path ∉ (ofNode label path' v).paths := by
  intro hmem
  obtain ⟨n, hn, rfl⟩ := List.mem_map.mp hmem
  obtain ⟨rest, hrest, -⟩ := exists_path_eq_append hv hpath hn
  rw [hrest, List.length_append] at hlt
  omega

lemma length_lt_fieldPath (path : String) {name : String} (h : IsName name) :
    path.toList.length < (fieldPath path name).toList.length := by
  rw [toList_fieldPath, List.length_append, fieldStem]
  have hname := List.length_pos_of_ne_nil (ne_nil_of_isName h)
  by_cases hpath : path = ""
  · rw [if_pos hpath, hpath, String.toList_empty, List.length_nil]
    omega
  · rw [if_neg hpath, List.length_append, List.length_singleton]
    omega

lemma length_lt_indexed (path : String) (i : Nat) :
    path.toList.length < (indexed path i).toList.length := by
  rw [toList_indexed, List.length_append, List.length_cons]
  omega

theorem nodup_paths {v : Node} (hv : v.IsNamed) (label path : String) :
    (ofNode label path v).paths.Nodup := by
  induction hv generalizing label path with
  | composite names distinct values ih =>
    refine nodup_paths_of_children ?_ (pairwise_disjoint_ofFields names distinct values) ?_
    · intro c hc
      obtain ⟨f, hf, rfl⟩ := mem_ofFields hc
      exact ih f hf f.1 (fieldPath path f.1)
    · intro c hc
      obtain ⟨f, hf, rfl⟩ := mem_ofFields hc
      exact path_notMem_paths (values f hf) (fieldPath_ne_empty (names f hf))
        (length_lt_fieldPath path (names f hf))
  | sequence values ih =>
    refine nodup_paths_of_children ?_ (pairwise_disjoint_ofItems 0 values) ?_
    · intro c hc
      obtain ⟨w, hw, j, -, rfl⟩ := mem_ofItems hc
      exact ih w hw (indexed label j) (indexed path j)
    · intro c hc
      obtain ⟨w, hw, j, -, rfl⟩ := mem_ofItems hc
      exact path_notMem_paths (values w hw) (indexed_ne_empty path j) (length_lt_indexed path j)
  | scalar =>
    refine nodup_paths_of_children ?_ .nil ?_
    · intro c hc
      exact absurd hc List.not_mem_nil
    · intro c hc
      exact absurd hc List.not_mem_nil

/-- Where all paths are distinct, the path of a node leads to that node. -/
theorem atPath?_of_nodup {o n : Outline} (h : o.paths.Nodup) (hn : n ∈ o.nodes) :
    o.atPath? n.entry.path = some n := by
  obtain ⟨before, after, hsplit⟩ := List.append_of_mem hn
  unfold paths at h
  rw [hsplit, List.map_append, List.map_cons] at h
  have hnone : before.find? (fun m => m.entry.path = n.entry.path) = none := by
    rw [List.find?_eq_none]
    intro m hm hpath
    exact (List.nodup_append.mp h).2.2 _ (List.mem_map_of_mem hm) _ List.mem_cons_self
      (of_decide_eq_true hpath)
  rw [atPath?, hsplit, List.find?_append, hnone, Option.none_or]
  exact List.find?_cons_of_pos (decide_eq_true rfl)

lemma paths_resolve (detached : LabelSet) (documentEnd : Position) (o : Outline) :
    (o.resolve detached documentEnd).paths = o.paths := by
  have hentries := map_entry_nodes_place detached (.ofDocument documentEnd) o
  have hpaths := congrArg (List.map Entry.path) hentries
  rw [List.map_map, List.map_map, ← resolve_eq_place] at hpaths
  exact hpaths

end Outline

end SyntaxLens
