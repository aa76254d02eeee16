import Mathlib.Tactic.Common
import SyntaxLens.Outline

namespace SyntaxLens.Outline

/-- Induction on an outline: a property that nodes have if all their children have it. -/
@[elab_as_elim]
theorem induction {P : Outline → Prop}
    (node : ∀ entry span outOfOrder children, (∀ c ∈ children, P c) →
      P ⟨entry, span, outOfOrder, children⟩) : ∀ o, P o
  | ⟨entry, span, outOfOrder, children⟩ =>
    node entry span outOfOrder children (fun c _ => induction node c)

@[simp] lemma descend?_nil (o : Outline) : o.descend? [] = some o := rfl

@[simp] lemma descend?_cons (o : Outline) (i : Nat) (route : List Nat) :
    o.descend? (i :: route) = o.children[i]?.bind fun child => child.descend? route := rfl

lemma descend?_append (o : Outline) (r s : List Nat) :
    o.descend? (r ++ s) = (o.descend? r).bind (·.descend? s) := by
  induction r generalizing o with
  | nil => rfl
  | cons i r ih =>
    rw [List.cons_append, descend?_cons, descend?_cons]
    cases o.children[i]? with
    | none => rfl
    | some child => exact ih child

lemma descend?_below {o n : Outline} {route : List Nat} (h : o.descend? route = some n) (i : Nat)
    (rest : List Nat) : o.descend? (route ++ i :: rest) =
      n.children[i]?.bind fun child => child.descend? rest := by
  rw [descend?_append, h, Option.bind_some, descend?_cons]

lemma nodes_eq (o : Outline) : o.nodes = o :: nodesOf o.children := by
  cases o
  rfl

lemma mem_nodesOf {n : Outline} {os : List Outline} : n ∈ nodesOf os ↔ ∃ o ∈ os, n ∈ o.nodes := by
  induction os with
  | nil => simp [nodesOf]
  | cons o os ih => simp [nodesOf, ih]

lemma nodesOf_append (os os' : List Outline) :
    nodesOf (os ++ os') = nodesOf os ++ nodesOf os' := by
  induction os with
  | nil => rfl
  | cons o os ih => rw [List.cons_append, nodesOf, nodesOf, ih, List.append_assoc]

lemma mem_nodes {n o : Outline} : n ∈ o.nodes ↔ n = o ∨ ∃ c ∈ o.children, n ∈ c.nodes := by
  rw [nodes_eq, List.mem_cons, mem_nodesOf]

lemma self_mem_nodes (o : Outline) : o ∈ o.nodes :=
  mem_nodes.mpr (.inl rfl)

lemma mem_nodes_trans {m n o : Outline} (hm : m ∈ n.nodes) (hn : n ∈ o.nodes) : m ∈ o.nodes := by
  induction o using induction with
  | node entry span outOfOrder children ih =>
    rcases mem_nodes.mp hn with rfl | ⟨c, hc, hn⟩
    · exact hm
    · exact mem_nodes.mpr (.inr ⟨c, hc, ih c hc hn⟩)

lemma mem_nodes_of_descend? {n o : Outline} {route : List Nat} (h : o.descend? route = some n) :
    n ∈ o.nodes := by
  induction route generalizing o with
  | nil => exact mem_nodes.mpr (.inl (Option.some.inj h).symm)
  | cons i route ih =>
    obtain ⟨c, hc, hroute⟩ := Option.bind_eq_some_iff.mp h
    exact mem_nodes.mpr (.inr ⟨c, List.mem_of_getElem? hc, ih hroute⟩)

theorem mem_nodes_iff_descend? {n o : Outline} :
    n ∈ o.nodes ↔ ∃ route, o.descend? route = some n := by
  refine ⟨fun h => ?_, fun ⟨route, h⟩ => mem_nodes_of_descend? h⟩
  induction o using induction with
  | node entry span outOfOrder children ih =>
    rcases mem_nodes.mp h with rfl | ⟨c, hc, hn⟩
    · exact ⟨[], rfl⟩
    · obtain ⟨route, hroute⟩ := ih c hc hn
      obtain ⟨i, hi⟩ := List.mem_iff_getElem?.mp hc
      refine ⟨i :: route, ?_⟩
      rw [descend?_cons, hi]
      exact hroute

end SyntaxLens.Outline
