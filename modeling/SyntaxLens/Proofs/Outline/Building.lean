import Mathlib.Tactic.Common
import SyntaxLens.Proofs.Dump.Numbering
import SyntaxLens.Proofs.Outline.Routes

namespace SyntaxLens.Outline

lemma mem_ofFields {path : String} {fields : List (String × Node)} {o : Outline}
    (h : o ∈ ofFields path fields) :
    ∃ f ∈ fields, o = ofNode f.1 (fieldPath path f.1) f.2 := by
  induction fields with
  | nil => exact absurd h List.not_mem_nil
  | cons f fields ih =>
    rcases List.mem_cons.mp h with rfl | h
    · exact ⟨f, List.mem_cons_self, rfl⟩
    · obtain ⟨g, hg, ho⟩ := ih h
      exact ⟨g, List.mem_cons_of_mem f hg, ho⟩

lemma mem_ofItems {label path : String} {i : Nat} {items : List Node} {o : Outline}
    (h : o ∈ ofItems label path i items) :
    ∃ v ∈ items, ∃ j, i ≤ j ∧ o = ofNode (indexed label j) (indexed path j) v := by
  induction items generalizing i with
  | nil => exact absurd h List.not_mem_nil
  | cons v items ih =>
    rcases List.mem_cons.mp h with rfl | h
    · exact ⟨v, List.mem_cons_self, i, Nat.le_refl i, rfl⟩
    · obtain ⟨w, hw, j, hj, ho⟩ := ih h
      exact ⟨w, List.mem_cons_of_mem v hw, j, Nat.le_of_succ_le hj, ho⟩

mutual

lemma exists_ofNode_of_mem_nodes (label path : String) : ∀ (v : Node) (n : Outline),
    n ∈ (ofNode label path v).nodes → ∃ label' path' v', n = ofNode label' path' v'
  | .composite typeName fields position, n, h => by
    rcases mem_nodes.mp h with rfl | ⟨c, hc, hn⟩
    · exact ⟨label, path, _, rfl⟩
    · exact exists_ofNode_of_mem_ofFields path fields n (mem_nodesOf.mpr ⟨c, hc, hn⟩)
  | .sequence kind items, n, h => by
    rcases mem_nodes.mp h with rfl | ⟨c, hc, hn⟩
    · exact ⟨label, path, _, rfl⟩
    · exact exists_ofNode_of_mem_ofItems label path 0 items n (mem_nodesOf.mpr ⟨c, hc, hn⟩)
  | .scalar value, n, h => by
    rcases mem_nodes.mp h with rfl | ⟨c, hc, -⟩
    · exact ⟨label, path, _, rfl⟩
    · exact absurd hc List.not_mem_nil

lemma exists_ofNode_of_mem_ofFields (path : String) :
    ∀ (fields : List (String × Node)) (n : Outline), n ∈ nodesOf (ofFields path fields) →
      ∃ label' path' v', n = ofNode label' path' v'
  | [], n, h => absurd h List.not_mem_nil
  | (name, value) :: fields, n, h => by
    rw [ofFields, nodesOf, List.mem_append] at h
    rcases h with h | h
    · exact exists_ofNode_of_mem_nodes _ _ value n h
    · exact exists_ofNode_of_mem_ofFields path fields n h

lemma exists_ofNode_of_mem_ofItems (label path : String) (i : Nat) :
    ∀ (items : List Node) (n : Outline), n ∈ nodesOf (ofItems label path i items) →
      ∃ label' path' v', n = ofNode label' path' v'
  | [], n, h => absurd h List.not_mem_nil
  | item :: items, n, h => by
    rw [ofItems, nodesOf, List.mem_append] at h
    rcases h with h | h
    · exact exists_ofNode_of_mem_nodes _ _ item n h
    · exact exists_ofNode_of_mem_ofItems label path (i + 1) items n h

end

lemma position_of_sequence {label path : String} {v : Node} {n : Outline}
    (hn : n ∈ (ofNode label path v).nodes) (hkind : n.entry.kind = .sequence) :
    n.entry.position = none := by
  obtain ⟨label', path', v', rfl⟩ := exists_ofNode_of_mem_nodes label path v n hn
  cases v' with
  | composite typeName fields position => cases hkind
  | sequence kind items => rfl
  | scalar value => cases hkind

theorem one_le_line_ofNode {label path : String} {v : Node} (hv : v.IsNumbered) {n : Outline}
    (hn : n ∈ (ofNode label path v).nodes) {p : LineCol} (hp : n.entry.position = some p) :
    1 ≤ p.line := by
  induction hv generalizing label path with
  | composite hf hposition ih =>
    rcases mem_nodes.mp hn with rfl | ⟨c, hc, hn⟩
    · exact hposition p hp
    · obtain ⟨f, hmem, rfl⟩ := mem_ofFields hc
      exact ih f hmem hn
  | sequence hi ih =>
    rcases mem_nodes.mp hn with rfl | ⟨c, hc, hn⟩
    · cases hp
    · obtain ⟨w, hmem, j, -, rfl⟩ := mem_ofItems hc
      exact ih w hmem hn
  | scalar =>
    rcases mem_nodes.mp hn with rfl | ⟨c, hc, hn⟩
    · cases hp
    · exact absurd hc List.not_mem_nil

end SyntaxLens.Outline
