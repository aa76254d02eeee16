import SyntaxLens.Proofs.Dump.Derivation

/-!
# Derivations with their arguments

A `Phrase` is a derivation of the grammar together with the arguments of all nodes in it. The reader
refuses a node exactly for an argument that should give a line or a column and does not.
-/

namespace SyntaxLens.Dump

/-- Tokens, the tree that they denote and the arguments of all nodes in them. -/
structure Phrase where
  tokens : List Token
  value : Node
  arguments : List (String × Node)

/-- The tokens are derived in the grammar. -/
inductive Phrase.Derived : Phrase → Prop
  | leaf {t : Token} {value : Scalar} (ht : t.leaf? = some value) :
      Derived ⟨[t], .scalar value, []⟩
  | sequence (kind : SequenceKind) {items : List Phrase} {ts : List Token}
      (hi : ∀ p ∈ items, p.Derived) (hts : Separated false (items.map (·.tokens)) ts) :
      Derived ⟨.mark (openingOf kind) :: (ts ++ [.mark (closingOf kind)]),
        .sequence kind (items.map (·.value)), items.flatMap (·.arguments)⟩
  | node (typeName : String) {parts : List (String × Phrase)} {ts : List Token}
      (hp : ∀ a ∈ parts, a.2.Derived)
      (hts : Separated false (parts.map fun a => argumentTokens a.1 a.2.tokens) ts) :
      Derived ⟨.name typeName :: .mark .openParen :: (ts ++ [.mark .closeParen]),
        .ofArguments typeName (parts.map fun a => (a.1, a.2.value)),
        parts.flatMap fun a => (a.1, a.2.value) :: a.2.arguments⟩

section Families

variable {α : Type} {xs : List α} {ts : List Token}

lemma denotes_sequence {lone : Bool} (kind : SequenceKind) (f : α → List Token) (g : α → Node)
    (hx : ∀ x ∈ xs, Denotes lone (f x) (g x)) (hts : Separated lone (xs.map f) ts) :
    Denotes lone (.mark (openingOf kind) :: (ts ++ [.mark (closingOf kind)]))
      (.sequence kind (xs.map g)) := by
  have hitems : ∀ i ∈ xs.map fun x => (f x, g x), Denotes lone i.1 i.2 :=
    List.forall_mem_map.mpr hx
  have hseparated : Separated lone ((xs.map fun x => (f x, g x)).map (·.1)) ts := by
    rwa [List.map_map]
  have hvalues := Denotes.sequence kind hitems hseparated
  rwa [List.map_map] at hvalues

lemma denotes_node {lone : Bool} (typeName : String) (name : α → String) (f : α → List Token)
    (g : α → Node) (hx : ∀ x ∈ xs, Denotes lone (f x) (g x))
    (hts : Separated lone (xs.map fun x => argumentTokens (name x) (f x)) ts) :
    Denotes lone (.name typeName :: .mark .openParen :: (ts ++ [.mark .closeParen]))
      (.ofArguments typeName (xs.map fun x => (name x, g x))) := by
  have hparts : ∀ a ∈ xs.map fun x => (name x, f x, g x), Denotes lone a.2.1 a.2.2 :=
    List.forall_mem_map.mpr hx
  have hseparated : Separated lone
      ((xs.map fun x => (name x, f x, g x)).map fun a => argumentTokens a.1 a.2.1) ts := by
    rwa [List.map_map]
  have hvalues := Denotes.node typeName hparts hseparated
  rwa [List.map_map] at hvalues

lemma derived_sequence (kind : SequenceKind) (f : α → Phrase) (hx : ∀ x ∈ xs, (f x).Derived)
    (hts : Separated false (xs.map fun x => (f x).tokens) ts) :
    Phrase.Derived ⟨.mark (openingOf kind) :: (ts ++ [.mark (closingOf kind)]),
      .sequence kind (xs.map fun x => (f x).value), xs.flatMap fun x => (f x).arguments⟩ := by
  have hitems : ∀ p ∈ xs.map f, p.Derived := List.forall_mem_map.mpr hx
  have hseparated : Separated false ((xs.map f).map (·.tokens)) ts := by
    rwa [List.map_map]
  have hphrase := Phrase.Derived.sequence kind hitems hseparated
  rwa [List.map_map, List.flatMap_map] at hphrase

lemma derived_node (typeName : String) (name : α → String) (f : α → Phrase)
    (hx : ∀ x ∈ xs, (f x).Derived)
    (hts : Separated false (xs.map fun x => argumentTokens (name x) (f x).tokens) ts) :
    Phrase.Derived ⟨.name typeName :: .mark .openParen :: (ts ++ [.mark .closeParen]),
      .ofArguments typeName (xs.map fun x => (name x, (f x).value)),
      xs.flatMap fun x => (name x, (f x).value) :: (f x).arguments⟩ := by
  have hparts : ∀ a ∈ xs.map fun x => (name x, f x), a.2.Derived := List.forall_mem_map.mpr hx
  have hseparated : Separated false
      ((xs.map fun x => (name x, f x)).map fun a => argumentTokens a.1 a.2.tokens) ts := by
    rwa [List.map_map]
  have hphrase := Phrase.Derived.node typeName hparts hseparated
  rwa [List.map_map, List.flatMap_map] at hphrase

end Families

lemma denotes_of_derived {p : Phrase} (h : p.Derived) : Denotes false p.tokens p.value := by
  induction h with
  | leaf ht => exact .leaf ht
  | sequence kind hi hts ih => exact denotes_sequence kind Phrase.tokens Phrase.value ih hts
  | node typeName hp hts ih =>
    exact denotes_node (α := String × Phrase) typeName (·.1) (·.2.tokens) (·.2.value) ih hts

lemma exists_derived {ts : List Token} {v : Node} (h : Denotes false ts v) :
    ∃ arguments, Phrase.Derived ⟨ts, v, arguments⟩ := by
  induction h with
  | leaf ht => exact ⟨[], .leaf ht⟩
  | sequence kind hi hts ih =>
    choose! arguments harguments using ih
    exact ⟨_, derived_sequence kind (fun i => ⟨i.1, i.2, arguments i⟩) harguments hts⟩
  | node typeName hp hts ih =>
    choose! arguments harguments using ih
    exact ⟨_, derived_node typeName (·.1) (fun a => ⟨a.2.1, a.2.2, arguments a⟩) harguments hts⟩

/-- The argument that gives the line or the column of a node. -/
def PositionPart.attribute : PositionPart → String
  | line => "lineno"
  | column => "col_offset"

/-- The value is a line or a column: an integer of 32 bits, and at least one for a line. -/
def PositionPart.Takes (part : PositionPart) : Node → Prop
  | .scalar (.int n) => part.least ≤ n.toInt ∧ n.toInt < UInt32.size
  | _ => False

instance (part : PositionPart) : DecidablePred part.Takes
  | .scalar (.int _) => inferInstanceAs (Decidable (_ ∧ _))
  | .scalar (.str _) | .scalar (.bytes _) | .scalar (.float _) | .scalar (.bool _)
  | .scalar .none | .scalar (.other _ _) | .sequence _ _ | .composite _ _ _ => isFalse id

instance {P : PositionPart → Prop} [DecidablePred P] : Decidable (∀ part, P part) :=
  decidable_of_iff (P .line ∧ P .column)
    ⟨fun h part => match part with
      | .line => h.1
      | .column => h.2,
    fun h => ⟨h .line, h .column⟩⟩

/-- The arguments that give lines and columns have values that lines and columns can have. -/
def AllPlaced (arguments : List (String × Node)) : Prop :=
  ∀ a ∈ arguments, ∀ part : PositionPart, a.1 = part.attribute → part.Takes a.2

instance (arguments : List (String × Node)) : Decidable (AllPlaced arguments) :=
  inferInstanceAs (Decidable (∀ a ∈ arguments, ∀ _ : PositionPart, _ → _))

lemma allPlaced_append {xs ys : List (String × Node)} :
    AllPlaced (xs ++ ys) ↔ AllPlaced xs ∧ AllPlaced ys :=
  List.forall_mem_append

lemma allPlaced_flatMap {α : Type} {xs : List α} {f : α → List (String × Node)} :
    AllPlaced (xs.flatMap f) ↔ ∀ x ∈ xs, AllPlaced (f x) := by
  simp only [AllPlaced, List.mem_flatMap, forall_exists_index, and_imp]
  exact ⟨fun h x hx a ha => h a x hx ha, fun h a x hx ha => h x hx a ha⟩

lemma allPlaced_flatMap_cons {α : Type} {xs : List α} {f : α → String × Node}
    {g : α → List (String × Node)} :
    AllPlaced (xs.flatMap fun x => f x :: g x) ↔
      AllPlaced (xs.map f) ∧ ∀ x ∈ xs, AllPlaced (g x) := by
  have hcons (x : α) : AllPlaced (f x :: g x) ↔ AllPlaced [f x] ∧ AllPlaced (g x) := by
    rw [← allPlaced_append, List.singleton_append]
  rw [List.map_eq_flatMap, allPlaced_flatMap, allPlaced_flatMap]
  constructor
  · intro h
    exact ⟨fun x hx => ((hcons x).mp (h x hx)).1, fun x hx => ((hcons x).mp (h x hx)).2⟩
  · rintro ⟨hvalues, hrest⟩ x hx
    exact (hcons x).mpr ⟨hvalues x hx, hrest x hx⟩

lemma positionValue_outcome (part : PositionPart) (a : Argument) :
    (part.Takes a.value ∧ ∃ w, positionValue part a = .ok w) ∨
      ¬part.Takes a.value ∧ ∃ hint, positionValue part a = .error (.badPosition a.span hint) := by
  rw [positionValue]
  split
  case h_1 n hn =>
    rw [hn, PositionPart.Takes]
    by_cases hleast : n.toInt < part.least
    · rw [if_pos hleast]
      exact .inr ⟨by omega, _, rfl⟩
    rw [if_neg hleast]
    by_cases hsize : n.toInt < UInt32.size
    · rw [if_pos hsize]
      exact .inl ⟨by omega, _, rfl⟩
    · rw [if_neg hsize]
      exact .inr ⟨by omega, _, rfl⟩
  case h_2 hn =>
    right
    refine ⟨fun htakes => ?_, _, rfl⟩
    unfold PositionPart.Takes at htakes
    split at htakes
    · exact hn _ ‹_›
    · exact htakes

lemma allPlaced_singleton {name : String} {v : Node} : AllPlaced [(name, v)] ↔
    (name = "lineno" → PositionPart.line.Takes v) ∧
      (name = "col_offset" → PositionPart.column.Takes v) := by
  simp only [AllPlaced, List.mem_singleton, forall_eq]
  refine ⟨fun h => ⟨h .line, h .column⟩, fun h part hname => ?_⟩
  cases part with
  | line => exact h.1 hname
  | column => exact h.2 hname

lemma add_outcome (c : Collected) (a : Argument) :
    (AllPlaced [(a.name, a.value)] ∧ ∃ c', c.add a = .ok c') ∨
      ¬AllPlaced [(a.name, a.value)] ∧ ∃ hint, c.add a = .error (.badPosition a.span hint) := by
  rw [allPlaced_singleton, Collected.add]
  by_cases hline : a.name = "lineno"
  · have hcolumn : a.name ≠ "col_offset" := by
      rw [hline]
      decide
    rw [if_pos hline]
    rcases positionValue_outcome .line a with ⟨htakes, w, hw⟩ | ⟨htakes, hint, hw⟩
    · exact .inl ⟨⟨fun _ => htakes, fun h => absurd h hcolumn⟩, _, by rw [hw]; rfl⟩
    · exact .inr ⟨fun h => htakes (h.1 hline), hint, by rw [hw]; rfl⟩
  rw [if_neg hline]
  by_cases hcolumn : a.name = "col_offset"
  · rw [if_pos hcolumn]
    rcases positionValue_outcome .column a with ⟨htakes, w, hw⟩ | ⟨htakes, hint, hw⟩
    · exact .inl ⟨⟨fun h => absurd h hline, fun _ => htakes⟩, _, by rw [hw]; rfl⟩
    · exact .inr ⟨fun h => htakes (h.2 hcolumn), hint, by rw [hw]; rfl⟩
  rw [if_neg hcolumn]
  left
  refine ⟨⟨fun h => absurd h hline, fun h => absurd h hcolumn⟩, ?_⟩
  by_cases hend : a.name = "end_lineno" ∨ a.name = "end_col_offset"
  · exact ⟨_, if_pos hend⟩
  · exact ⟨_, if_neg hend⟩

lemma not_allPlaced_singleton {name : String} {v : Node} (h : ¬AllPlaced [(name, v)]) :
    ∃ part : PositionPart, name = part.attribute ∧ ¬part.Takes v := by
  by_contra hnone
  refine h fun a ha part hname => ?_
  obtain rfl := List.mem_singleton.mp ha
  by_contra htakes
  exact hnone ⟨part, hname, htakes⟩

/-- The arguments of a node are refused for one that is no line or column though it has its name. -/
lemma foldlM_add_outcome (c : Collected) (arguments : List Argument) :
    (AllPlaced (arguments.map fun a => (a.name, a.value)) ∧
        ∃ c', arguments.foldlM Collected.add c = .ok c') ∨
      ∃ a ∈ arguments, ∃ (part : PositionPart) (hint : Option PositionPart),
        a.name = part.attribute ∧ ¬part.Takes a.value ∧
          arguments.foldlM Collected.add c = .error (.badPosition a.span hint) := by
  induction arguments generalizing c with
  | nil => exact .inl ⟨fun a ha => absurd ha List.not_mem_nil, c, rfl⟩
  | cons a arguments ih =>
    rw [List.map_cons, ← List.singleton_append, allPlaced_append, List.foldlM_cons]
    rcases add_outcome c a with ⟨ha, c', hadd⟩ | ⟨ha, hint, hadd⟩
    · rw [hadd]
      rcases ih c' with ⟨hplaced, c'', hfold⟩ | ⟨b, hb, part, hint, hname, htakes, hfold⟩
      · exact .inl ⟨⟨ha, hplaced⟩, c'', hfold⟩
      · exact .inr ⟨b, List.mem_cons_of_mem _ hb, part, hint, hname, htakes, hfold⟩
    · rw [hadd]
      obtain ⟨part, hname, htakes⟩ := not_allPlaced_singleton ha
      exact .inr ⟨a, List.mem_cons_self, part, hint, hname, htakes, rfl⟩

lemma composite_outcome (typeName : String) {arguments : List Argument}
    {named : List (String × Node)} (h : (arguments.map fun a => (a.name, a.value)) = named) :
    (AllPlaced named ∧ composite typeName arguments = .ok (.ofArguments typeName named)) ∨
      ¬AllPlaced named ∧
        ∃ span hint, composite typeName arguments = .error (.badPosition span hint) := by
  subst h
  rcases foldlM_add_outcome ⟨none, none, []⟩ arguments with
    ⟨hplaced, c, hfold⟩ | ⟨a, ha, part, hint, hname, htakes, hfold⟩
  · left
    have hok : ∃ v, composite typeName arguments = .ok v := ⟨_, by rw [composite, hfold]; rfl⟩
    obtain ⟨v, hv⟩ := hok
    rw [hv, composite_eq_ofArguments hv]
    exact ⟨hplaced, rfl⟩
  · right
    have hplaced : ¬AllPlaced (arguments.map fun a => (a.name, a.value)) := fun hall =>
      htakes (hall _ (List.mem_map_of_mem ha) part hname)
    exact ⟨hplaced, a.span, hint, by rw [composite, hfold]; rfl⟩

lemma lastArgument?_eq_none {name : String} {arguments : List (String × Node)} :
    lastArgument? name arguments = none ↔ ∀ a ∈ arguments, a.1 ≠ name := by
  simp [lastArgument?]

end SyntaxLens.Dump
