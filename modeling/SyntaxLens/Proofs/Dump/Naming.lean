import SyntaxLens.Proofs.Dump.Closing

/-!
# Arguments without names

The grammar proper has named arguments only. With `unnamed` the arguments of `Derivable` may lack
their names. A value that has been opened among the arguments of a node cannot be completed in the
grammar proper: nothing that starts so is read as a tree, and so nothing that starts so is derived,
since derived tokens are read once all lines and columns in them are renamed.
-/

namespace SyntaxLens.Dump

/-- The tokens of an argument of a node, which may lack its name. -/
def partTokens (name : Option String) (value : List Token) : List Token :=
  name.elim value fun name => argumentTokens name value

/-- The tokens are derived as a value. Arguments may lack their names if `unnamed` is true. -/
inductive Derivable (unnamed : Bool) : List Token → Prop
  | leaf {t : Token} {value : Scalar} (ht : t.leaf? = some value) : Derivable unnamed [t]
  | sequence (kind : SequenceKind) {items : List (List Token)} {ts : List Token}
      (hi : ∀ i ∈ items, Derivable unnamed i) (hts : Separated false items ts) :
      Derivable unnamed (.mark (openingOf kind) :: (ts ++ [.mark (closingOf kind)]))
  | node (typeName : String) {arguments : List (Option String × List Token)} {ts : List Token}
      (ha : ∀ a ∈ arguments, Derivable unnamed a.2)
      (hnamed : ∀ a ∈ arguments, unnamed = true ∨ a.1.isSome = true)
      (hts : Separated false (arguments.map fun a => partTokens a.1 a.2) ts) :
      Derivable unnamed (.name typeName :: .mark .openParen :: (ts ++ [.mark .closeParen]))

/-- The first tokens of a value that is no leaf. -/
def IsOpening (ts : List Token) : Prop :=
  (∃ kind, ts = [.mark (openingOf kind)]) ∨ ∃ typeName, ts = [.name typeName, .mark .openParen]

/-- Among the arguments of a node a value has been opened that has no name. The arguments in front
of it are complete. -/
def HasUnnamedArgument (ts : List Token) : Prop :=
  ∃ before typeName groups inner after,
    ts = before ++ (.name typeName :: .mark .openParen ::
      (commaTerminated groups ++ (inner ++ after))) ∧
    (∀ g ∈ groups, ∃ name value v, g = argumentTokens name value ∧ Denotes false value v) ∧
    IsOpening inner

variable {unnamed : Bool} {ts : List Token} {groups : List (List Token)} {v : Node}
  {frame : Frame} {below : List Frame}

lemma HasUnnamedArgument.append (h : HasUnnamedArgument ts) (us : List Token) :
    HasUnnamedArgument (ts ++ us) := by
  obtain ⟨before, typeName, groups, inner, after, rfl, hgroups, hinner⟩ := h
  refine ⟨before, typeName, groups, inner, after ++ us, ?_, hgroups, hinner⟩
  simp only [List.append_assoc, List.cons_append]

lemma derivable_node {α : Type} {xs : List α} (typeName : String) (name : α → Option String)
    (f : α → List Token) (hx : ∀ x ∈ xs, Derivable unnamed (f x))
    (hnamed : ∀ x ∈ xs, unnamed = true ∨ (name x).isSome = true)
    (hts : Separated false (xs.map fun x => partTokens (name x) (f x)) ts) :
    Derivable unnamed (.name typeName :: .mark .openParen :: (ts ++ [.mark .closeParen])) := by
  have hvalues : ∀ a ∈ xs.map fun x => (name x, f x), Derivable unnamed a.2 :=
    List.forall_mem_map.mpr hx
  refine .node typeName hvalues (List.forall_mem_map.mpr hnamed) ?_
  rwa [List.map_map]

lemma derivable_of_denotes (h : Denotes false ts v) : Derivable unnamed ts := by
  induction h with
  | leaf ht => exact .leaf ht
  | sequence kind hi hts ih => exact .sequence kind (List.forall_mem_map.mpr ih) hts
  | node typeName ha hts ih =>
    exact derivable_node (α := String × List Token × Node) typeName (fun a => some a.1)
      (fun a => a.2.1) ih (fun _ _ => .inr rfl) hts

lemma exists_denotes_of_derivable (h : Derivable false ts) : ∃ v, Denotes false ts v := by
  induction h with
  | leaf ht => exact ⟨_, .leaf ht⟩
  | sequence kind hi hts ih =>
    choose! values hvalues using ih
    exact ⟨_, denotes_sequence kind id values hvalues (by rwa [List.map_id])⟩
  | @node typeName arguments ts ha hnamed hts ih =>
    choose! values hvalues using ih
    have htokens : (arguments.map fun a => partTokens a.1 a.2) =
        arguments.map fun a => argumentTokens (a.1.getD "") a.2 := by
      apply List.map_congr_left
      intro a hmem
      obtain ⟨name, hname⟩ := Option.isSome_iff_exists.mp
        ((hnamed a hmem).resolve_left Bool.false_ne_true)
      rw [hname]
      rfl
    rw [htokens] at hts
    exact ⟨_, denotes_node typeName (fun a => a.1.getD "") (·.2) values hvalues hts⟩

/-- No tree is read. -/
def Refused (r : Except Problem Node) : Prop :=
  ∀ v, r ≠ .ok v

section Reading

variable {typeName : String} {start : Nat} {arguments : List Argument} {isFirst : Bool}
  {inner : List Token}

lemma yields_refused {s : State} (hframe : ¬frame.TakesValue) (hmem : frame ∈ s.outer) :
    Yields Refused s ts := by
  intro stop ls _ v hrun
  exact hframe (returns_of_run hrun frame hmem)

/-- A value that is opened where an argument has to be named is not read to the end. -/
lemma yields_refused_of_opening (hinner : IsOpening inner) (after : List Token) :
    Yields Refused (.item (.node typeName start arguments none) below isFirst)
      (inner ++ after) := by
  have hawaits : Awaits (.item (.node typeName start arguments none) below isFirst)
      (.node typeName start arguments none :: below) := rfl
  have hframe : ¬(Frame.node typeName start arguments none).TakesValue := Bool.false_ne_true
  rcases hinner with ⟨kind, rfl⟩ | ⟨typeName', rfl⟩
  · exact yields_sequence hawaits fun _ => yields_refused hframe List.mem_cons_self
  · exact yields_node hawaits fun _ => yields_refused hframe List.mem_cons_self

lemma yields_refused_of_arguments
    (hgroups : ∀ g ∈ groups, ∃ name value v, g = argumentTokens name value ∧ Denotes false value v)
    (hinner : IsOpening inner) (after : List Token) :
    Yields Refused (.item (.node typeName start arguments none) below isFirst)
      (commaTerminated groups ++ (inner ++ after)) := by
  induction groups generalizing arguments isFirst with
  | nil => exact yields_refused_of_opening hinner after
  | cons g groups ih =>
    obtain ⟨⟨name, value, v, rfl, hvalue⟩, hrest⟩ := List.forall_mem_cons.mp hgroups
    obtain ⟨inside, hderived⟩ := exists_derived hvalue
    have hcons : commaTerminated (argumentTokens name value :: groups) ++ (inner ++ after) =
        .name name :: .mark .equals ::
          (value ++ .mark .comma :: (commaTerminated groups ++ (inner ++ after))) := by
      simp [commaTerminated, argumentTokens]
    rw [hcons]
    apply yields_name
    refine isTaken_of_derived hderived Refused _ _ _ rfl (endsValue_mark (by decide) _) ?_ ?_
    · exact fun _ span => ⟨_, rfl, yields_comma (ih hrest)⟩
    · intro _ span hint v hok
      cases hok

lemma not_hasUnnamedArgument_of_read {ls : List Lexeme} (h : ofLexemes ls = .ok v) :
    ¬HasUnnamedArgument (ls.map (·.token)) := by
  rintro ⟨before, typeName, groups, inner, after, hls, hgroups, hinner⟩
  obtain ⟨done, later, rfl, -, hlater⟩ := List.map_eq_append_iff.mp hls
  obtain ⟨l, later, rfl, hl, hrest⟩ := List.map_eq_cons_iff.mp hlater
  obtain ⟨s, frames, stop, s', hawaits, -, -, hstate⟩ := exists_awaiting h fun m => by
    rw [hl]
    exact nofun
  have hrefused : Yields Refused s (.name typeName :: .mark .openParen ::
      (commaTerminated groups ++ (inner ++ after))) :=
    yields_node hawaits fun _ => yields_refused_of_arguments hgroups hinner after
  refine hrefused stop (l :: later) ?_ v ?_
  · rw [List.map_cons, hl, hrest]
  · rw [← hstate]
    exact h

end Reading

/-- The name of a line or of a column is replaced by one that is no place. -/
def plainName (text : String) : String :=
  if text ∈ positionNames then "x" else text

lemma plainName_notMem (text : String) : plainName text ∉ positionNames := by
  rw [plainName]
  split
  · decide
  · assumption

def Token.plain : Token → Token
  | name text => name (plainName text)
  | t => t

lemma leaf?_plain {t : Token} {value : Scalar} (h : t.leaf? = some value) :
    t.plain.leaf? = some value := by
  cases t with
  | name text =>
    have hname : text ∉ positionNames := by
      intro hmem
      have hnone : ∀ name ∈ positionNames, constant? name = none := by decide
      have hconstant : constant? text = some value := h
      rw [hnone text hmem] at hconstant
      cases hconstant
    rw [Token.plain, plainName, if_neg hname]
    exact h
  | _ => exact h

lemma map_commaTokens (groups : List (List Token)) :
    (commaTokens groups).map Token.plain = commaTokens (groups.map (·.map Token.plain)) := by
  induction groups with
  | nil => rfl
  | cons g groups ih =>
    cases groups with
    | nil => simp [commaTokens]
    | cons h groups =>
      simp only [commaTokens, List.map_cons, List.intercalate_cons_cons, List.map_append] at ih ⊢
      rw [ih]
      rfl

lemma Separated.plain {lone : Bool} (h : Separated lone groups ts) :
    Separated lone (groups.map (·.map Token.plain)) (ts.map Token.plain) := by
  rcases h with rfl | ⟨hne, rfl⟩
  · exact .inl (map_commaTokens groups)
  · refine .inr ⟨hne.imp_left fun hne => by simpa using hne, ?_⟩
    rw [List.map_append, map_commaTokens]
    rfl

lemma Derivable.plain (h : Derivable unnamed ts) : Derivable unnamed (ts.map Token.plain) := by
  induction h with
  | leaf ht => exact .leaf (leaf?_plain ht)
  | @sequence kind items ts hi hts ih =>
    rw [List.map_cons, List.map_append]
    exact .sequence kind (List.forall_mem_map.mpr ih) hts.plain
  | @node typeName arguments ts ha hnamed hts ih =>
    have htokens (name : Option String) (value : List Token) :
        (partTokens name value).map Token.plain =
          partTokens (name.map plainName) (value.map Token.plain) := by
      cases name <;> rfl
    have hseparated := hts.plain
    simp only [List.map_map, Function.comp_def, htokens] at hseparated
    rw [List.map_cons, List.map_cons, List.map_append]
    refine derivable_node (α := Option String × List Token) _ (fun a => a.1.map plainName)
      (fun a => a.2.map Token.plain) ih ?_ hseparated
    intro a hmem
    rw [Option.isSome_map]
    exact hnamed a hmem

lemma HasUnnamedArgument.plain (h : HasUnnamedArgument ts) :
    HasUnnamedArgument (ts.map Token.plain) := by
  obtain ⟨before, typeName, groups, inner, after, rfl, hgroups, hinner⟩ := h
  refine ⟨before.map Token.plain, plainName typeName, groups.map (·.map Token.plain),
    inner.map Token.plain, after.map Token.plain, ?_, ?_, ?_⟩
  · have hterminated : (commaTerminated groups).map Token.plain =
        commaTerminated (groups.map (·.map Token.plain)) := by
      simp [commaTerminated, List.map_flatMap, List.flatMap_map, Token.plain]
    simp only [List.map_append, List.map_cons, hterminated]
    rfl
  · rw [List.forall_mem_map]
    intro g hg
    obtain ⟨name, value, v, rfl, hvalue⟩ := hgroups g hg
    obtain ⟨v', hv'⟩ := exists_denotes_of_derivable (derivable_of_denotes hvalue).plain
    exact ⟨plainName name, value.map Token.plain, v', rfl, hv'⟩
  · rcases hinner with ⟨kind, rfl⟩ | ⟨typeName', rfl⟩
    · exact .inl ⟨kind, rfl⟩
    · exact .inr ⟨plainName typeName', rfl⟩

lemma mem_tokens_of_derived {p : Phrase} (h : p.Derived) :
    ∀ a ∈ p.arguments, .name a.1 ∈ p.tokens := by
  induction h with
  | leaf ht => exact nofun
  | @sequence kind items ts hi hts ih =>
    intro a ha
    obtain ⟨p, hp, ha⟩ := List.mem_flatMap.mp ha
    have hgroup := hts.isInfix_of_mem (List.mem_map_of_mem hp)
    exact List.mem_cons_of_mem _ (List.mem_append_left _ (hgroup.subset (ih p hp a ha)))
  | @node typeName parts ts hp hts ih =>
    intro a ha
    obtain ⟨part, hpart, ha⟩ := List.mem_flatMap.mp ha
    have hgroup := hts.isInfix_of_mem (List.mem_map_of_mem hpart)
    have hmem : .name a.1 ∈ argumentTokens part.1 part.2.tokens := by
      rcases List.mem_cons.mp ha with rfl | ha
      · exact List.mem_cons_self
      · exact List.mem_cons_of_mem _ (List.mem_cons_of_mem _ (ih part hpart a ha))
    exact List.mem_cons_of_mem _
      (List.mem_cons_of_mem _ (List.mem_append_left _ (hgroup.subset hmem)))

lemma exists_read_of_plain (h : Denotes false ts v) :
    ∃ ls w, ls.map (·.token) = ts.map Token.plain ∧ ofLexemes ls = .ok w := by
  obtain ⟨w, hw⟩ := exists_denotes_of_derivable (derivable_of_denotes h).plain
  obtain ⟨arguments, hderived⟩ := exists_derived hw
  have hplaced : AllPlaced arguments := by
    intro a ha part hname
    obtain ⟨t, -, ht⟩ := List.mem_map.mp (mem_tokens_of_derived hderived a ha)
    cases t with
    | name text =>
      have htext : plainName text = a.1 := by simpa [Token.plain] using ht
      refine absurd ?_ (plainName_notMem text)
      rw [htext, hname]
      cases part <;> decide
    | _ => cases ht
  refine ⟨(ts.map Token.plain).map fun t => ⟨t, .point 0⟩, w, ?_, ?_⟩
  · rw [List.map_map]
    exact List.map_id _
  · apply (ofLexemes_of_derived _).1 hplaced
    rw [List.map_map]
    exact (List.map_id _).symm ▸ hderived

/-- In the grammar proper all arguments have names, also those of values that are opened only. -/
theorem not_hasUnnamedArgument_of_denotes (h : Denotes false ts v) : ¬HasUnnamedArgument ts := by
  intro hunnamed
  obtain ⟨ls, w, hls, hread⟩ := exists_read_of_plain h
  have hplain := hunnamed.plain
  rw [← hls] at hplain
  exact not_hasUnnamedArgument_of_read hread hplain

end SyntaxLens.Dump
