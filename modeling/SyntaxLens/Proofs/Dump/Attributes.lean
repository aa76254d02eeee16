import Mathlib
import SyntaxLens.Proofs.Dump.Completeness

/-!
# Lines and columns of a dump

The arguments of a node give its fields and its place. A dump that is derived in the grammar is read
unless a line or a column in it is out of range, and then one of these is what is reported.
-/

namespace SyntaxLens.Dump

/-- The place of a node with the arguments: the last line and the last column, if there is a line.
Without a column it is the first one. -/
structure IsPlaceOf (arguments : List (String × Node)) (position : Option LineCol) : Prop where
  none : position = none ↔ ∀ a ∈ arguments, a.1 ≠ "lineno"
  line : ∀ p ∈ position,
    lastArgument? "lineno" arguments = some (.scalar (.int (.ofNat p.line.toNat)))
  column : ∀ p ∈ position,
    lastArgument? "col_offset" arguments = some (.scalar (.int (.ofNat p.column.toNat))) ∨
      lastArgument? "col_offset" arguments = .none ∧ p.column = 0

section Places

variable {name : String} {arguments : List (String × Node)} {v : Node}

lemma mem_of_lastArgument? (h : lastArgument? name arguments = some v) : (name, v) ∈ arguments := by
  rw [lastArgument?, Option.map_eq_some_iff] at h
  obtain ⟨a, ha, rfl⟩ := h
  have hname : a.1 = name := by simpa using List.find?_some ha
  rw [← hname]
  exact List.mem_reverse.mp (List.mem_of_find?_eq_some ha)

lemma PositionPart.Takes.exists_word {part : PositionPart} (h : part.Takes v) :
    ∃ w : UInt32, v.word? = some w ∧ v = .scalar (.int (.ofNat w.toNat)) := by
  unfold PositionPart.Takes at h
  split at h
  case h_2 => exact h.elim
  rename_i n
  obtain ⟨hleast, hsize⟩ := h
  have hn : 0 ≤ n.toInt := by
    cases part <;> simp only [PositionPart.least] at hleast <;> omega
  refine ⟨UInt32.ofNat n.toInt.toNat, by rw [Node.word?, if_pos ⟨hn, hsize⟩], ?_⟩
  have hword : (UInt32.ofNat n.toInt.toNat).toNat = n.toInt.toNat :=
    UInt32.toNat_ofNat_of_lt' (by omega)
  rw [hword, ← Int64.ofInt_eq_ofNat, Int.toNat_of_nonneg hn, Int64.ofInt_toInt]

lemma exists_word_of_lastArgument? (hplaced : AllPlaced arguments) (part : PositionPart)
    (h : lastArgument? part.attribute arguments = some v) :
    ∃ w : UInt32, v.word? = some w ∧ v = .scalar (.int (.ofNat w.toNat)) :=
  (hplaced _ (mem_of_lastArgument? h) part rfl).exists_word

lemma isPlaceOf_placeOf (hplaced : AllPlaced arguments) :
    IsPlaceOf arguments (placeOf arguments) := by
  rw [placeOf]
  cases hline : lastArgument? "lineno" arguments with
  | none =>
    exact ⟨⟨fun _ => lastArgument?_eq_none.mp hline, fun _ => rfl⟩, nofun, nofun⟩
  | some v =>
    obtain ⟨w, hw, hv⟩ := exists_word_of_lastArgument? hplaced .line hline
    rw [Option.bind_some, hw, Option.map_some]
    refine ⟨⟨nofun, fun h => ?_⟩, ?_, ?_⟩
    · rw [lastArgument?_eq_none.mpr h] at hline
      cases hline
    · rintro _ ⟨rfl⟩
      rw [hline, hv]
    · rintro _ ⟨rfl⟩
      cases hcolumn : lastArgument? "col_offset" arguments with
      | none => exact .inr ⟨rfl, rfl⟩
      | some u =>
        obtain ⟨w', hw', hu⟩ := exists_word_of_lastArgument? hplaced .column hcolumn
        left
        rw [Option.bind_some, hw', Option.getD_some, hu]

/-- A node has the arguments that are not about its place as its fields, and the place that the
others give. -/
lemma ofArguments_of_allPlaced (typeName : String) (hplaced : AllPlaced arguments) :
    ∃ position, Node.ofArguments typeName arguments =
        .composite typeName (arguments.filter (·.1 ∉ positionNames)) position ∧
      IsPlaceOf arguments position :=
  ⟨_, rfl, isPlaceOf_placeOf hplaced⟩

end Places

/-- A dump that is derived in the grammar is read as the tree that it denotes, if all lines and
columns in it are ones. Otherwise one of them is reported. -/
theorem read_of_denotes {dump : String} {ls : List Lexeme} {v : Node}
    (hls : tokenize dump.toList = .ok ls) (h : Denotes false (ls.map (·.token)) v) :
    (∃ arguments, Phrase.Derived ⟨ls.map (·.token), v, arguments⟩) ∧
    ∀ arguments, Phrase.Derived ⟨ls.map (·.token), v, arguments⟩ →
      (AllPlaced arguments → read dump = .ok v ∧
        ∀ typeName named, named ⊆ arguments → ∃ position,
          Node.ofArguments typeName named =
              .composite typeName (named.filter (·.1 ∉ positionNames)) position ∧
            IsPlaceOf named position) ∧
      (¬AllPlaced arguments → ∃ d, read dump = .error [d] ∧ d.kind = some .invalidPosition) := by
  refine ⟨exists_derived h, fun arguments hderived => ?_⟩
  obtain ⟨hok, hbad⟩ := ofLexemes_of_derived hderived
  constructor
  · intro hplaced
    constructor
    · rw [read, hls, Except.bind, hok hplaced]
      rfl
    · intro typeName named hnamed
      exact ofArguments_of_allPlaced typeName fun a ha => hplaced a (hnamed ha)
  · intro hplaced
    obtain ⟨span, hint, hproblem⟩ := hbad hplaced
    refine ⟨(Problem.badPosition span hint).diagnostic, ?_, rfl⟩
    rw [read, hls, Except.bind, hproblem]
    rfl

/-- A line counts even in the value of an attribute that is dropped. -/
theorem read_of_denotes_end_lineno :
    let v : Node := .composite "A" [] (some ⟨2, 0⟩)
    (∃ ls, tokenize "A(lineno=1,end_lineno=B(lineno=3),lineno=2)".toList = .ok ls ∧
      Denotes false (ls.map (·.token)) v ∧
      read "A(lineno=1,end_lineno=B(lineno=3),lineno=2)" = .ok v) ∧
    ∃ ls, tokenize "A(lineno=1,end_lineno=B(lineno=0),lineno=2)".toList = .ok ls ∧
      Denotes false (ls.map (·.token)) v ∧
      ∃ d, read "A(lineno=1,end_lineno=B(lineno=0),lineno=2)" = .error [d] ∧
        d.kind = some .invalidPosition := by
  intro v
  let number (text : String) (n : Int64) : Phrase := ⟨[.number .int text], .scalar (.int n), []⟩
  -- the dumps differ in the literal and in its value
  let inner (text : String) (n : Int64) : Phrase :=
    ⟨[.name "B", .mark .openParen, .name "lineno", .mark .equals, .number .int text,
      .mark .closeParen], .ofArguments "B" [("lineno", .scalar (.int n))],
      [("lineno", .scalar (.int n))]⟩
  let tokens (text : String) : List Token := [.name "A", .mark .openParen, .name "lineno",
    .mark .equals, .number .int "1", .mark .comma, .name "end_lineno", .mark .equals, .name "B",
    .mark .openParen, .name "lineno", .mark .equals, .number .int text, .mark .closeParen,
    .mark .comma, .name "lineno", .mark .equals, .number .int "2", .mark .closeParen]
  let arguments (n : Int64) : List (String × Node) := [("lineno", .scalar (.int 1)),
    ("end_lineno", .ofArguments "B" [("lineno", .scalar (.int n))]), ("lineno", .scalar (.int n)),
    ("lineno", .scalar (.int 2))]
  have hderived (text : String) (n : Int64) (h : (Token.number .int text).leaf? = some (.int n)) :
      Phrase.Derived ⟨tokens text, v, arguments n⟩ := by
    have hvalue : ∀ a ∈ [("lineno", number text n)], a.2.Derived :=
      List.forall_mem_singleton.mpr (.leaf h)
    have hinner : (inner text n).Derived := .node "B" hvalue (.inl rfl)
    have hparts : ∀ a ∈ [("lineno", number "1" 1), ("end_lineno", inner text n),
        ("lineno", number "2" 2)], a.2.Derived := by
      simp only [List.forall_mem_cons]
      exact ⟨.leaf rfl, hinner, .leaf rfl, nofun⟩
    exact .node "A" hparts (.inl rfl)
  obtain ⟨ls, hls, htokens⟩ : ∃ ls, tokenize
      "A(lineno=1,end_lineno=B(lineno=3),lineno=2)".toList = .ok ls ∧
        ls.map (·.token) = tokens "3" := ⟨_, by cbv, rfl⟩
  obtain ⟨ls', hls', htokens'⟩ : ∃ ls, tokenize
      "A(lineno=1,end_lineno=B(lineno=0),lineno=2)".toList = .ok ls ∧
        ls.map (·.token) = tokens "0" := ⟨_, by cbv, rfl⟩
  have hplaced := hderived "3" 3 rfl
  have hbad := hderived "0" 0 rfl
  rw [← htokens] at hplaced
  rw [← htokens'] at hbad
  have hread := (read_of_denotes hls (denotes_of_derived hplaced)).2 _ hplaced
  have hrefused := (read_of_denotes hls' (denotes_of_derived hbad)).2 _ hbad
  exact ⟨⟨ls, hls, denotes_of_derived hplaced, (hread.1 (by decide)).1⟩,
    ls', hls', denotes_of_derived hbad, hrefused.2 (by decide)⟩

end SyntaxLens.Dump
