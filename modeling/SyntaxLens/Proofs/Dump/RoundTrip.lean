import SyntaxLens.Proofs.Dump.Completeness

/-!
# Reading a printed tree

Reading undoes printing: the dump of a printable tree is read as that tree. The tokens of the dump
are derived in the grammar, and the lines and columns that are printed are ones.
-/

namespace SyntaxLens.Dump

/-- All lexemes with the given tokens are read from the state on as the tree. -/
def ReadsTo (root : Node) (s : State) (ts : List Token) : Prop :=
  ∀ stop ls, ls.map (·.token) = ts → run s stop ls = .ok root

/-- The tree is read once a value has been handed to the innermost frame. -/
def ReadsAfter (root v : Node) (frames : List Frame) (ts : List Token) : Prop :=
  ∀ span, ∃ s, settle v span frames = .ok s ∧ ReadsTo root (.settled s) ts

/-- The tokens of a value are read as that value wherever a value may start. -/
def Readable (v : Node) : Prop :=
  ∀ root s frames ts, Awaits s frames → EndsValue ts → ReadsAfter root v frames ts →
    ReadsTo root s (v.tokens ++ ts)

lemma takes_printed {part : PositionPart} {n : UInt32} (hleast : part.least ≤ n.toNat) :
    part.Takes (.scalar (.int (.ofNat n.toNat))) := by
  have hn := n.toNat_lt
  have hint : (Int64.ofNat n.toNat).toInt = n.toNat := Int64.toInt_ofNat_of_lt (by omega)
  rw [PositionPart.Takes, hint]
  refine ⟨hleast, ?_⟩
  rw [UInt32.size]
  omega

lemma word?_printed (n : UInt32) : Node.word? (.scalar (.int (.ofNat n.toNat))) = some n := by
  have hn := n.toNat_lt
  have hint : (Int64.ofNat n.toNat).toInt = n.toNat := Int64.toInt_ofNat_of_lt (by omega)
  rw [Node.word?, hint, if_pos ⟨by omega, by rw [UInt32.size]; omega⟩]
  simp

section Arguments

variable {fields : List (String × Node)} (hnames : ∀ f ∈ fields, f.1 ∉ positionNames)

include hnames

lemma allPlaced_arguments {position : Option LineCol} (hline : ∀ p ∈ position, 1 ≤ p.line) :
    AllPlaced (Node.arguments fields position) := by
  rw [Node.arguments, allPlaced_append]
  constructor
  · intro f hf part hname
    refine absurd ?_ (hnames f hf)
    rw [hname]
    cases part <;> decide
  · cases position with
    | none => exact List.forall_mem_nil _
    | some p =>
      have hone : 1 ≤ p.line.toNat := UInt32.le_iff_toNat_le.mp (hline p rfl)
      have htakes : AllPlaced ([("lineno", .scalar (.int (.ofNat p.line.toNat)))] ++
          [("col_offset", .scalar (.int (.ofNat p.column.toNat)))]) := by
        rw [allPlaced_append, allPlaced_singleton, allPlaced_singleton]
        exact ⟨⟨fun _ => takes_printed (Int.ofNat_le.mpr hone), fun h => absurd h (by decide)⟩,
          fun h => absurd h (by decide), fun _ => takes_printed (Int.natCast_nonneg _)⟩
      exact htakes

lemma ofArguments_arguments (typeName : String) (position : Option LineCol) :
    Node.ofArguments typeName (Node.arguments fields position) =
      .composite typeName fields position := by
  have hfields : (fields.filter fun a => a.1 ∉ positionNames) = fields :=
    List.filter_eq_self.mpr fun f hf => decide_eq_true (hnames f hf)
  rw [Node.ofArguments, Node.arguments, List.filter_append, hfields]
  cases position with
  | none =>
    have hline : lastArgument? "lineno" fields = none :=
      lastArgument?_eq_none.mpr fun f hf hname => hnames f hf (by rw [hname]; decide)
    simp only [positionFields, List.map_nil, List.append_nil, List.filter_nil, placeOf, hline]
    rfl
  | some p =>
    let line : String × Node := ("lineno", .scalar (.int (.ofNat p.line.toNat)))
    let column : String × Node := ("col_offset", .scalar (.int (.ofNat p.column.toNat)))
    have hline : lastArgument? "lineno" (fields ++ [line] ++ [column]) = some line.2 := by
      rw [lastArgument?_concat, if_neg (show "col_offset" ≠ "lineno" by decide),
        lastArgument?_concat, if_pos rfl]
    have hcolumn : lastArgument? "col_offset" (fields ++ [line] ++ [column]) = some column.2 := by
      rw [lastArgument?_concat, if_pos rfl]
    have hplace : placeOf (fields ++ [line, column]) = some p := by
      rw [List.append_cons, placeOf, hline, hcolumn, Option.bind_some, Option.bind_some,
        word?_printed, word?_printed]
      rfl
    have hnone : ([line, column].filter fun a => a.1 ∉ positionNames) = [] := rfl
    change Node.composite typeName (fields ++ [line, column].filter _) (placeOf _) = _
    rw [hnone, List.append_nil]
    exact congrArg (Node.composite typeName fields) hplace

end Arguments

lemma separated_itemTokens (kind : SequenceKind) (items : List Node) : ∃ ts,
    Separated false (items.map Node.tokens) ts ∧
      (Node.sequence kind items).tokens =
        .mark (openingOf kind) :: (ts ++ [.mark (closingOf kind)]) := by
  cases kind with
  | list =>
    refine ⟨_, .inl rfl, ?_⟩
    rw [Node.tokens, Node.itemTokens_eq_map]
    rfl
  | tuple =>
    rw [Node.tokens, Node.itemTokens_eq_map]
    by_cases hone : items.length = 1
    · have hne : items.map Node.tokens ≠ [] := by
        rw [Ne, List.map_eq_nil_iff]
        rintro rfl
        cases hone
      refine ⟨_, .inr ⟨.inl hne, rfl⟩, ?_⟩
      rw [if_pos hone, List.append_assoc]
      rfl
    · refine ⟨_, .inl rfl, ?_⟩
      rw [if_neg hone]
      rfl

/-- The tokens of the tree are derived as it, and its lines and columns are ones. -/
def DerivesItself (v : Node) : Prop :=
  ∃ arguments, Phrase.Derived ⟨v.tokens, v, arguments⟩ ∧ AllPlaced arguments

lemma derivesItself_of_isPrintable {v : Node} (h : v.IsPrintable) : DerivesItself v := by
  have hleaf (value : Scalar) (hv : value.IsPrintable) : DerivesItself (.scalar value) := by
    rw [DerivesItself, Node.tokens]
    exact ⟨[], .leaf (isWord_token hv).2, List.forall_mem_nil _⟩
  induction h with
  | scalar leaf => exact hleaf _ leaf
  | @sequence kind items values ih =>
    choose! arguments hderived hplaced using ih
    obtain ⟨ts, hts, htokens⟩ := separated_itemTokens kind items
    have hphrase := derived_sequence kind (fun v => ⟨v.tokens, v, arguments v⟩) hderived hts
    rw [List.map_id', ← htokens] at hphrase
    exact ⟨_, hphrase, allPlaced_flatMap.mpr hplaced⟩
  | @composite typeName fields position name fieldNames line values ih =>
    have hnames : ∀ f ∈ fields, f.1 ∉ positionNames := fun f hf => (fieldNames f hf).2
    choose! arguments hderived hplaced using forall_arguments position
      (P := fun _ v => DerivesItself v) ih
      (fun n => hleaf (.int n) trivial) (fun n => hleaf (.int n) trivial)
    have hphrase := derived_node typeName (·.1) (fun a => ⟨a.2.tokens, a.2, arguments a⟩) hderived
      (.inl rfl)
    rw [← Node.tokens_arguments, ← Node.tokens, List.map_id', ofArguments_arguments hnames]
      at hphrase
    refine ⟨_, hphrase, allPlaced_flatMap_cons.mpr ⟨?_, hplaced⟩⟩
    rw [List.map_id']
    exact allPlaced_arguments hnames line

theorem readable_of_isPrintable {v : Node} (h : v.IsPrintable) : Readable v := by
  obtain ⟨arguments, hderived, hplaced⟩ := derivesItself_of_isPrintable h
  exact fun root s frames ts hs hts hread => isTaken_of_derived hderived (· = .ok root) s frames ts
    hs hts (fun _ => hread) (fun hbad => absurd hplaced hbad)

/-- Reading undoes printing. -/
theorem read_dump {v : Node} (h : v.IsPrintable) : read v.dump = .ok v := by
  have hscans := printsAs_tokens h [] [] endsToken_nil scans_nil
  rw [List.append_nil, List.append_nil] at hscans
  obtain ⟨ls, htokenize, htokens⟩ := hscans.tokenize
  have hread : ReadsTo v (.value []) (v.tokens ++ []) :=
    readable_of_isPrintable h v (.value []) [] [] rfl (by simp [EndsValue])
      (fun _ => ⟨.whole v, rfl, fun _ ls hls => by rw [List.map_eq_nil_iff.mp hls]; rfl⟩)
  rw [List.append_nil] at hread
  rw [read, Node.dump, String.toList_ofList, htokenize]
  change (ofLexemes ls).mapError _ = _
  rw [ofLexemes, hread 0 ls htokens]
  rfl

/-- Both kinds of quotes, bytes beyond ASCII, a tuple of one item and numbers of other types. -/
theorem read_dump_call :
    let v : Node := .composite "Call"
      [("b", .scalar (.str "it's \"é\"\n")),
        ("args", .sequence .tuple [.scalar (.bytes [0x27, 0x80, 0xE9])]),
        ("rest", .sequence .list [.scalar (.other "complex" "-1.5e+3j"),
          .scalar (.other "int" "9223372036854775808"), .scalar .none])] (some ⟨3, 4⟩)
    v.IsPrintable ∧
      v.dump = "Call(b='it\\'s \"é\"\\n', args=(b\"'\\x80é\",), " ++
        "rest=[-1.5e+3j, 9223372036854775808, None], lineno=3, col_offset=4)" ∧
      read v.dump = .ok v := by
  intro v
  have hcomplex : (Scalar.other "complex" "-1.5e+3j").IsPrintable :=
    .inr (.inr ⟨rfl, ['-', '1'], ['.', '5'], ['e', '+', '3'], 'j', by decide,
      ⟨['-'], ['1'], rfl, .inr rfl, by decide⟩,
      .inr ⟨['5'], rfl, List.all_eq_true.mp (by decide)⟩,
      .inr ⟨'e', ['+'], ['3'], rfl, .inl rfl, .inr (.inl rfl), by decide⟩, .inl rfl⟩)
  have hlarge : (Scalar.other "int" "9223372036854775808").IsPrintable :=
    .inr (.inl ⟨rfl, ⟨[], "9223372036854775808".toList, rfl, .inl rfl, by decide⟩,
      .inr (by decide)⟩)
  have hv : v.IsPrintable := by
    refine .composite (by decide) (by simp only [List.forall_mem_cons]; decide) (by decide) ?_
    simp only [List.forall_mem_cons]
    refine ⟨.scalar trivial, .sequence ?_, .sequence ?_, by simp⟩
    · simpa using .scalar trivial
    · simpa using ⟨.scalar hcomplex, .scalar hlarge, .scalar trivial⟩
  exact ⟨hv, by decide, read_dump hv⟩

end SyntaxLens.Dump
