import SyntaxLens.Proofs.Dump.Phrases
import SyntaxLens.Proofs.Dump.Scanning

/-!
# What the reader takes

Tokens that are derived in the grammar are read as the tree that the derivation denotes, if every
`lineno` and every `col_offset` in them is a number that a line or a column can have. Otherwise the
reader refuses them for one of these.

The reader is followed from a state in which a value may start, through the tokens of the value, to
the state in which the value has been handed to the innermost frame.
-/

namespace SyntaxLens.Dump

/-- A value may start, and it belongs to the innermost of the frames. -/
def Awaits : State → List Frame → Prop
  | .value frames, fs => frames = fs
  | .item frame below _, fs => frame :: below = fs
  | .closing _ _, _ | .settled _, _ | .name _ _ _, _ => False

/-- Tokens that cannot turn a name in front of them into a call or an argument. -/
def EndsValue (ts : List Token) : Prop :=
  ∀ t ∈ ts.head?, t ≠ .mark .openParen ∧ t ≠ .mark .equals

def StartsValue (t : Token) : Prop :=
  t ≠ .mark .comma ∧ t ≠ .mark .closeParen ∧ t ≠ .mark .closeBracket

lemma endsValue_mark {m : Mark} (h : m ≠ .openParen ∧ m ≠ .equals) (ts : List Token) :
    EndsValue (.mark m :: ts) := by
  intro t ht
  obtain rfl : .mark m = t := by simpa using ht
  simpa using h

lemma step_of_awaits {s : State} {frames : List Frame} (h : Awaits s frames) {t : Lexeme}
    (ht : StartsValue t.token) : step s t = startValue frames t := by
  obtain ⟨hcomma, hparen, hbracket⟩ := ht
  cases s with
  | value fs => rw [step, (h : fs = frames)]
  | item frame below isFirst =>
    have hclosing : t.token ≠ .mark frame.closing := by
      cases frame with
      | node _ _ _ _ => exact hparen
      | sequence kind _ _ => cases kind <;> assumption
    rw [step, if_neg hclosing, if_neg (fun hc => hcomma hc.1), (h : frame :: below = frames)]
  | closing frame below => exact h.elim
  | settled s => exact h.elim
  | name fs text span => exact h.elim

lemma step_name_of_awaits {s : State} {frames : List Frame} (h : Awaits s frames) (text : String)
    (span : ByteSpan) : step s ⟨.name text, span⟩ = .ok (.name frames text span) :=
  step_of_awaits h ⟨by simp, by simp, by simp⟩

lemma step_literal_of_awaits {s : State} {frames : List Frame} (hs : Awaits s frames) {t : Token}
    {leaf : Scalar} (hleaf : t.scalar? = some leaf) (span : ByteSpan) :
    step s ⟨t, span⟩ = resume (settle (.scalar leaf) span frames) := by
  cases t with
  | name text => cases hleaf
  | mark m => cases hleaf
  | str text =>
    rw [step_of_awaits hs ⟨by simp, by simp, by simp⟩]
    simp only [startValue, hleaf]
  | bytes data =>
    rw [step_of_awaits hs ⟨by simp, by simp, by simp⟩]
    simp only [startValue, hleaf]
  | number kind text =>
    rw [step_of_awaits hs ⟨by simp, by simp, by simp⟩]
    simp only [startValue, hleaf]

/-- A name that denotes a leaf is that leaf, unless a call or an argument starts with it. -/
lemma run_name {frames : List Frame} {text : String} {span : ByteSpan} {leaf : Scalar} {s : Settled}
    (hleaf : constant? text = some leaf) (hs : settle (.scalar leaf) span frames = .ok s)
    (stop : Nat) {ls : List Lexeme} (hls : EndsValue (ls.map (·.token))) :
    run (.name frames text span) stop ls = run (.settled s) stop ls := by
  cases ls with
  | nil => simp [run, finish, hleaf, hs, Except.bind]
  | cons l ls =>
    obtain ⟨hparen, hequals⟩ := hls l.token rfl
    have hstep : afterName frames text span l = afterValue l s := by
      unfold afterName
      simp only [hleaf, hs]
      split
      · exact absurd ‹l.token = .mark .openParen› hparen
      · exact absurd ‹l.token = .mark .equals› hequals
      · rfl
    simp only [run, step, hstep]

lemma Frame.closing_ne_comma (frame : Frame) : frame.closing ≠ .comma := by
  cases frame with
  | node _ _ _ _ => simp [Frame.closing]
  | sequence kind _ _ => cases kind <;> simp [Frame.closing]

/-- What the reader makes of the tokens from the state on has the property, wherever they stand. -/
def Yields (P : Except Problem Node → Prop) (s : State) (ts : List Token) : Prop :=
  ∀ stop ls, ls.map (·.token) = ts → P (run s stop ls)

/-- The outcome has the property once a value has been handed to the innermost frame. -/
def YieldsAfter (P : Except Problem Node → Prop) (v : Node) (frames : List Frame)
    (ts : List Token) : Prop :=
  ∀ span, ∃ r, settle v span frames = .ok r ∧ Yields P (.settled r) ts

/-- The property holds of every refusal of a line or a column. -/
def OfBadPosition (P : Except Problem Node → Prop) : Prop :=
  ∀ span hint, P (.error (.badPosition span hint))

section Outcomes

variable {P : Except Problem Node → Prop} {s : State} {frame : Frame} {frames below : List Frame}
  {ts : List Token} {v : Node}

lemma yields_cons {t : Token}
    (h : ∀ span, ∃ s', step s ⟨t, span⟩ = .ok s' ∧ Yields P s' ts) : Yields P s (t :: ts) := by
  intro stop ls hls
  obtain ⟨l, ls, rfl, rfl, hrest⟩ := List.map_eq_cons_iff.mp hls
  obtain ⟨s', hstep, hyields⟩ := h l.span
  rw [run, hstep]
  exact hyields l.span.stop ls hrest

lemma yields_leaf {t : Token} {leaf : Scalar} (hs : Awaits s frames) (hleaf : t.leaf? = some leaf)
    (hts : EndsValue ts) (h : YieldsAfter P (.scalar leaf) frames ts) : Yields P s (t :: ts) := by
  apply yields_cons
  intro span
  obtain ⟨r, hsettle, hyields⟩ := h span
  by_cases hname : ∃ text, t = .name text
  · obtain ⟨text, rfl⟩ := hname
    refine ⟨.name frames text span, step_name_of_awaits hs text span, ?_⟩
    intro stop ls hls
    rw [run_name hleaf hsettle stop (hls ▸ hts)]
    exact hyields stop ls hls
  · have hscalar : t.scalar? = some leaf := by
      cases t with
      | name text => exact absurd ⟨text, rfl⟩ hname
      | _ => exact hleaf
    refine ⟨.settled r, ?_, hyields⟩
    rw [step_literal_of_awaits hs hscalar, hsettle]
    rfl

lemma yields_close (frame : Frame)
    (h : (∃ v, frame.value = .ok v ∧ YieldsAfter P v below ts) ∨
      ∃ p, frame.value = .error p ∧ P (.error p)) :
    Yields P (.settled (.inside frame below)) (.mark frame.closing :: ts) ∧
      ∀ isFirst, Yields P (.item frame below isFirst) (.mark frame.closing :: ts) := by
  have hcomma : Token.mark frame.closing ≠ .mark .comma := by
    simpa using frame.closing_ne_comma
  have hsettled (span : ByteSpan) : step (.settled (.inside frame below))
      ⟨.mark frame.closing, span⟩ = resume (close frame below span.stop) := by
    simp only [step, afterValue, if_neg hcomma, if_true]
  have hitem (isFirst : Bool) (span : ByteSpan) : step (.item frame below isFirst)
      ⟨.mark frame.closing, span⟩ = resume (close frame below span.stop) := by
    simp only [step, if_true]
  have hclosed {s : State} (hs : ∀ span, step s ⟨.mark frame.closing, span⟩ =
      resume (close frame below span.stop)) : Yields P s (.mark frame.closing :: ts) := by
    intro stop ls hls
    obtain ⟨⟨t, span⟩, ls, rfl, rfl, hrest⟩ := List.map_eq_cons_iff.mp hls
    rw [run, hs, close]
    rcases h with ⟨v, hv, hyields⟩ | ⟨p, hp, hrefused⟩
    · obtain ⟨r, hsettle, hyields⟩ := hyields ⟨frame.start, span.stop⟩
      rw [hv]
      simp only [Except.bind, hsettle, resume]
      exact hyields span.stop ls hrest
    · rw [hp]
      exact hrefused
  exact ⟨hclosed hsettled, fun isFirst => hclosed (hitem isFirst)⟩

lemma yields_comma (h : Yields P (.item frame below false) ts) :
    Yields P (.settled (.inside frame below)) (.mark .comma :: ts) :=
  yields_cons (fun _ => ⟨.item frame below false, by simp [step, afterValue], h⟩)

/-- Parts with commas between them, each of which adds one entry to the innermost frame. `Holds`
says which entries a frame has, and only after the parts that are `Good` is anything read. -/
lemma yields_parts {α : Type} {g : α → List Token} (Holds : Frame → List α → Prop)
    (Good : α → Prop) {tail : List Token} (htail : EndsValue tail) {xs : List α}
    (hpart : ∀ x ∈ xs, ∀ frame done isFirst ts, Holds frame done → EndsValue ts →
      (Good x → ∀ frame', Holds frame' (done ++ [x]) →
        Yields P (.settled (.inside frame' below)) ts) →
      Yields P (.item frame below isFirst) (g x ++ ts)) :
    ∀ frame done isFirst, xs ≠ [] → Holds frame done →
      ((∀ x ∈ xs, Good x) → ∀ frame', Holds frame' (done ++ xs) →
        Yields P (.settled (.inside frame' below)) tail) →
      Yields P (.item frame below isFirst) (commaTokens (xs.map g) ++ tail) := by
  induction xs with
  | nil => exact fun _ _ _ hne => absurd rfl hne
  | cons x xs ih =>
    intro frame done isFirst _ hdone h
    have hx := hpart x List.mem_cons_self frame done isFirst
    cases xs with
    | nil =>
      rw [commaTokens_singleton]
      apply hx tail hdone htail
      intro hgood
      exact h (List.forall_mem_singleton.mpr hgood)
    | cons y xs =>
      rw [commaTokens_cons_cons, List.append_assoc]
      apply hx _ hdone (endsValue_mark (by simp) _)
      intro hgood frame' hframe'
      apply yields_comma
      have hrest := fun z hz => hpart z (List.mem_cons_of_mem x hz)
      apply ih hrest frame' _ false (List.cons_ne_nil _ _) hframe'
      intro hall
      rw [List.append_assoc]
      exact h (List.forall_mem_cons.mpr ⟨hgood, hall⟩)

lemma yields_bracket {α : Type} {g : α → List Token} (Holds : Frame → List α → Prop)
    (Good : α → Prop) {xs : List α} {body : List Token} {close : Mark} (frame : Frame)
    (hclose : close ≠ .openParen ∧ close ≠ .equals) (hframe : Holds frame [])
    (hbody : Separated false (xs.map g) body)
    (hpart : ∀ x ∈ xs, ∀ frame done isFirst ts, Holds frame done → EndsValue ts →
      (Good x → ∀ frame', Holds frame' (done ++ [x]) →
        Yields P (.settled (.inside frame' below)) ts) →
      Yields P (.item frame below isFirst) (g x ++ ts))
    (hclosed : (∀ x ∈ xs, Good x) → ∀ frame', Holds frame' xs → frame'.closing = close ∧
      ((∃ v, frame'.value = .ok v ∧ YieldsAfter P v below ts) ∨
        ∃ p, frame'.value = .error p ∧ P (.error p))) :
    Yields P (.item frame below true) (body ++ .mark close :: ts) := by
  have hend : (∀ x ∈ xs, Good x) → ∀ frame', Holds frame' xs →
      Yields P (.settled (.inside frame' below)) (.mark close :: ts) ∧
        ∀ isFirst, Yields P (.item frame' below isFirst) (.mark close :: ts) := by
    intro hgood frame' hframe'
    obtain ⟨rfl, houtcome⟩ := hclosed hgood frame' hframe'
    exact yields_close frame' houtcome
  rcases hbody with rfl | ⟨hne, rfl⟩
  · by_cases hnil : xs = []
    · subst hnil
      exact (hend nofun frame hframe).2 true
    · apply yields_parts Holds Good (endsValue_mark hclose _) hpart frame [] true hnil hframe
      exact fun hgood frame' hframe' => (hend hgood frame' hframe').1
  · have hnil : xs ≠ [] := by
      simpa using hne
    rw [List.append_assoc]
    apply yields_parts Holds Good (endsValue_mark (by simp) _) hpart frame [] true hnil hframe
    exact fun hgood frame' hframe' => yields_comma ((hend hgood frame' hframe').2 false)

lemma yields_sequence {kind : SequenceKind} (hs : Awaits s frames)
    (h : ∀ start, Yields P (.item (.sequence kind start []) frames true) ts) :
    Yields P s (.mark (openingOf kind) :: ts) := by
  apply yields_cons
  intro span
  refine ⟨.item (.sequence kind span.start []) frames true, ?_, h span.start⟩
  cases kind <;>
    exact step_of_awaits hs ⟨by simp [openingOf], by simp [openingOf], by simp [openingOf]⟩

lemma yields_node {typeName : String} (hs : Awaits s frames)
    (h : ∀ start, Yields P (.item (.node typeName start [] none) frames true) ts) :
    Yields P s (.name typeName :: .mark .openParen :: ts) := by
  apply yields_cons
  intro span
  refine ⟨_, step_name_of_awaits hs typeName span, ?_⟩
  apply yields_cons
  intro _
  exact ⟨_, by simp [step, afterName], h span.start⟩

lemma yields_name {typeName name : String} {start : Nat} {arguments : List Argument}
    {isFirst : Bool}
    (h : Yields P (.value (.node typeName start arguments (some name) :: below)) ts) :
    Yields P (.item (.node typeName start arguments none) below isFirst)
      (.name name :: .mark .equals :: ts) := by
  have hawaits : Awaits (.item (.node typeName start arguments none) below isFirst)
      (.node typeName start arguments none :: below) := rfl
  apply yields_cons
  intro span
  refine ⟨_, step_name_of_awaits hawaits name span, ?_⟩
  apply yields_cons
  intro _
  exact ⟨_, by simp [step, afterName], h⟩

end Outcomes

/-- Wherever a value may start, the tokens of the phrase are read as its value, or are refused for a
line or a column. -/
def Phrase.IsTaken (p : Phrase) : Prop :=
  ∀ P s frames ts, Awaits s frames → EndsValue ts →
    (AllPlaced p.arguments → YieldsAfter P p.value frames ts) →
    (¬AllPlaced p.arguments → OfBadPosition P) → Yields P s (p.tokens ++ ts)

lemma isTaken_leaf {t : Token} {value : Scalar} (ht : t.leaf? = some value) :
    Phrase.IsTaken ⟨[t], .scalar value, []⟩ :=
  fun _ _ _ _ hs hts hok _ => yields_leaf hs ht hts (hok nofun)

lemma isTaken_sequence {kind : SequenceKind} {items : List Phrase} {ts : List Token}
    (hitems : ∀ p ∈ items, p.IsTaken) (hts : Separated false (items.map (·.tokens)) ts) :
    Phrase.IsTaken ⟨.mark (openingOf kind) :: (ts ++ [.mark (closingOf kind)]),
      .sequence kind (items.map (·.value)), items.flatMap (·.arguments)⟩ := by
  intro P s frames rest hs hrest hok hbad
  rw [allPlaced_flatMap] at hok hbad
  rw [List.cons_append, List.append_assoc, List.singleton_append]
  refine yields_sequence hs fun start => ?_
  refine yields_bracket
    (fun frame done => frame = .sequence kind start (done.map Phrase.value))
    (fun p => AllPlaced p.arguments) _ (by cases kind <;> simp [closingOf]) rfl hts ?_ ?_
  · intro p hp frame done isFirst us hframe hus hnext
    subst hframe
    refine hitems p hp P _ _ us rfl hus (fun hgood span => ?_)
      (fun h => hbad fun hall => h (hall p hp))
    refine ⟨_, rfl, hnext hgood _ ?_⟩
    rw [List.map_append, List.map_singleton]
  · rintro hgood frame' rfl
    exact ⟨by cases kind <;> rfl, .inl ⟨_, rfl, hok hgood⟩⟩

lemma isTaken_node {typeName : String} {parts : List (String × Phrase)} {ts : List Token}
    (hparts : ∀ a ∈ parts, a.2.IsTaken)
    (hts : Separated false (parts.map fun a => argumentTokens a.1 a.2.tokens) ts) :
    Phrase.IsTaken ⟨.name typeName :: .mark .openParen :: (ts ++ [.mark .closeParen]),
      .ofArguments typeName (parts.map fun a => (a.1, a.2.value)),
      parts.flatMap fun a => (a.1, a.2.value) :: a.2.arguments⟩ := by
  intro P s frames rest hs hrest hok hbad
  rw [allPlaced_flatMap_cons] at hok hbad
  rw [List.cons_append, List.cons_append, List.append_assoc, List.singleton_append]
  refine yields_node hs fun start => ?_
  refine yields_bracket
    (fun frame done => ∃ arguments : List Argument, frame = .node typeName start arguments none ∧
      (arguments.map fun a => (a.name, a.value)) = done.map fun a => (a.1, a.2.value))
    (fun a => AllPlaced a.2.arguments) _ (by simp) ⟨[], rfl, rfl⟩ hts ?_ ?_
  · rintro a ha frame done isFirst us ⟨arguments, rfl, harguments⟩ hus hnext
    apply yields_name
    refine hparts a ha P _ _ us rfl hus (fun hgood span => ⟨_, rfl, hnext hgood _ ⟨_, rfl, ?_⟩⟩)
      (fun h => hbad fun hall => h (hall.2 a ha))
    rw [List.map_append, List.map_append, harguments]
    rfl
  · rintro hgood frame' ⟨arguments, rfl, harguments⟩
    refine ⟨rfl, ?_⟩
    rcases composite_outcome typeName harguments with ⟨hnode, hvalue⟩ | ⟨hnode, span, hint, hvalue⟩
    · exact .inl ⟨_, hvalue, hok ⟨hnode, hgood⟩⟩
    · exact .inr ⟨_, hvalue, hbad (fun hall => hnode hall.1) span hint⟩

theorem isTaken_of_derived {p : Phrase} (h : p.Derived) : p.IsTaken := by
  induction h with
  | leaf ht => exact isTaken_leaf ht
  | sequence kind hi hts ih => exact isTaken_sequence ih hts
  | node typeName hp hts ih => exact isTaken_node ih hts

lemma ofLexemes_of_derived {ls : List Lexeme} {v : Node} {arguments : List (String × Node)}
    (h : Phrase.Derived ⟨ls.map (·.token), v, arguments⟩) :
    (AllPlaced arguments → ofLexemes ls = .ok v) ∧
      (¬AllPlaced arguments → ∃ span hint, ofLexemes ls = .error (.badPosition span hint)) := by
  have htaken (P : Except Problem Node → Prop) (hok : AllPlaced arguments → P (.ok v))
      (hbad : ¬AllPlaced arguments → OfBadPosition P) : P (ofLexemes ls) := by
    refine isTaken_of_derived h P (.value []) [] [] rfl nofun (fun hplaced span => ?_) hbad 0 ls
      (List.append_nil _).symm
    refine ⟨.whole v, rfl, fun stop us hus => ?_⟩
    rw [List.map_eq_nil_iff.mp hus]
    exact hok hplaced
  constructor
  · intro hplaced
    exact htaken (· = .ok v) (fun _ => rfl) (fun h => absurd hplaced h)
  · intro hplaced
    exact htaken (∃ span hint, · = .error (.badPosition span hint)) (fun h => absurd h hplaced)
      (fun _ span hint => ⟨span, hint, rfl⟩)

end SyntaxLens.Dump
