import Mathlib.Data.List.Chain
import Mathlib.Tactic.Common
import SyntaxLens.Proofs.Dump.Printing
import SyntaxLens.Proofs.Dump.Spelling

/-!
# The grammar of dumps

`Denotes lone ts v` says that the tokens are derived as one value, and that the derivation denotes
the tree. Items and arguments have commas between them, and a comma may follow the last one. The
grammar proper has no comma where there is no item; with `lone` a comma may stand there by itself.
-/

namespace SyntaxLens

/-- The number that a value is as a line or a column. -/
def Node.word? : Node → Option UInt32
  | .scalar (.int n) =>
    if 0 ≤ n.toInt ∧ n.toInt < UInt32.size then some (UInt32.ofNat n.toInt.toNat) else none
  | _ => none

/-- The value of the last argument of a name. -/
def lastArgument? (name : String) (arguments : List (String × Node)) : Option Node :=
  (arguments.reverse.find? (·.1 = name)).map (·.2)

/-- The place that the arguments of a node give: the last line and the last column, which is zero
if there is none. -/
def placeOf (arguments : List (String × Node)) : Option LineCol :=
  ((lastArgument? "lineno" arguments).bind Node.word?).map fun line =>
    ⟨line, ((lastArgument? "col_offset" arguments).bind Node.word?).getD 0⟩

/-- The node of a type with the given arguments. Those that are not about its place are its fields,
in their order. -/
def Node.ofArguments (typeName : String) (arguments : List (String × Node)) : Node :=
  .composite typeName (arguments.filter (·.1 ∉ positionNames)) (placeOf arguments)

namespace Dump

def openingOf : SequenceKind → Mark
  | .list => .openBracket
  | .tuple => .openParen

def closingOf : SequenceKind → Mark
  | .list => .closeBracket
  | .tuple => .closeParen

/-- The tokens are the groups with commas between them, and possibly one after them. -/
def Separated (lone : Bool) (groups : List (List Token)) (ts : List Token) : Prop :=
  ts = commaTokens groups ∨
    (groups ≠ [] ∨ lone = true) ∧ ts = commaTokens groups ++ [.mark .comma]

/-- The tokens are derived as a value, and the derivation denotes the tree. -/
inductive Denotes (lone : Bool) : List Token → Node → Prop
  | leaf {t : Token} {value : Scalar} (ht : t.leaf? = some value) : Denotes lone [t] (.scalar value)
  | sequence (kind : SequenceKind) {items : List (List Token × Node)} {ts : List Token}
      (hi : ∀ i ∈ items, Denotes lone i.1 i.2) (hts : Separated lone (items.map (·.1)) ts) :
      Denotes lone (.mark (openingOf kind) :: (ts ++ [.mark (closingOf kind)]))
        (.sequence kind (items.map (·.2)))
  | node (typeName : String) {arguments : List (String × List Token × Node)} {ts : List Token}
      (ha : ∀ a ∈ arguments, Denotes lone a.2.1 a.2.2)
      (hts : Separated lone (arguments.map fun a => argumentTokens a.1 a.2.1) ts) :
      Denotes lone (.name typeName :: .mark .openParen :: (ts ++ [.mark .closeParen]))
        (.ofArguments typeName (arguments.map fun a => (a.1, a.2.2)))

def openings : List Token :=
  [.mark .openParen, .mark .openBracket]

/-- No comma follows an opening mark. -/
def NoLoneComma (ts : List Token) : Prop :=
  ts.IsChain fun t u => t ∈ openings → u ≠ .mark .comma

instance (ts : List Token) : Decidable (NoLoneComma ts) :=
  inferInstanceAs (Decidable (ts.IsChain _))

/-- The groups, each with a comma after it. -/
def commaTerminated (groups : List (List Token)) : List Token :=
  groups.flatMap (· ++ [.mark .comma])

lemma commaTokens_concat (groups : List (List Token)) (g : List Token) :
    commaTokens (groups ++ [g]) = commaTerminated groups ++ g := by
  induction groups with
  | nil => simp [commaTokens, commaTerminated]
  | cons h groups ih =>
    obtain ⟨k, ks, hk⟩ := List.exists_cons_of_ne_nil (show groups ++ [g] ≠ [] by simp)
    rw [commaTokens, List.cons_append, hk, List.intercalate_cons_cons, ← hk, ← commaTokens, ih]
    simp [commaTerminated]

lemma commaTerminated_eq {groups : List (List Token)} (h : groups ≠ []) :
    commaTerminated groups = commaTokens groups ++ [.mark .comma] := by
  obtain ⟨init, last, rfl⟩ := (List.eq_nil_or_concat' groups).resolve_left h
  rw [commaTokens_concat]
  simp [commaTerminated]

lemma separated_commaTerminated (lone : Bool) (groups : List (List Token)) :
    Separated lone groups (commaTerminated groups) := by
  by_cases h : groups = []
  · subst h
    exact .inl rfl
  · exact .inr ⟨.inl h, commaTerminated_eq h⟩

lemma isInfix_commaTokens {groups : List (List Token)} {g : List Token} (hg : g ∈ groups) :
    g <:+: commaTokens groups := by
  induction groups with
  | nil => exact absurd hg List.not_mem_nil
  | cons h groups ih =>
    cases groups with
    | nil =>
      obtain rfl := List.mem_singleton.mp hg
      simp [commaTokens]
    | cons k groups =>
      rw [commaTokens, List.intercalate_cons_cons, List.append_assoc]
      rcases List.mem_cons.mp hg with rfl | hg
      · exact (List.prefix_append _ _).isInfix
      · have hrest : commaTokens (k :: groups) <:+
            h ++ ([.mark .comma] ++ commaTokens (k :: groups)) :=
          (List.suffix_append _ _).trans (List.suffix_append _ _)
        exact (ih hg).trans hrest.isInfix

lemma Separated.isInfix_of_mem {lone : Bool} {groups : List (List Token)} {ts g : List Token}
    (h : Separated lone groups ts) (hg : g ∈ groups) : g <:+: ts := by
  rcases h with rfl | ⟨-, rfl⟩
  · exact isInfix_commaTokens hg
  · exact (isInfix_commaTokens hg).trans (List.prefix_append _ _).isInfix

lemma Separated.prefix_commaTerminated {groups : List (List Token)} {ts : List Token}
    (h : Separated false groups ts) : ts <+: commaTerminated groups := by
  rcases h with rfl | ⟨hne, rfl⟩
  · by_cases hne : groups = []
    · subst hne
      exact List.prefix_rfl
    · rw [commaTerminated_eq hne]
      exact List.prefix_append _ _
  · exact (commaTerminated_eq (hne.resolve_right Bool.false_ne_true)).symm ▸ List.prefix_rfl

/-- Between brackets, only a comma that follows the opening mark departs from the grammar. -/
lemma Separated.strict {groups : List (List Token)} {ts after : List Token} {t : Token}
    (h : Separated true groups ts) (ht : t ∈ openings) (hlone : NoLoneComma (t :: (ts ++ after))) :
    Separated false groups ts := by
  rcases h with h | ⟨-, h⟩
  · exact .inl h
  · refine .inr ⟨.inl ?_, h⟩
    rintro rfl
    exact (List.isChain_cons.mp hlone).1 (.mark .comma) (by rw [h]; rfl) ht rfl

/-- Without lone commas a derivation is one of the grammar proper. -/
theorem Denotes.strict {ts : List Token} {v : Node} (h : Denotes true ts v)
    (hlone : NoLoneComma ts) : Denotes false ts v := by
  induction h with
  | leaf ht => exact .leaf ht
  | @sequence kind items ts hi hts ih =>
    have hmark : .mark (openingOf kind) ∈ openings := by
      cases kind <;> decide
    refine .sequence kind (fun i hmem => ih i hmem ?_) (hts.strict hmark hlone)
    have hgroup := hts.isInfix_of_mem (List.mem_map_of_mem hmem)
    exact List.IsChain.infix hlone (hgroup.trans (List.infix_append' [.mark (openingOf kind)] ts _))
  | @node typeName arguments ts ha hts ih =>
    have htail : NoLoneComma (.mark .openParen :: (ts ++ [.mark .closeParen])) :=
      List.IsChain.suffix hlone (List.suffix_cons _ _)
    refine .node typeName (fun a hmem => ih a hmem ?_) (hts.strict (by decide) htail)
    have hgroup := hts.isInfix_of_mem (List.mem_map_of_mem hmem)
    have hvalue : a.2.1 <:+: argumentTokens a.1 a.2.1 :=
      (List.suffix_append [Token.name a.1, .mark .equals] a.2.1).isInfix
    exact List.IsChain.infix htail
      ((hvalue.trans hgroup).trans (List.infix_append' [.mark .openParen] ts _))

/-- Tokens that may stand between commas. -/
structure IsGroup (ts : List Token) : Prop where
  first : ∃ t us, ts = t :: us ∧ t ≠ .mark .comma
  last : ∀ t ∈ ts.getLast?, t ∉ openings
  noLoneComma : NoLoneComma ts

lemma noLoneComma_commaTerminated {groups : List (List Token)} (h : ∀ g ∈ groups, IsGroup g) :
    NoLoneComma (commaTerminated groups) ∧
      ∀ t ∈ (commaTerminated groups).head?, t ≠ .mark .comma := by
  induction groups with
  | nil => exact ⟨.nil, nofun⟩
  | cons g groups ih =>
    have hg := h g List.mem_cons_self
    obtain ⟨hgroups, -⟩ := ih fun k hk => h k (List.mem_cons_of_mem _ hk)
    have hcons : commaTerminated (g :: groups) = g ++ .mark .comma :: commaTerminated groups := by
      simp [commaTerminated]
    rw [hcons]
    constructor
    · refine List.IsChain.append hg.noLoneComma
        (List.isChain_cons.mpr ⟨fun t _ hcomma => absurd hcomma (by decide), hgroups⟩) ?_
      exact fun t ht u _ hopen => absurd hopen (hg.last t ht)
    · obtain ⟨t, us, rfl, ht⟩ := hg.first
      rintro _ ⟨rfl⟩
      exact ht

lemma noLoneComma_bracketed {groups : List (List Token)} {ts : List Token} {t close : Token}
    (h : Separated false groups ts) (hg : ∀ g ∈ groups, IsGroup g) (hclose : close ≠ .mark .comma) :
    NoLoneComma (t :: (ts ++ [close])) := by
  obtain ⟨hchain, hfirst⟩ := noLoneComma_commaTerminated hg
  have hprefix := h.prefix_commaTerminated
  refine List.isChain_cons.mpr ⟨fun u hu _ => ?_, ?_⟩
  · cases ts with
    | nil =>
      obtain rfl : close = u := by simpa using hu
      exact hclose
    | cons s ts =>
      obtain rfl : s = u := by simpa using hu
      obtain ⟨after, hafter⟩ := hprefix
      exact hfirst s (by rw [← hafter]; rfl)
  · have hbody : NoLoneComma ts := List.IsChain.infix hchain hprefix.isInfix
    refine List.IsChain.append hbody (.singleton _) ?_
    intro s _ u hu _
    obtain rfl : close = u := by simpa using hu
    exact hclose

lemma IsGroup.argument {ts : List Token} (h : IsGroup ts) (name : String) :
    IsGroup (argumentTokens name ts) := by
  obtain ⟨t, us, rfl, ht⟩ := h.first
  refine ⟨⟨_, _, rfl, nofun⟩, by simpa [argumentTokens] using h.last, ?_⟩
  exact .cons_cons (fun hopen => absurd hopen nofun)
    (.cons_cons (fun hopen => absurd hopen (by decide)) h.noLoneComma)

lemma Denotes.isGroup {ts : List Token} {v : Node} (h : Denotes false ts v) : IsGroup ts := by
  induction h with
  | @leaf t value ht =>
    have hmark : ∀ m, t ≠ .mark m := by
      rintro m rfl
      cases ht
    refine ⟨⟨t, [], rfl, hmark _⟩, ?_, .singleton t⟩
    rintro _ ⟨rfl⟩
    simp [openings, hmark]
  | @sequence kind items ts hi hts ih =>
    have hgroups : ∀ g ∈ items.map (·.1), IsGroup g := List.forall_mem_map.mpr ih
    refine ⟨⟨_, _, rfl, by cases kind <;> nofun⟩, ?_,
      noLoneComma_bracketed hts hgroups (by cases kind <;> nofun)⟩
    rw [← List.cons_append, List.getLast?_concat]
    rintro _ ⟨rfl⟩
    cases kind <;> decide
  | @node typeName arguments ts ha hts ih =>
    have hgroups : ∀ g ∈ arguments.map (fun a => argumentTokens a.1 a.2.1), IsGroup g :=
      List.forall_mem_map.mpr fun a hmem => (ih a hmem).argument a.1
    refine ⟨⟨_, _, rfl, nofun⟩, ?_,
      .cons_cons (fun _ => nofun) (noLoneComma_bracketed hts hgroups nofun)⟩
    rw [← List.cons_append, ← List.cons_append, List.getLast?_concat]
    rintro _ ⟨rfl⟩
    decide

end Dump

end SyntaxLens
