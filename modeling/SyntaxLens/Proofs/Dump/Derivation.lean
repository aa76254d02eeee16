import Mathlib.Data.List.Induction
import Mathlib.Tactic.Common
import SyntaxLens.Proofs.Dump.Grammar
import SyntaxLens.Proofs.Dump.Moves

/-!
# What the reader accepts

Tokens that are read as a tree are derived in the grammar, and the tree is the one that the
derivation denotes. The grammar is the one with lone commas, and only a comma after an opening mark
makes the difference.

The tokens that lead to a state are explained by its frames: each open frame stands for its opening
mark and its finished entries, and for the name of the argument whose value is being read.
-/

namespace SyntaxLens.Dump

lemma word?_of_positionValue {part : PositionPart} {a : Argument} {w : UInt32}
    (h : positionValue part a = .ok w) : a.value.word? = some w := by
  rw [positionValue] at h
  split at h
  case h_2 => cases h
  case h_1 n hn =>
    have hleast : 0 ≤ part.least := by cases part <;> decide
    by_cases hless : n.toInt < part.least
    · rw [if_pos hless] at h
      cases h
    · rw [if_neg hless] at h
      by_cases hsize : n.toInt < UInt32.size
      · rw [if_pos hsize] at h
        cases h
        rw [hn, Node.word?, if_pos ⟨by omega, hsize⟩]
      · rw [if_neg hsize] at h
        cases h

lemma lastArgument?_concat (name : String) (arguments : List (String × Node))
    (a : String × Node) : lastArgument? name (arguments ++ [a]) =
      if a.1 = name then some a.2 else lastArgument? name arguments := by
  unfold lastArgument?
  rw [List.reverse_append, List.reverse_singleton, List.singleton_append, List.find?_cons]
  by_cases h : a.1 = name <;> simp [h]

/-- What is collected from the arguments of a node is its fields and the last line and column. -/
lemma collected_eq {arguments : List Argument} {c : Collected}
    (h : arguments.foldlM Collected.add ⟨none, none, []⟩ = .ok c) :
    let named := arguments.map fun a => (a.name, a.value)
    c.line = (lastArgument? "lineno" named).bind Node.word? ∧
      c.column = (lastArgument? "col_offset" named).bind Node.word? ∧
      c.fields = named.filter (·.1 ∉ positionNames) := by
  induction arguments using List.reverseRecOn generalizing c with
  | nil =>
    cases h
    exact ⟨rfl, rfl, rfl⟩
  | append_singleton arguments a ih =>
    rw [List.foldlM_append] at h
    cases hfold : arguments.foldlM Collected.add ⟨none, none, []⟩ with
    | error p => rw [hfold] at h; cases h
    | ok d =>
      rw [hfold] at h
      have hadd : d.add a = .ok c := by
        cases hd : d.add a with
        | error p => simp only [bind, Except.bind, List.foldlM_cons, hd] at h; cases h
        | ok e =>
          simp only [bind, Except.bind, List.foldlM_cons, List.foldlM_nil, hd] at h
          exact h
      obtain ⟨hline, hcolumn, hfields⟩ := ih hfold
      simp only [List.map_append, List.map_cons, List.map_nil, lastArgument?_concat,
        List.filter_append]
      rcases add_cases hadd with ⟨hn, l, hl, rfl⟩ | ⟨hn, m, hm, rfl⟩ | ⟨hn, rfl⟩ | ⟨hn, rfl⟩
      · simp [hn, hcolumn, hfields, word?_of_positionValue hl, positionNames]
      · simp [hn, hline, hfields, word?_of_positionValue hm, positionNames]
      · rcases hn with hn | hn <;> simp [hn, hline, hcolumn, hfields, positionNames]
      · have hne : a.name ≠ "lineno" ∧ a.name ≠ "col_offset" := by
          constructor <;> rintro heq <;> simp [heq] at hn
        simp [hne.1, hne.2, hline, hcolumn, hfields, show a.name ∉ positionNames from hn]

lemma composite_eq_ofArguments {typeName : String} {arguments : List Argument} {v : Node}
    (h : composite typeName arguments = .ok v) :
    v = .ofArguments typeName (arguments.map fun a => (a.name, a.value)) := by
  rw [composite] at h
  cases hc : arguments.foldlM Collected.add ⟨none, none, []⟩ with
  | error p => rw [hc] at h; cases h
  | ok c =>
    rw [hc] at h
    cases h
    obtain ⟨hline, hcolumn, hfields⟩ := collected_eq hc
    have hplace : c.position? = placeOf (arguments.map fun a => (a.name, a.value)) := by
      unfold Collected.position? placeOf
      rw [hline, hcolumn]
    rw [Node.ofArguments, ← hplace, ← hfields]

def Frame.opening : Frame → List Token
  | node typeName _ _ _ => [.name typeName, .mark .openParen]
  | sequence kind _ _ => [.mark (openingOf kind)]

/-- The tokens of the argument whose value is being read. -/
def Frame.pending : Frame → List Token
  | node _ _ _ (some name) => [.name name, .mark .equals]
  | node _ _ _ none | sequence _ _ _ => []

/-- The groups are the tokens of the entries that a frame has. -/
inductive Frame.Holds : Frame → List (List Token) → Prop
  | node {typeName : String} {start : Nat} {arguments : List Argument} {field : Option String}
      (parts : List (String × List Token × Node)) (hp : ∀ a ∈ parts, Denotes true a.2.1 a.2.2)
      (hargs : (arguments.map fun a => (a.name, a.value)) = parts.map fun a => (a.1, a.2.2)) :
      Holds (.node typeName start arguments field) (parts.map fun a => argumentTokens a.1 a.2.1)
  | sequence {kind : SequenceKind} {start : Nat} (parts : List (List Token × Node))
      (hp : ∀ i ∈ parts, Denotes true i.1 i.2) :
      Holds (.sequence kind start (parts.map (·.2))) (parts.map (·.1))

/-- The tokens that lead to where a value of the innermost of the open frames may start. -/
inductive Awaiting : List Frame → List Token → Prop
  | nil : Awaiting [] []
  | cons {frame : Frame} {below : List Frame} {pre : List Token} {groups : List (List Token)}
      (hbelow : Awaiting below pre) (hf : frame.Holds groups) :
      Awaiting (frame :: below)
        (pre ++ (frame.opening ++ (commaTerminated groups ++ frame.pending)))

/-- The tokens lead into a frame with the given entries, and `body` are those after its opening. -/
structure Inside (frame : Frame) (below : List Frame) (groups : List (List Token))
    (body ts : List Token) : Prop where
  holds : frame.Holds groups
  pending : frame.pending = []
  tokens : ∃ pre, Awaiting below pre ∧ ts = pre ++ (frame.opening ++ body)

def Settled.Explains : Settled → List Token → Prop
  | whole v, ts => Denotes true ts v
  | inside frame below, ts =>
    ∃ groups, groups ≠ [] ∧ Inside frame below groups (commaTokens groups) ts

/-- The tokens that have been read lead to the state. -/
def State.Explains : State → List Token → Prop
  | value frames, ts => Awaiting frames ts
  | item frame below isFirst, ts =>
    ∃ groups, (isFirst = true → groups = []) ∧
      Inside frame below groups (commaTerminated groups) ts
  | closing frame below, ts => Inside frame below [] [.mark .comma] ts
  | settled r, ts => r.Explains ts
  | name frames text _, ts => ∃ pre, Awaiting frames pre ∧ ts = pre ++ [.name text]

variable {t : Lexeme} {s s' : State} {r : Settled} {frame : Frame} {frames below : List Frame}
  {groups : List (List Token)} {body pre ts : List Token} {v : Node} {span : ByteSpan}

lemma Inside.append (h : Inside frame below groups body ts) (us : List Token) :
    Inside frame below groups (body ++ us) (ts ++ us) := by
  obtain ⟨pre, hpre, rfl⟩ := h.tokens
  refine ⟨h.holds, h.pending, pre, hpre, ?_⟩
  simp only [List.append_assoc]

lemma Inside.awaiting (h : Inside frame below groups (commaTerminated groups) ts) :
    Awaiting (frame :: below) ts := by
  obtain ⟨pre, hpre, rfl⟩ := h.tokens
  have hcons := Awaiting.cons hpre h.holds
  rwa [h.pending, List.append_nil] at hcons

lemma inside_of_push {frame' : Frame} (hpre : Awaiting (frame :: below) pre)
    (hv : Denotes true ts v) (h : frame.push v span = .ok frame') :
    (Settled.inside frame' below).Explains (pre ++ ts) := by
  cases hpre with | @cons _ _ pre groups hbelow hf =>
  cases hf with
  | @node typeName start arguments field parts hp hargs =>
    cases field with
    | none => cases h
    | some name =>
      cases h
      refine ⟨(parts ++ [(name, ts, v)]).map fun a => argumentTokens a.1 a.2.1, by simp,
        .node _ (fun a ha => ?_) ?_, rfl, pre, hbelow, ?_⟩
      · rcases List.mem_append.mp ha with ha | ha
        · exact hp a ha
        · rw [List.mem_singleton.mp ha]
          exact hv
      · rw [List.map_append, hargs, List.map_append]
        rfl
      · rw [List.map_append, List.map_singleton, commaTokens_concat]
        simp only [Frame.opening, Frame.pending, argumentTokens, List.append_assoc,
          List.cons_append, List.nil_append]
  | @sequence kind start parts hp =>
    cases h
    have hholds : (Frame.sequence kind start (parts.map (·.2) ++ [v])).Holds
        ((parts ++ [(ts, v)]).map (·.1)) := by
      have heq : parts.map (·.2) ++ [v] = (parts ++ [(ts, v)]).map (·.2) := by simp
      rw [heq]
      refine .sequence _ fun i hi => ?_
      rcases List.mem_append.mp hi with hi | hi
      · exact hp i hi
      · rw [List.mem_singleton.mp hi]
        exact hv
    refine ⟨_, by simp, hholds, rfl, pre, hbelow, ?_⟩
    rw [List.map_append, List.map_singleton, commaTokens_concat]
    simp only [Frame.opening, Frame.pending, List.append_assoc, List.append_nil]

lemma settle_explains (hpre : Awaiting frames pre) (hv : Denotes true ts v)
    (h : settle v span frames = .ok r) : r.Explains (pre ++ ts) := by
  rcases settle_cases h with ⟨rfl, rfl⟩ | ⟨frame, below, frame', rfl, hpush, rfl⟩
  · cases hpre
    exact hv
  · exact inside_of_push hpre hv hpush

lemma denotes_of_value (hf : frame.Holds groups) (hbody : Separated true groups body)
    (h : frame.value = .ok v) :
    Denotes true (frame.opening ++ (body ++ [.mark frame.closing])) v := by
  cases hf with
  | @node typeName start arguments field parts hp hargs =>
    rw [composite_eq_ofArguments h, hargs]
    exact .node typeName hp hbody
  | @sequence kind start parts hp =>
    cases h
    cases kind with
    | list => exact .sequence .list hp hbody
    | tuple => exact .sequence .tuple hp hbody

lemma Inside.close {stop : Nat} (h : Inside frame below groups body ts)
    (hbody : Separated true groups body) (hr : close frame below stop = .ok r) :
    r.Explains (ts ++ [.mark frame.closing]) := by
  obtain ⟨v, hv, hsettle⟩ := close_cases hr
  obtain ⟨pre, hpre, rfl⟩ := h.tokens
  have hexplains := settle_explains hpre (denotes_of_value h.holds hbody hv) hsettle
  simpa only [List.append_assoc] using hexplains

lemma leaf?_of_scalar? {t : Token} {value : Scalar} (h : t.scalar? = some value) :
    t.leaf? = some value := by
  cases t with
  | name text => cases h
  | _ => exact h

lemma Starts.explains (h : Starts t frames s) (hpre : Awaiting frames pre) :
    s.Explains (pre ++ [t.token]) := by
  cases h with
  | name ht => exact ⟨pre, hpre, by rw [ht]⟩
  | list ht =>
    rw [ht]
    exact ⟨[], fun _ => rfl, .sequence [] nofun, rfl, pre, hpre, rfl⟩
  | tuple ht =>
    rw [ht]
    exact ⟨[], fun _ => rfl, .sequence [] nofun, rfl, pre, hpre, rfl⟩
  | leaf hv hr => exact settle_explains hpre (.leaf (leaf?_of_scalar? hv)) hr

lemma Follows.explains (h : Follows t r s) (hr : r.Explains ts) : s.Explains (ts ++ [t.token]) := by
  cases h with
  | comma ht =>
    obtain ⟨groups, hne, hinside⟩ := hr
    refine ⟨groups, nofun, ?_⟩
    rw [ht, commaTerminated_eq hne]
    exact hinside.append [.mark .comma]
  | close ht hclose =>
    obtain ⟨groups, hne, hinside⟩ := hr
    rw [ht]
    exact hinside.close (.inl rfl) hclose

theorem Move.explains (h : Move t s s') (hs : s.Explains ts) : s'.Explains (ts ++ [t.token]) := by
  cases h with
  | value h => exact h.explains hs
  | item h =>
    obtain ⟨groups, -, hinside⟩ := hs
    exact h.explains hinside.awaiting
  | close ht hclose =>
    obtain ⟨groups, -, hinside⟩ := hs
    rw [ht]
    exact hinside.close (separated_commaTerminated true groups) hclose
  | loneComma ht =>
    obtain ⟨groups, hfirst, hinside⟩ := hs
    rw [hfirst rfl] at hinside
    rw [ht]
    exact hinside.append [.mark .comma]
  | closeAfterComma ht hclose =>
    rw [ht]
    exact Inside.close hs (.inr ⟨.inr rfl, rfl⟩) hclose
  | settled h => exact h.explains hs
  | node ht =>
    obtain ⟨pre, hpre, rfl⟩ := hs
    refine ⟨[], fun _ => rfl, .node [] nofun rfl, rfl, pre, hpre, ?_⟩
    rw [ht, List.append_assoc]
    rfl
  | @field typeName start arguments below text span ht =>
    obtain ⟨pre, hpre, rfl⟩ := hs
    cases hpre with | @cons _ _ pre groups hbelow hf =>
    cases hf with
    | node parts hp hargs =>
      have hholds : (Frame.node typeName start arguments (some text)).Holds _ :=
        .node parts hp hargs
      change Awaiting _ _
      simpa [ht, Frame.opening, Frame.pending] using Awaiting.cons hbelow hholds
  | constant hv hr h =>
    obtain ⟨pre, hpre, rfl⟩ := hs
    exact h.explains (settle_explains hpre (.leaf hv) hr)

/-- Tokens that are read to the end complete the derivation. -/
theorem denotes_of_run {stop : Nat} {ls : List Lexeme} (hs : s.Explains ts)
    (h : run s stop ls = .ok v) : Denotes true (ts ++ ls.map (·.token)) v := by
  induction ls generalizing s stop ts with
  | nil =>
    rw [List.map_nil, List.append_nil]
    rcases finish_cases h with rfl | ⟨text, span, leaf, rfl, hleaf, rfl⟩
    · exact hs
    · obtain ⟨pre, hpre, rfl⟩ := hs
      cases hpre
      exact .leaf hleaf
  | cons t ls ih =>
    obtain ⟨s', hstep, hrun⟩ := run_cons_ok h
    have hread := ih ((move_of_step hstep).explains hs) hrun
    rwa [List.append_assoc] at hread

/-- Tokens that are read as a tree are derived in the grammar with lone commas as that tree, and in
the grammar proper exactly if no comma follows an opening mark. -/
theorem denotes_of_ofLexemes {ls : List Lexeme} {v : Node} (h : ofLexemes ls = .ok v) :
    Denotes true (ls.map (·.token)) v ∧
      (Denotes false (ls.map (·.token)) v ↔ NoLoneComma (ls.map (·.token))) := by
  have hderived : Denotes true ([] ++ ls.map (·.token)) v :=
    denotes_of_run (s := .value []) .nil h
  exact ⟨hderived, fun hproper => hproper.isGroup.noLoneComma, hderived.strict⟩

/-- The tokens of `A(x=[(True,),],lineno=2)`. -/
theorem denotes_of_ofLexemes_trailing_commas :
    let ts : List Token := [.name "A", .mark .openParen, .name "x", .mark .equals,
      .mark .openBracket, .mark .openParen, .name "True", .mark .comma, .mark .closeParen,
      .mark .comma, .mark .closeBracket, .mark .comma, .name "lineno", .mark .equals,
      .number .int "2", .mark .closeParen]
    let v : Node := .composite "A"
      [("x", .sequence .list [.sequence .tuple [.scalar (.bool true)]])] (some ⟨2, 0⟩)
    ofLexemes (ts.map fun t => ⟨t, .point 0⟩) = .ok v ∧ Denotes false ts v := by
  intro ts v
  have hread : ofLexemes (ts.map fun t => ⟨t, .point 0⟩) = .ok v := by
    rfl
  exact ⟨hread, (denotes_of_ofLexemes hread).2.mpr (by decide)⟩

/-- The tokens of `[,]` are read as the empty list, but no tree is derived from them. -/
theorem not_denotes_lone_comma :
    let ts : List Token := [.mark .openBracket, .mark .comma, .mark .closeBracket]
    ofLexemes (ts.map fun t => ⟨t, .point 0⟩) = .ok (.sequence .list []) ∧
      ∀ v, ¬Denotes false ts v := by
  refine ⟨rfl, fun v hv => ?_⟩
  exact absurd hv.isGroup.noLoneComma (by decide)

end SyntaxLens.Dump
