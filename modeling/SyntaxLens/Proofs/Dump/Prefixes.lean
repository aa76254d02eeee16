import SyntaxLens.Proofs.Dump.Closing

/-!
# Tokens that are cut off

Tokens that are cut off between two of them are reported as incomplete, at the end of what is left.
The one thing to be excluded is that a node or an argument has the name of a constant, since the cut
may then turn its name into a value.
-/

namespace SyntaxLens.Dump

/-- No node and no argument has the name of a constant. -/
def NoConstantNames (ts : List Token) : Prop :=
  ts.IsChain fun t u => u = .mark .openParen ∨ u = .mark .equals →
    ∀ text, t = .name text → constant? text = none

/-- Where the last of the tokens ends. -/
def stopOf (ls : List Lexeme) : Nat :=
  (ls.getLast?.map (·.span.stop)).getD 0

section Prefixes

variable {s s' : State} {r : Settled} {t : Lexeme} {xs ys : List Lexeme} {v : Node}

lemma finish_of_follows (h : Follows t r s) (stop : Nat) :
    ∃ expected, r.finish stop = .error (.incomplete stop expected) := by
  cases h with
  | comma ht => exact ⟨_, rfl⟩
  | close ht hr => exact ⟨_, rfl⟩

/-- A token can only follow where the reading is not over. -/
lemma finish_of_move (h : Move t s s') (stop : Nat)
    (hname : ∀ frames text span, s = .name frames text span →
      t.token = .mark .openParen ∨ t.token = .mark .equals → constant? text = none) :
    ∃ expected, finish stop s = .error (.incomplete stop expected) := by
  cases h with
  | value hs => exact ⟨_, rfl⟩
  | item hs => exact ⟨_, rfl⟩
  | close ht hr => exact ⟨_, rfl⟩
  | loneComma ht => exact ⟨_, rfl⟩
  | closeAfterComma ht hr => exact ⟨_, rfl⟩
  | settled hs => exact finish_of_follows hs stop
  | node ht =>
    rw [finish, hname _ _ _ rfl (.inl ht)]
    exact ⟨_, rfl⟩
  | field ht =>
    rw [finish, hname _ _ _ rfl (.inr ht)]
    exact ⟨_, rfl⟩
  | constant hv hr hs =>
    simp only [finish, hv, hr, Except.bind]
    exact finish_of_follows hs stop

/-- Tokens in front of others that are read with them are incomplete by themselves. -/
theorem ofLexemes_of_prefix (h : ofLexemes (xs ++ ys) = .ok v) (hys : ys ≠ [])
    (hnames : NoConstantNames ((xs ++ ys).map (·.token))) :
    ∃ p, ofLexemes xs = .error p ∧ p.diagnostic.kind = some .incompleteInput ∧
      p.diagnostic.labels.map (·.span) = [.point (stopOf xs)] := by
  obtain ⟨y, ys, rfl⟩ := List.exists_cons_of_ne_nil hys
  rcases List.eq_nil_or_concat' xs with rfl | ⟨done, x, rfl⟩
  · exact ⟨_, rfl, rfl, rfl⟩
  rw [List.append_assoc, List.singleton_append] at h hnames
  obtain ⟨s, stop, hstate⟩ := exists_state h
  have hrun : run s stop (x :: y :: ys) = .ok v := by
    rw [← hstate]
    exact h
  obtain ⟨s', hx, hrest⟩ := run_cons_ok hrun
  obtain ⟨s'', hy, -⟩ := run_cons_ok hrest
  have hname : ∀ frames text span, s' = .name frames text span →
      y.token = .mark .openParen ∨ y.token = .mark .equals → constant? text = none := by
    rintro frames text span rfl hmark
    rw [List.map_append, List.map_cons, List.map_cons] at hnames
    obtain ⟨-, hchain, -⟩ := List.isChain_append.mp hnames
    apply (List.isChain_cons_cons.mp hchain).1 hmark
    rw [(move_of_step hx).eq_name]
  obtain ⟨expected, hfinish⟩ := finish_of_move (move_of_step hy) x.span.stop hname
  refine ⟨.incomplete (stopOf (done ++ [x])) expected, ?_, rfl, rfl⟩
  rw [ofLexemes, hstate, run, hx, stopOf, List.getLast?_concat]
  exact hfinish

end Prefixes

/-- The tokens of `A(x=(True,),)` without the last three. -/
theorem ofLexemes_of_prefix_trailing_comma :
    let xs : List Lexeme := [⟨.name "A", ⟨0, 1⟩⟩, ⟨.mark .openParen, ⟨1, 2⟩⟩, ⟨.name "x", ⟨2, 3⟩⟩,
      ⟨.mark .equals, ⟨3, 4⟩⟩, ⟨.mark .openParen, ⟨4, 5⟩⟩, ⟨.name "True", ⟨5, 9⟩⟩,
      ⟨.mark .comma, ⟨9, 10⟩⟩]
    let ys : List Lexeme := [⟨.mark .closeParen, ⟨10, 11⟩⟩, ⟨.mark .comma, ⟨11, 12⟩⟩,
      ⟨.mark .closeParen, ⟨12, 13⟩⟩]
    ofLexemes (xs ++ ys) =
        .ok (.composite "A" [("x", .sequence .tuple [.scalar (.bool true)])] none) ∧
      ys ≠ [] ∧ NoConstantNames ((xs ++ ys).map (·.token)) ∧
      ∃ p, ofLexemes xs = .error p ∧ p.diagnostic.kind = some .incompleteInput ∧
        p.diagnostic.labels.map (·.span) = [.point 10] := by
  intro xs ys
  have hread : ofLexemes (xs ++ ys) =
      .ok (.composite "A" [("x", .sequence .tuple [.scalar (.bool true)])] none) := by
    rfl
  have hnames : NoConstantNames ((xs ++ ys).map (·.token)) := by
    simp [NoConstantNames, xs, ys, constant?]
  have hys : ys ≠ [] := List.cons_ne_nil _ _
  exact ⟨hread, hys, hnames, ofLexemes_of_prefix hread hys hnames⟩

end SyntaxLens.Dump
