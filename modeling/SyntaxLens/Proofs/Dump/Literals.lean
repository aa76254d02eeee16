import Mathlib.Tactic.Common
import SyntaxLens.Dump.Lexer

/-!
# The texts of quoted literals

`IsBody` says what a literal looks like after its opening quote: characters and escapes up to the
closing quote. `body` finds exactly these texts, whatever follows them.
-/

namespace SyntaxLens.Dump

open Literal

/-- The text between an opening quote and the end of the literal, the closing quote included, and
the content that it has. -/
inductive IsBody (kind : QuotedKind) (quote : Char) : List Char → List Char → Prop
  | close : IsBody kind quote [quote] []
  | escape {escaped w content : List Char} {c : Char} (hq : '\\' ≠ quote)
    (he : escape? kind escaped = some (c, escaped.length)) (hw : IsBody kind quote w content) :
    IsBody kind quote ('\\' :: (escaped ++ w)) (c :: content)
  | char {w content : List Char} {c : Char} (hq : c ≠ quote) (hn : c ≠ '\n') (hb : c ≠ '\\')
    (hw : IsBody kind quote w content) : IsBody kind quote (c :: w) (c :: content)

lemma hexChar?_take {n : Nat} {cs : List Char} {d : Char} (h : hexChar? n cs = some d) :
    n ≤ cs.length ∧ ∀ rest, hexChar? n (cs.take n ++ rest) = some d := by
  have hn : n ≤ cs.length := by
    by_contra hlt
    have hshort : (cs.take n).length ≠ n := by
      rw [List.length_take]
      omega
    rw [hexChar?, if_neg hshort] at h
    contradiction
  refine ⟨hn, fun rest => ?_⟩
  have htake : (cs.take n ++ rest).take n = cs.take n :=
    List.take_left' (List.length_take_of_le hn)
  rwa [hexChar?, htake]

lemma escape?_split {kind : QuotedKind} {cs : List Char} {d : Char} {n : Nat}
    (h : escape? kind cs = some (d, n)) : ∃ escaped rest, cs = escaped ++ rest ∧
      n = escaped.length ∧ ∀ after, escape? kind (escaped ++ after) = some (d, n) := by
  cases cs with
  | nil => cases h
  | cons c cs =>
    simp only [escape?] at h
    cases hs : simpleEscape? c with
    | some e =>
      simp only [hs] at h
      cases h
      exact ⟨[c], cs, rfl, rfl, fun after => by simp [escape?, hs]⟩
    | none =>
      simp only [hs, Option.bind_eq_some_iff, Option.map_eq_some_iff, Prod.mk.injEq] at h
      obtain ⟨m, hm, e, he, rfl, rfl⟩ := h
      obtain ⟨hle, htake⟩ := hexChar?_take he
      refine ⟨c :: cs.take m, cs.drop m, ?_, ?_, fun after => ?_⟩
      · rw [List.cons_append, List.take_append_drop]
      · rw [List.length_cons, List.length_take_of_le hle]
      · simp [escape?, hs, hm, htake after]

lemma escape?_append {kind : QuotedKind} {escaped : List Char} {c : Char}
    (h : escape? kind escaped = some (c, escaped.length)) (rest : List Char) :
    escape? kind (escaped ++ rest) = some (c, escaped.length) := by
  obtain ⟨escaped', after, heq, hlength, hescape⟩ := escape?_split h
  obtain rfl : after = [] := by
    have htotal := congrArg List.length heq
    rw [List.length_append, ← hlength] at htotal
    exact List.eq_nil_of_length_eq_zero (by omega)
  rw [List.append_nil] at heq
  subst heq
  exact hescape rest

lemma Literal.Body.push_eq_closed {c : Char} {k n : Nat} {b : Body} {content : List Char}
    (h : b.push c k = .closed content n) :
    ∃ content' n', b = .closed content' n' ∧ content = c :: content' ∧ n = k + n' := by
  cases b with
  | closed content' n' =>
    simp only [Body.push, Body.closed.injEq] at h
    exact ⟨content', n', rfl, h.1.symm, h.2.symm⟩
  | unterminated n' => simp [Body.push] at h
  | badEscape n' => simp [Body.push] at h

theorem isBody_of_body {kind : QuotedKind} {quote : Char} {cs : List Char} :
    ∀ {content : List Char} {n : Nat}, body kind quote cs = .closed content n →
      ∃ w rest, cs = w ++ rest ∧ n = w.length ∧ IsBody kind quote w content := by
  induction cs using body.induct kind quote with
  | case1 =>
    intro content n h
    simp [body] at h
  | case2 cs =>
    intro content n h
    rw [body, if_pos rfl] at h
    cases h
    exact ⟨[quote], cs, rfl, rfl, .close⟩
  | case3 cs hq =>
    intro content n h
    rw [body, if_neg hq, if_pos rfl] at h
    cases h
  | case4 cs he hq hn =>
    intro content n h
    rw [body, if_neg hq, if_neg hn, if_pos rfl, he] at h
    cases h
  | case5 cs d k he hq hn ih =>
    intro content n h
    rw [body, if_neg hq, if_neg hn, if_pos rfl, he] at h
    obtain ⟨content', n', hb, rfl, rfl⟩ := Body.push_eq_closed h
    obtain ⟨escaped, after, rfl, rfl, hescape⟩ := escape?_split he
    rw [List.drop_left] at ih hb
    obtain ⟨w, rest, rfl, rfl, hw⟩ := ih hb
    have hself := hescape []
    rw [List.append_nil] at hself
    refine ⟨'\\' :: (escaped ++ w), rest, by simp, ?_, .escape hq hself hw⟩
    rw [List.length_cons, List.length_append]
    omega
  | case6 c cs hq hn hb ih =>
    intro content n h
    rw [body, if_neg hq, if_neg hn, if_neg hb] at h
    obtain ⟨content', n', hb', rfl, rfl⟩ := Body.push_eq_closed h
    obtain ⟨w, rest, rfl, rfl, hw⟩ := ih hb'
    exact ⟨c :: w, rest, rfl, Nat.add_comm _ _, .char hq hn hb hw⟩

theorem body_of_isBody {kind : QuotedKind} {quote : Char} {w content : List Char}
    (h : IsBody kind quote w content) (rest : List Char) :
    body kind quote (w ++ rest) = .closed content w.length := by
  induction h with
  | close => rw [List.singleton_append, body, if_pos rfl, List.length_singleton]
  | @escape escaped w content c hq he hw ih =>
    rw [List.cons_append, List.append_assoc, body, if_neg hq, if_neg (by decide), if_pos rfl,
      escape?_append he (w ++ rest)]
    simp only [List.drop_left, ih, Body.push, List.length_cons, List.length_append]
    rw [show escaped.length + 1 + w.length = escaped.length + w.length + 1 by omega]
  | @char w content c hq hn hb hw ih =>
    rw [List.cons_append, body, if_neg hq, if_neg hn, if_neg hb, ih, Body.push, List.length_cons,
      Nat.add_comm]

lemma isBody_of_literalPiece {kind : QuotedKind} {start n : Nat} {quote : Char} {cs : List Char}
    {t : Token} (h : literalPiece kind start quote cs = (.token t, n)) :
    ∃ w rest content, cs = w ++ rest ∧ n = start + w.length ∧ IsBody kind quote w content ∧
      t = kind.token content := by
  unfold literalPiece at h
  cases hb : body kind quote cs with
  | closed content k =>
    rw [hb] at h
    cases h
    obtain ⟨w, rest, rfl, rfl, hw⟩ := isBody_of_body hb
    exact ⟨w, rest, content, rfl, rfl, hw, rfl⟩
  | unterminated k => simp [hb] at h
  | badEscape k => simp [hb] at h

lemma literalPiece_of_isBody {kind : QuotedKind} {quote : Char} {w content : List Char}
    (h : IsBody kind quote w content) (start : Nat) (rest : List Char) :
    literalPiece kind start quote (w ++ rest) = (.token (kind.token content), start + w.length) := by
  rw [literalPiece, body_of_isBody h rest]

end SyntaxLens.Dump
