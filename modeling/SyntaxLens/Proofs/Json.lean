import SyntaxLens.Json
import SyntaxLens.Proofs.Text.Numeral

/-!
# JSON documents can be read back

The text of a value tells the value and the text after it, in either layout. Strings are read up to
the first quotation mark that is not escaped, digits up to the first character that is none, and all
other values end by themselves. After an item, a comma tells that the array goes on.
-/

namespace SyntaxLens.Json

/-- The character that stands for itself or for a control character after a backslash. -/
def afterBackslash (c : Char) : Char :=
  if c = 'b' then '\x08'
  else if c = 'f' then '\x0C'
  else if c = 'n' then '\n'
  else if c = 'r' then '\r'
  else if c = 't' then '\t'
  else c

/-- Reads a character of a string. -/
def readCharacter? : List Char → Option (Char × List Char)
  | '\\' :: 'u' :: _ :: _ :: high :: low :: cs =>
    (Text.Numeral.readHex? [high, low]).map fun n => (Char.ofNat n, cs)
  | '\\' :: c :: cs => some (afterBackslash c, cs)
  | c :: cs => some (c, cs)
  | [] => none

lemma readCharacter?_of_ne {c : Char} (h : c ≠ '\\') (cs : List Char) :
    readCharacter? (c :: cs) = some (c, cs) := by
  unfold readCharacter?
  split
  · next heq => exact absurd (List.cons.inj heq).1 h
  · next heq => exact absurd (List.cons.inj heq).1 h
  · next heq =>
    obtain ⟨rfl, rfl⟩ := List.cons.inj heq
    rfl
  · next heq => cases heq

lemma readCharacter?_escape (c : Char) (rest : List Char) :
    readCharacter? (escape c ++ rest) = some (c, rest) := by
  unfold escape
  by_cases hquote : c = '\x22'
  · subst hquote
    rfl
  rw [if_neg hquote]
  by_cases hbackslash : c = '\\'
  · subst hbackslash
    rfl
  rw [if_neg hbackslash]
  by_cases hb : c = '\x08'
  · subst hb
    rfl
  rw [if_neg hb]
  by_cases hf : c = '\x0C'
  · subst hf
    rfl
  rw [if_neg hf]
  by_cases hn : c = '\n'
  · subst hn
    rfl
  rw [if_neg hn]
  by_cases hr : c = '\r'
  · subst hr
    rfl
  rw [if_neg hr]
  by_cases ht : c = '\t'
  · subst ht
    rfl
  rw [if_neg ht]
  by_cases hcontrol : c.toNat < 0x20
  · rw [if_pos hcontrol]
    have hhex := Text.Numeral.readHex?_hexByte (show c.toNat < 256 by omega)
    change (Text.Numeral.readHex? (Text.Numeral.hexByte c.toNat)).map
      (fun n => (Char.ofNat n, rest)) = _
    rw [hhex, Option.map_some, Char.ofNat_toNat]
  · rw [if_neg hcontrol]
    exact readCharacter?_of_ne hbackslash rest

lemma escape_append_inj {c d : Char} {r s : List Char} (h : escape c ++ r = escape d ++ s) :
    c = d ∧ r = s := by
  have hread := congrArg readCharacter? h
  rw [readCharacter?_escape, readCharacter?_escape] at hread
  exact Prod.mk.inj (Option.some.inj hread)

lemma escape_append_ne (c : Char) (r s : List Char) : escape c ++ r ≠ '\x22' :: s := by
  intro h
  have hread := congrArg readCharacter? h
  rw [readCharacter?_escape, readCharacter?_of_ne (by decide)] at hread
  obtain ⟨rfl, rfl⟩ := Prod.mk.inj (Option.some.inj hread)
  exact absurd (List.cons.inj h).1 (by decide)

lemma flatMap_escape_inj {cs ds r s : List Char}
    (h : cs.flatMap escape ++ '\x22' :: r = ds.flatMap escape ++ '\x22' :: s) :
    cs = ds ∧ r = s := by
  induction cs generalizing ds with
  | nil =>
    cases ds with
    | nil => exact ⟨rfl, (List.cons.inj h).2⟩
    | cons d ds =>
      rw [List.flatMap_cons, List.append_assoc] at h
      exact absurd h.symm (escape_append_ne d _ _)
  | cons c cs ih =>
    cases ds with
    | nil =>
      rw [List.flatMap_cons, List.append_assoc] at h
      exact absurd h (escape_append_ne c _ _)
    | cons d ds =>
      rw [List.flatMap_cons, List.flatMap_cons, List.append_assoc, List.append_assoc] at h
      obtain ⟨rfl, hrest⟩ := escape_append_inj h
      obtain ⟨rfl, rfl⟩ := ih hrest
      exact ⟨rfl, rfl⟩

lemma quote_inj {s t : String} {r r' : List Char} (h : quote s r = quote t r') :
    s = t ∧ r = r' := by
  obtain ⟨hchars, hrest⟩ := flatMap_escape_inj (List.cons.inj h).2
  exact ⟨String.toList_inj.mp hchars, hrest⟩

inductive Kind
  | null
  | bool
  | number
  | string
  | array
  | object

def kind : Json → Kind
  | null => .null
  | bool _ => .bool
  | number _ => .number
  | string _ => .string
  | array _ => .array
  | object _ => .object

/-- The kind of the values that start with a character. -/
def Kind.ofChar (c : Char) : Kind :=
  if c = 'n' then null
  else if c = 't' ∨ c = 'f' then bool
  else if c.isDigit then number
  else if c = '\x22' then string
  else if c = '[' then array
  else object

lemma kind_ofChar_of_isDigit {c : Char} (h : c.isDigit = true) : Kind.ofChar c = .number := by
  have hletter : c ≠ 'n' ∧ c ≠ 't' ∧ c ≠ 'f' := by
    refine ⟨?_, ?_, ?_⟩
    all_goals
      rintro rfl
      exact absurd h (by decide)
  simp [Kind.ofChar, h, hletter]

/-- The first character of a value tells its kind and is no closing bracket. -/
lemma exists_first (layout : Layout) (level : Nat) (v : Json) (rest : List Char) :
    ∃ c cs, v.render layout level rest = c :: cs ∧ Kind.ofChar c = v.kind ∧ c ≠ ']' := by
  cases v with
  | null => exact ⟨'n', _, rfl, rfl, by decide⟩
  | bool b =>
    cases b with
    | true => exact ⟨'t', _, rfl, rfl, by decide⟩
    | false => exact ⟨'f', _, rfl, rfl, by decide⟩
  | number n =>
    obtain ⟨c, cs, hcs⟩ := List.exists_cons_of_ne_nil (Nat.toDigits_ne_nil (n := n) (b := 10))
    have hc : c.isDigit = true := by
      apply Text.Numeral.isDigit_of_mem_toDigits c
      rw [hcs]
      exact List.mem_cons_self
    refine ⟨c, cs ++ rest, ?_, kind_ofChar_of_isDigit hc, ?_⟩
    · rw [render, hcs, List.cons_append]
    · rintro rfl
      exact absurd hc (by decide)
  | string s => exact ⟨'\x22', _, rfl, rfl, by decide⟩
  | array items =>
    cases items with
    | nil => exact ⟨'[', _, rfl, rfl, by decide⟩
    | cons item items => exact ⟨'[', _, rfl, rfl, by decide⟩
  | object members =>
    cases members with
    | nil => exact ⟨'\x7b', _, rfl, rfl, by decide⟩
    | cons member members => exact ⟨'\x7b', _, rfl, rfl, by decide⟩

lemma kind_eq_of_render_eq {layout : Layout} {level : Nat} {v v' : Json} {rest rest' : List Char}
    (h : v.render layout level rest = v'.render layout level rest') : v.kind = v'.kind := by
  obtain ⟨c, cs, hcs, hkind, -⟩ := exists_first layout level v rest
  obtain ⟨c', cs', hcs', hkind', -⟩ := exists_first layout level v' rest'
  rw [hcs, hcs'] at h
  rw [← hkind, ← hkind', (List.cons.inj h).1]

/-! ### Rows of items -/

/-- A text that does not go on with digits. -/
def Ends (rest : List Char) : Prop :=
  ∀ c ∈ rest.head?, c.isDigit = false

/-- A text that goes on neither with digits nor with another item. -/
def Closes (rest : List Char) : Prop :=
  Ends rest ∧ ∀ cs, rest ≠ ',' :: cs

lemma ends_cons {c : Char} (h : c.isDigit = false) (cs : List Char) : Ends (c :: cs) := by
  intro d hd
  cases hd
  exact h

lemma closes_newline (layout : Layout) (level : Nat) {close : Char}
    (hdigit : close.isDigit = false) (hcomma : close ≠ ',') (rest : List Char) :
    Closes (layout.newline level ++ close :: rest) := by
  cases layout with
  | compact => exact ⟨ends_cons hdigit rest, fun cs h => hcomma (List.cons.inj h).1⟩
  | pretty => exact ⟨ends_cons (by decide) _, fun cs h => absurd (List.cons.inj h).1 (by decide)⟩

section Rows

variable {α : Type} {layout : Layout} {level : Nat} {close : Char}
  {row : List α → List Char → List Char} {xs xs' : List α} {rest rest' : List Char}

/-- What follows the first of some items: the others after a comma, if there are any. -/
def continued (row : List α → List Char → List Char) : List α → List Char → List Char
  | [], rest => rest
  | x :: xs, rest => ',' :: row (x :: xs) rest

/-- What follows the opening mark of some items. -/
def enclosed (layout : Layout) (level : Nat) (close : Char)
    (row : List α → List Char → List Char) : List α → List Char → List Char
  | [], rest => close :: rest
  | x :: xs, rest => row (x :: xs) (layout.newline level ++ close :: rest)

lemma ends_continued (h : Closes rest) : Ends (continued row xs rest) := by
  cases xs with
  | nil => exact h.1
  | cons x xs => exact ends_cons (by decide) _

lemma continued_inj (hrest : Closes rest) (hrest' : Closes rest')
    (hrow : xs ≠ [] → xs' ≠ [] → row xs rest = row xs' rest' → xs = xs' ∧ rest = rest')
    (h : continued row xs rest = continued row xs' rest') : xs = xs' ∧ rest = rest' := by
  cases xs with
  | nil =>
    cases xs' with
    | nil => exact ⟨rfl, h⟩
    | cons x' xs' => exact absurd h (hrest.2 _)
  | cons x xs =>
    cases xs' with
    | nil => exact absurd h.symm (hrest'.2 _)
    | cons x' xs' =>
      exact hrow (List.cons_ne_nil _ _) (List.cons_ne_nil _ _) (List.cons.inj h).2

lemma enclosed_inj (hfirst : ∀ x xs r s, row (x :: xs) r ≠ close :: s)
    (hrow : xs ≠ [] → xs' ≠ [] → row xs (layout.newline level ++ close :: rest) =
        row xs' (layout.newline level ++ close :: rest') →
      xs = xs' ∧ layout.newline level ++ close :: rest = layout.newline level ++ close :: rest')
    (h : enclosed layout level close row xs rest = enclosed layout level close row xs' rest') :
    xs = xs' ∧ rest = rest' := by
  cases xs with
  | nil =>
    cases xs' with
    | nil => exact ⟨rfl, (List.cons.inj h).2⟩
    | cons x' xs' => exact absurd h.symm (hfirst _ _ _ _)
  | cons x xs =>
    cases xs' with
    | nil => exact absurd h (hfirst _ _ _ _)
    | cons x' xs' =>
      obtain ⟨hxs, htail⟩ := hrow (List.cons_ne_nil _ _) (List.cons_ne_nil _ _) h
      exact ⟨hxs, (List.cons.inj (List.append_cancel_left htail)).2⟩

lemma newline_append_ne (hclose : close ≠ '\n') {cs : List Char} (h : ∀ s, cs ≠ close :: s)
    (s : List Char) : layout.newline level ++ cs ≠ close :: s := by
  cases layout with
  | compact => exact h s
  | pretty => exact fun heq => hclose (List.cons.inj heq).1.symm

end Rows

/-! ### Values -/

lemma render_array (layout : Layout) (level : Nat) (items : List Json) (rest : List Char) :
    render layout level (array items) rest =
      '[' :: enclosed layout level ']' (renderItems layout (level + 1)) items rest := by
  cases items with
  | nil => rfl
  | cons item items =>
    rw [render]
    · rfl
    · exact List.cons_ne_nil _ _

lemma render_object (layout : Layout) (level : Nat) (members : List (String × Json))
    (rest : List Char) :
    render layout level (object members) rest =
      '\x7b' :: enclosed layout level '\x7d' (renderMembers layout (level + 1)) members rest := by
  cases members with
  | nil => rfl
  | cons member members =>
    rw [render]
    · rfl
    · exact List.cons_ne_nil _ _

lemma renderItems_cons (layout : Layout) (level : Nat) (item : Json) (items : List Json)
    (rest : List Char) :
    renderItems layout level (item :: items) rest = layout.newline level ++
      item.render layout level (continued (renderItems layout level) items rest) := by
  cases items with
  | nil => rw [renderItems, continued]
  | cons next items =>
    rw [renderItems]
    · rfl
    · exact List.cons_ne_nil _ _

lemma renderMembers_cons (layout : Layout) (level : Nat) (name : String) (value : Json)
    (members : List (String × Json)) (rest : List Char) :
    renderMembers layout level ((name, value) :: members) rest = layout.newline level ++
      quote name (layout.colon ++
        value.render layout level (continued (renderMembers layout level) members rest)) := by
  cases members with
  | nil => rw [renderMembers, continued]
  | cons next members =>
    rw [renderMembers]
    · rfl
    · exact List.cons_ne_nil _ _

lemma renderItems_ne (layout : Layout) (level : Nat) (item : Json) (items : List Json)
    (r s : List Char) : renderItems layout level (item :: items) r ≠ ']' :: s := by
  rw [renderItems_cons]
  apply newline_append_ne (by decide)
  obtain ⟨c, cs, hcs, -, hc⟩ := exists_first layout level item
    (continued (renderItems layout level) items r)
  rw [hcs]
  exact fun _ h => hc (List.cons.inj h).1

lemma renderMembers_ne (layout : Layout) (level : Nat) (member : String × Json)
    (members : List (String × Json)) (r s : List Char) :
    renderMembers layout level (member :: members) r ≠ '\x7d' :: s := by
  rw [renderMembers_cons]
  apply newline_append_ne (by decide)
  exact fun _ h => absurd (List.cons.inj h).1 (by decide)

mutual

/-- The text of a value tells the value and what follows it. -/
theorem render_inj {layout : Layout} {level : Nat} : ∀ (v v' : Json) {rest rest' : List Char},
    Ends rest → Ends rest' → v.render layout level rest = v'.render layout level rest' →
      v = v' ∧ rest = rest'
  | .null, v', rest, rest', _, _, h => by
    have hkind := kind_eq_of_render_eq h
    cases v' with
    | null => exact ⟨rfl, List.append_cancel_left h⟩
    | _ => cases hkind
  | .bool b, v', rest, rest', _, _, h => by
    have hkind := kind_eq_of_render_eq h
    cases v' with
    | bool b' =>
      cases b with
      | true =>
        cases b' with
        | true => exact ⟨rfl, List.append_cancel_left h⟩
        | false => exact absurd (List.cons.inj h).1 (by decide)
      | false =>
        cases b' with
        | true => exact absurd (List.cons.inj h).1 (by decide)
        | false => exact ⟨rfl, List.append_cancel_left h⟩
    | _ => cases hkind
  | .number n, v', rest, rest', hrest, hrest', h => by
    have hkind := kind_eq_of_render_eq h
    cases v' with
    | number n' =>
      obtain ⟨rfl, htail⟩ := Text.Numeral.toDigits_append_inj hrest hrest' h
      exact ⟨rfl, htail⟩
    | _ => cases hkind
  | .string s, v', rest, rest', _, _, h => by
    have hkind := kind_eq_of_render_eq h
    cases v' with
    | string s' =>
      obtain ⟨rfl, htail⟩ := quote_inj h
      exact ⟨rfl, htail⟩
    | _ => cases hkind
  | .array items, v', rest, rest', _, _, h => by
    have hkind := kind_eq_of_render_eq h
    cases v' with
    | array items' =>
      rw [render_array, render_array] at h
      obtain ⟨rfl, htail⟩ := enclosed_inj (renderItems_ne layout (level + 1))
        (fun hne hne' => renderItems_inj items items' hne hne'
          (closes_newline layout level (by decide) (by decide) rest)
          (closes_newline layout level (by decide) (by decide) rest')) (List.cons.inj h).2
      exact ⟨rfl, htail⟩
    | _ => cases hkind
  | .object members, v', rest, rest', _, _, h => by
    have hkind := kind_eq_of_render_eq h
    cases v' with
    | object members' =>
      rw [render_object, render_object] at h
      obtain ⟨rfl, htail⟩ := enclosed_inj (renderMembers_ne layout (level + 1))
        (fun hne hne' => renderMembers_inj members members' hne hne'
          (closes_newline layout level (by decide) (by decide) rest)
          (closes_newline layout level (by decide) (by decide) rest')) (List.cons.inj h).2
      exact ⟨rfl, htail⟩
    | _ => cases hkind

theorem renderItems_inj {layout : Layout} {level : Nat} :
    ∀ (items items' : List Json) {rest rest' : List Char}, items ≠ [] → items' ≠ [] →
      Closes rest → Closes rest' →
      renderItems layout level items rest = renderItems layout level items' rest' →
      items = items' ∧ rest = rest'
  | [], _, _, _, hne, _, _, _, _ => absurd rfl hne
  | _ :: _, [], _, _, _, hne', _, _, _ => absurd rfl hne'
  | item :: items, item' :: items', rest, rest', _, _, hrest, hrest', h => by
    rw [renderItems_cons, renderItems_cons] at h
    obtain ⟨rfl, htail⟩ := render_inj item item' (ends_continued hrest) (ends_continued hrest')
      (List.append_cancel_left h)
    obtain ⟨rfl, hend⟩ := continued_inj hrest hrest'
      (fun hne hne' => renderItems_inj items items' hne hne' hrest hrest') htail
    exact ⟨rfl, hend⟩

theorem renderMembers_inj {layout : Layout} {level : Nat} :
    ∀ (members members' : List (String × Json)) {rest rest' : List Char},
      members ≠ [] → members' ≠ [] → Closes rest → Closes rest' →
      renderMembers layout level members rest = renderMembers layout level members' rest' →
      members = members' ∧ rest = rest'
  | [], _, _, _, hne, _, _, _, _ => absurd rfl hne
  | _ :: _, [], _, _, _, hne', _, _, _ => absurd rfl hne'
  | (name, value) :: members, (name', value') :: members', rest, rest', _, _, hrest, hrest', h => by
    rw [renderMembers_cons, renderMembers_cons] at h
    obtain ⟨rfl, hvalue⟩ := quote_inj (List.append_cancel_left h)
    obtain ⟨rfl, htail⟩ := render_inj value value' (ends_continued hrest)
      (ends_continued hrest') (List.append_cancel_left hvalue)
    obtain ⟨rfl, hend⟩ := continued_inj hrest hrest'
      (fun hne hne' => renderMembers_inj members members' hne hne' hrest hrest') htail
    exact ⟨rfl, hend⟩

end

theorem text_inj {layout : Layout} {v v' : Json} (h : v.text layout = v'.text layout) :
    v = v' := by
  have hends : Ends [] := fun c hc => absurd hc (by simp)
  have hrender := String.ofList_injective h
  exact (render_inj v v' hends hends hrender).1

end SyntaxLens.Json
