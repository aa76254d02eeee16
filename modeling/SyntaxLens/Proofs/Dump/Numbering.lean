import Mathlib.Tactic.Common
import SyntaxLens.Proofs.Dump.Moves

namespace SyntaxLens

/-- No composite of the tree is in a line zero. -/
inductive Node.IsNumbered : Node → Prop
  | composite {typeName : String} {fields : List (String × Node)} {position : Option LineCol}
    (hf : ∀ f ∈ fields, IsNumbered f.2) (hp : ∀ p, position = some p → 1 ≤ p.line) :
    IsNumbered (.composite typeName fields position)
  | sequence {kind : SequenceKind} {items : List Node} (hi : ∀ v ∈ items, IsNumbered v) :
    IsNumbered (.sequence kind items)
  | scalar {value : Scalar} : IsNumbered (.scalar value)

namespace Dump

structure Collected.IsNumbered (c : Collected) : Prop where
  line : ∀ l, c.line = some l → 1 ≤ l
  fields : ∀ f ∈ c.fields, f.2.IsNumbered

def Frame.IsNumbered : Frame → Prop
  | node _ _ arguments _ => ∀ a ∈ arguments, a.value.IsNumbered
  | sequence _ _ items => ∀ v ∈ items, v.IsNumbered

def AreNumbered (frames : List Frame) : Prop :=
  ∀ frame ∈ frames, frame.IsNumbered

def Settled.IsNumbered : Settled → Prop
  | whole v => v.IsNumbered
  | inside frame below => AreNumbered (frame :: below)

/-- All that has been read is numbered. -/
def State.IsNumbered : State → Prop
  | value frames | name frames _ _ => AreNumbered frames
  | item frame below _ | closing frame below => AreNumbered (frame :: below)
  | settled r => r.IsNumbered

variable {c c' : Collected} {a : Argument}

lemma one_le_of_positionValue {l : UInt32} (h : positionValue .line a = .ok l) : 1 ≤ l := by
  rw [positionValue] at h
  split at h
  case h_2 => cases h
  case h_1 n hn =>
    by_cases hleast : n.toInt < PositionPart.line.least
    · rw [if_pos hleast] at h
      cases h
    · rw [if_neg hleast] at h
      by_cases hsize : n.toInt < UInt32.size
      · rw [if_pos hsize] at h
        cases h
        have hle : 1 ≤ n.toInt := Int.not_lt.mp hleast
        have hlt : n.toInt.toNat < UInt32.size := by omega
        rw [UInt32.le_iff_toNat_le, UInt32.toNat_ofNat_of_lt' hlt]
        change 1 ≤ n.toInt.toNat
        omega
      · rw [if_neg hsize] at h
        cases h

lemma Collected.IsNumbered.add (hc : c.IsNumbered) (ha : a.value.IsNumbered)
    (h : c.add a = .ok c') : c'.IsNumbered := by
  rcases add_cases h with ⟨-, l, hl, rfl⟩ | ⟨-, m, -, rfl⟩ | ⟨-, rfl⟩ | ⟨-, rfl⟩
  · refine ⟨fun m hm => ?_, hc.fields⟩
    cases hm
    exact one_le_of_positionValue hl
  · exact ⟨hc.line, hc.fields⟩
  · exact hc
  · refine ⟨hc.line, fun f hf => ?_⟩
    rcases List.mem_append.mp hf with hf | hf
    · exact hc.fields f hf
    · rw [List.mem_singleton.mp hf]
      exact ha

lemma Collected.IsNumbered.foldlM {arguments : List Argument} (hc : c.IsNumbered)
    (ha : ∀ a ∈ arguments, a.value.IsNumbered)
    (h : arguments.foldlM Collected.add c = .ok c') : c'.IsNumbered := by
  induction arguments generalizing c with
  | nil => cases h; exact hc
  | cons a arguments ih =>
    rw [List.foldlM_cons] at h
    cases hadd : c.add a with
    | error p => rw [hadd] at h; cases h
    | ok d =>
      rw [hadd] at h
      exact ih (hc.add (ha a List.mem_cons_self) hadd)
        (fun b hb => ha b (List.mem_cons_of_mem a hb)) h

lemma isNumbered_composite {typeName : String} {arguments : List Argument} {v : Node}
    (ha : ∀ a ∈ arguments, a.value.IsNumbered) (h : composite typeName arguments = .ok v) :
    v.IsNumbered := by
  rw [composite] at h
  cases hc : arguments.foldlM Collected.add ⟨none, none, []⟩ with
  | error p => rw [hc] at h; cases h
  | ok c =>
    rw [hc] at h
    cases h
    have hempty : Collected.IsNumbered ⟨none, none, []⟩ :=
      ⟨nofun, fun _ hf => absurd hf List.not_mem_nil⟩
    have hnum := hempty.foldlM ha hc
    refine .composite hnum.fields fun p hp => ?_
    rw [Collected.position?, Option.map_eq_some_iff] at hp
    obtain ⟨l, hl, rfl⟩ := hp
    exact hnum.line l hl

variable {v : Node} {span : ByteSpan} {frame frame' : Frame} {frames below : List Frame}
  {r : Settled} {s s' : State} {t : Lexeme}

lemma Frame.IsNumbered.value (hf : frame.IsNumbered) (h : frame.value = .ok v) :
    v.IsNumbered := by
  cases frame with
  | node typeName start arguments field => exact isNumbered_composite hf h
  | sequence kind start items => cases h; exact .sequence hf

lemma Frame.IsNumbered.push (hf : frame.IsNumbered) (hv : v.IsNumbered)
    (h : frame.push v span = .ok frame') : frame'.IsNumbered := by
  cases frame with
  | node typeName start arguments field =>
    cases field with
    | none => cases h
    | some name =>
      cases h
      intro a ha
      rcases List.mem_append.mp ha with ha | ha
      · exact hf a ha
      · rw [List.mem_singleton.mp ha]
        exact hv
  | sequence kind start items =>
    cases h
    intro w hw
    rcases List.mem_append.mp hw with hw | hw
    · exact hf w hw
    · rw [List.mem_singleton.mp hw]
      exact hv

lemma areNumbered_cons :
    AreNumbered (frame :: frames) ↔ frame.IsNumbered ∧ AreNumbered frames :=
  List.forall_mem_cons

lemma areNumbered_cons_node {typeName : String} {start : Nat} {field : Option String}
    (h : AreNumbered frames) : AreNumbered (.node typeName start [] field :: frames) :=
  areNumbered_cons.mpr ⟨fun _ ha => absurd ha List.not_mem_nil, h⟩

lemma areNumbered_cons_sequence {kind : SequenceKind} {start : Nat} (h : AreNumbered frames) :
    AreNumbered (.sequence kind start [] :: frames) :=
  areNumbered_cons.mpr ⟨fun _ hv => absurd hv List.not_mem_nil, h⟩

lemma isNumbered_settle (hf : AreNumbered frames) (hv : v.IsNumbered)
    (h : settle v span frames = .ok r) : r.IsNumbered := by
  rcases settle_cases h with ⟨rfl, rfl⟩ | ⟨frame, below, frame', rfl, hpush, rfl⟩
  · exact hv
  · have hcons := areNumbered_cons.mp hf
    exact areNumbered_cons.mpr ⟨hcons.1.push hv hpush, hcons.2⟩

lemma isNumbered_close {stop : Nat} (hf : AreNumbered (frame :: below))
    (h : close frame below stop = .ok r) : r.IsNumbered := by
  obtain ⟨v, hv, hr⟩ := close_cases h
  have hcons := areNumbered_cons.mp hf
  exact isNumbered_settle hcons.2 (hcons.1.value hv) hr

lemma Starts.isNumbered (h : Starts t frames s) (hf : AreNumbered frames) : s.IsNumbered := by
  cases h with
  | name => exact hf
  | list => exact areNumbered_cons_sequence hf
  | tuple => exact areNumbered_cons_sequence hf
  | leaf ht hr => exact isNumbered_settle hf .scalar hr

lemma Follows.isNumbered (h : Follows t r s) (hr : r.IsNumbered) : s.IsNumbered := by
  cases h with
  | comma => exact hr
  | close ht hclose => exact isNumbered_close hr hclose

theorem Move.isNumbered (h : Move t s s') (hs : s.IsNumbered) : s'.IsNumbered := by
  cases h with
  | value h => exact h.isNumbered hs
  | item h => exact h.isNumbered hs
  | close ht hclose => exact isNumbered_close hs hclose
  | loneComma => exact hs
  | closeAfterComma ht hclose => exact isNumbered_close hs hclose
  | settled h => exact h.isNumbered hs
  | node => exact areNumbered_cons_node hs
  | field =>
    have hcons := areNumbered_cons.mp hs
    exact areNumbered_cons.mpr ⟨hcons.1, hcons.2⟩
  | constant hv hr h => exact h.isNumbered (isNumbered_settle hs .scalar hr)

theorem isNumbered_run {stop : Nat} {ts : List Lexeme} (hs : s.IsNumbered)
    (h : run s stop ts = .ok v) : v.IsNumbered := by
  induction ts generalizing s stop with
  | nil =>
    rcases finish_cases h with rfl | ⟨text, span, leaf, rfl, hleaf, rfl⟩
    · exact hs
    · exact .scalar
  | cons t ts ih =>
    obtain ⟨s', hstep, hrun⟩ := run_cons_ok h
    exact ih ((move_of_step hstep).isNumbered hs) hrun

/-- The tree of a dump has no composite in a line zero. -/
theorem isNumbered_read {dump : String} (h : read dump = .ok v) : v.IsNumbered := by
  obtain ⟨ls, -, hv⟩ := read_ok h
  exact isNumbered_run (s := .value []) (fun _ hf => absurd hf List.not_mem_nil) hv

end Dump

end SyntaxLens
