import Mathlib.Tactic.Common
import SyntaxLens.Disk

/-!
# Files and the way to them

A content that is put at a location is found there and nowhere else, and every path leads where it
led before. A file that can be read is found by those who look for it.
-/

namespace SyntaxLens.Disk

variable {d : Disk} {loc other : Location} {content : List UInt8} {path : String}

lemma lookup_map_of_eq {files : List (Location × List UInt8)}
    (h : (files.lookup loc).isSome) :
    (files.map fun f => if f.1 = loc then (f.1, content) else f).lookup loc = some content := by
  induction files with
  | nil => cases h
  | cons f files ih =>
    obtain ⟨name, old⟩ := f
    by_cases hname : name = loc
    · subst hname
      simp
    · have hne : (loc == name) = false := by simpa using Ne.symm hname
      rw [List.lookup_cons, hne] at h
      rw [List.map_cons, if_neg hname, List.lookup_cons, hne]
      exact ih h

lemma lookup_map_of_ne {files : List (Location × List UInt8)} (h : other ≠ loc) :
    (files.map fun f => if f.1 = loc then (f.1, content) else f).lookup other =
      files.lookup other := by
  induction files with
  | nil => rfl
  | cons f files ih =>
    obtain ⟨name, old⟩ := f
    rw [List.map_cons]
    by_cases hname : name = loc
    · have hne : (other == name) = false := by simpa [hname] using h
      rw [if_pos hname, List.lookup_cons, List.lookup_cons, hne]
      exact ih
    · rw [if_neg hname, List.lookup_cons, List.lookup_cons, ih]

theorem file?_put_self : (d.put loc content).file? loc = some content := by
  unfold put
  by_cases h : (d.file? loc).isSome
  · rw [if_pos h]
    exact lookup_map_of_eq h
  · rw [if_neg h, file?, List.lookup_append]
    have hnone : d.files.lookup loc = none := Option.not_isSome_iff_eq_none.mp h
    rw [hnone, Option.none_or, List.lookup_cons, beq_self_eq_true]

theorem file?_put_of_ne (h : other ≠ loc) : (d.put loc content).file? other = d.file? other := by
  unfold put
  by_cases hfile : (d.file? loc).isSome
  · rw [if_pos hfile]
    exact lookup_map_of_ne h
  · have hne : (other == loc) = false := by simpa using h
    rw [if_neg hfile, file?, List.lookup_append, List.lookup_cons, hne]
    simp [file?]

lemma refuses_put (access : Access) : (d.put loc content).refuses access other =
    d.refuses access other := by
  unfold put
  by_cases h : (d.file? loc).isSome
  · rw [if_pos h]
    rfl
  · rw [if_neg h]
    rfl

lemma isDirectory_put (h : d.isDirectory other = true) :
    (d.put loc content).isDirectory other = true := by
  simp only [isDirectory, Bool.or_eq_true] at h ⊢
  refine h.imp_right fun hany => ?_
  unfold put
  by_cases hfile : (d.file? loc).isSome
  · rw [if_pos hfile, List.any_map]
    rw [← hany]
    congr 1
    funext f
    simp only [Function.comp_apply]
    split <;> rfl
  · rw [if_neg hfile, List.any_append, hany, Bool.true_or]

lemma walk_put {start : Location} {names : List String} (h : d.walk start names = .ok other) :
    (d.put loc content).walk start names = .ok other := by
  induction names generalizing start with
  | nil => exact h
  | cons name names ih =>
    by_cases hdir : d.isDirectory start = true
    · simp only [walk, hdir, isDirectory_put hdir, refuses_put, if_true] at h ⊢
      split_ifs at h ⊢ with hempty hrefused hdot hup
      · exact ih h
      · exact ih h
      · exact ih h
      · exact ih h
    · rw [walk, if_neg hdir] at h
      split at h <;> cases h

lemma locate_put (h : d.locate path = .ok other) :
    (d.put loc content).locate path = .ok other := by
  unfold locate at h ⊢
  split at h
  · cases h
  · exact walk_put h
  · exact walk_put h

lemma locate_of_target (h : d.target path = .ok loc) : d.locate path = .ok loc := by
  unfold target at h
  split at h
  · cases hslash : d.locate (path.dropEndWhile (· = '/')).toString with
    | error e => rw [hslash] at h; cases h
    | ok l => rw [hslash] at h; cases h
  · cases hlocate : d.locate path with
    | error e => rw [hlocate] at h; cases h
    | ok l =>
      simp only [hlocate, Except.bind] at h
      split_ifs at h
      · exact h
      · exact h

theorem content?_put_of_target (h : d.target path = .ok loc) :
    (d.put loc content).content? path = some content := by
  rw [Disk.content?, locate_put (locate_of_target h)]
  exact file?_put_self

/-- A file that can be read is there for those who look for it. -/
theorem contains_of_readText {text : String} (h : d.readText path = .ok text) :
    d.contains path = true := by
  unfold readText read at h
  unfold contains
  cases hlocate : d.locate path with
  | error e =>
    rw [hlocate] at h
    cases h
  | ok loc =>
    simp only [hlocate, Except.bind] at h ⊢
    by_cases hdir : d.isDirectory loc = true
    · rw [hdir, Bool.true_or]
    · cases hfile : d.file? loc with
      | none => simp only [hdir, hfile] at h; cases h
      | some content => rw [Option.isSome_some, Bool.or_true]

lemma walk_unlocked {start : Location} {names : List String}
    (h : d.unlocked.walk start names = .ok loc) :
    d.walk start names = .ok loc ∨ d.walk start names = .error .denied := by
  induction names generalizing start with
  | nil => exact .inl h
  | cons name names ih =>
    have hsame : d.unlocked.isDirectory start = d.isDirectory start := rfl
    have hopen : d.unlocked.refuses .search start = false := rfl
    by_cases hdir : d.isDirectory start = true
    · simp only [walk, hsame, hopen, hdir, if_true, Bool.false_eq_true, if_false] at h ⊢
      by_cases hempty : name = ""
      · rw [if_pos hempty] at h ⊢
        exact ih h
      · rw [if_neg hempty] at h ⊢
        by_cases hrefused : d.refuses .search start = true
        · exact .inr (if_pos hrefused)
        · rw [if_neg hrefused]
          split_ifs at h ⊢ with hdot hup
          · exact ih h
          · exact ih h
          · exact ih h
    · rw [walk, if_neg (by rw [hsame]; exact hdir)] at h
      split at h <;> cases h

/-- What does not exist for those who look for it is not there or cannot be reached. -/
theorem unlocked_or_denied (h : d.contains path = false) :
    d.unlocked.contains path = false ∨ d.locate path = .error .denied := by
  cases hlocate : d.unlocked.locate path with
  | error e =>
    refine .inl ?_
    unfold contains
    rw [hlocate]
  | ok loc =>
    have hsame : d.locate path = .ok loc ∨ d.locate path = .error .denied := by
      unfold locate at hlocate ⊢
      split at hlocate
      · cases hlocate
      · exact walk_unlocked hlocate
      · exact walk_unlocked hlocate
    refine hsame.imp_left fun hloc => ?_
    unfold contains at h ⊢
    rw [hloc] at h
    rw [hlocate]
    exact h

end SyntaxLens.Disk
