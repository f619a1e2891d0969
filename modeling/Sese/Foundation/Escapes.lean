import Mathlib.Tactic

/-!
# Words with escaped letters

Some letters of a word are special. One that has the escape letter directly in front of it means
itself, the others are the marks of the word.
-/
namespace Foundation

variable {α : Type*}

theorem special_induction (special : α → Bool) {P : List α → Prop}
    (plain : ∀ run, (∀ x ∈ run, special x = false) → P run)
    (next : ∀ run c rest, (∀ x ∈ run, special x = false) → special c = true → P rest →
      P (run ++ c :: rest)) (w : List α) : P w := by
  have hany : ∀ run, (∀ x ∈ run, special x = false) → P (run ++ w) := by
    induction w with
    | nil => simpa using plain
    | cons c w ih =>
      intro run hrun
      cases hc : special c with
      | true => exact next run c w hrun hc (ih [] (by simp))
      | false =>
        have hlonger := ih (run ++ [c]) (by simpa [or_imp, forall_and, hc] using hrun)
        rwa [List.append_assoc] at hlonger
  exact hany [] (by simp)

variable (esc : α) (special : α → Bool)

/-- The word with the escape letter in front of each special one. -/
def escape : List α → List α
  | [] => []
  | c :: w => if special c then esc :: c :: escape w else c :: escape w

variable {esc : α} {special : α → Bool} {run w : List α} {c : α}

theorem escape_cons (esc : α) (special : α → Bool) (c : α) (w : List α) :
    escape esc special (c :: w) =
      if special c then esc :: c :: escape esc special w else c :: escape esc special w := rfl

theorem escape_run (esc : α) (hrun : ∀ x ∈ run, special x = false) (w : List α) :
    escape esc special (run ++ w) = run ++ escape esc special w := by
  induction run with
  | nil => rfl
  | cons x run ih =>
    have hx : special x = false := hrun x (by simp)
    rw [List.cons_append, escape_cons, if_neg (by simp [hx]), ih fun y hy => hrun y (by simp [hy])]
    rfl

theorem escape_next (hrun : ∀ x ∈ run, special x = false) (hc : special c = true) (w : List α) :
    escape esc special (run ++ c :: w) = run ++ [esc] ++ c :: escape esc special w := by
  rw [escape_run esc hrun, escape_cons, if_pos hc, List.append_assoc]
  rfl

theorem escape_of_none (hw : ∀ x ∈ w, special x = false) : escape esc special w = w := by
  have h := escape_run esc hw []
  rwa [List.append_nil, escape, List.append_nil] at h

theorem mem_escape (h : c ∈ escape esc special w) : c = esc ∨ c ∈ w := by
  induction w with
  | nil => exact absurd h (by simp [escape])
  | cons x w ih =>
    rw [escape_cons] at h
    split_ifs at h
    · rcases List.mem_cons.mp h with rfl | h
      · exact Or.inl rfl
      · rcases List.mem_cons.mp h with rfl | h
        · exact Or.inr (by simp)
        · exact (ih h).imp_right (List.mem_cons_of_mem x)
    · rcases List.mem_cons.mp h with rfl | h
      · exact Or.inr (by simp)
      · exact (ih h).imp_right (List.mem_cons_of_mem x)

variable [DecidableEq α] (esc) (special)

/-- The marks of a word. `escaped` tells whether the escape letter is in front of the word. -/
def marks : Bool → List α → List α
  | _, [] => []
  | escaped, c :: w =>
    if special c ∧ ¬ escaped then c :: marks (c = esc) w else marks (c = esc) w

/-- The marks open and close in turn; what the last one opens may stay open. -/
def paired (opening closing : α) : List α → Bool
  | [] => true
  | [c] => c = opening
  | c :: d :: w => c = opening ∧ d = closing ∧ paired opening closing w

variable {esc} {special} {b : Bool}

theorem marks_cons (esc : α) (special : α → Bool) (escaped : Bool) (c : α) (w : List α) :
    marks esc special escaped (c :: w) =
      if special c ∧ ¬ escaped then c :: marks esc special (c = esc) w
      else marks esc special (c = esc) w := rfl

theorem marks_run (esc : α) (hrun : ∀ x ∈ run, special x = false) (b : Bool) (w : List α) :
    marks esc special b (run ++ w) =
      marks esc special ((run.getLast?.map fun x => decide (x = esc)).getD b) w := by
  induction run generalizing b with
  | nil => rfl
  | cons x run ih =>
    have hx : special x = false := hrun x (by simp)
    have hnext := ih (fun y hy => hrun y (by simp [hy])) (x = esc)
    rw [List.cons_append, marks_cons, if_neg (by simp [hx]), hnext]
    cases run with
    | nil => rfl
    | cons y run =>
      have hsame : (x :: y :: run).getLast? = (y :: run).getLast? := List.getLast?_cons_cons
      obtain ⟨z, hz⟩ : ∃ z, (y :: run).getLast? = some z :=
        ⟨_, List.getLast?_eq_some_getLast (List.cons_ne_nil y run)⟩
      rw [hsame, hz]
      rfl

theorem marks_of_none (hw : ∀ x ∈ w, special x = false) (b : Bool) :
    marks esc special b w = [] := by
  have h := marks_run esc hw b []
  rw [List.append_nil] at h
  rw [h, marks]

theorem marks_escaped (hrun : ∀ x ∈ run, special x = false) (hlast : run.getLast? = some esc) :
    marks esc special b (run ++ c :: w) = marks esc special (c = esc) w := by
  rw [marks_run esc hrun, hlast]
  simp [marks]

theorem marks_mark (hrun : ∀ x ∈ run, special x = false) (hc : special c = true)
    (hlast : run.getLast? ≠ some esc) :
    marks esc special false (run ++ c :: w) = c :: marks esc special (c = esc) w := by
  have hflag : (run.getLast?.map fun x => decide (x = esc)).getD false = false := by
    cases h : run.getLast? with
    | none => rfl
    | some x =>
      rw [h] at hlast
      simpa using hlast
  rw [marks_run esc hrun, hflag, marks_cons, if_pos (by simp [hc])]

/-- A word is a plain one, or goes on behind its first special letter, which is escaped or a
mark. -/
theorem marks_induction (hspecial : special esc = false) {P : List α → Prop}
    (plain : ∀ run, (∀ x ∈ run, special x = false) → marks esc special false run = [] → P run)
    (escaped : ∀ run c rest, (∀ x ∈ run, special x = false) → special c = true →
      run.getLast? = some esc →
      marks esc special false (run ++ c :: rest) = marks esc special false rest → P rest →
      P (run ++ c :: rest))
    (mark : ∀ run c rest, (∀ x ∈ run, special x = false) → special c = true →
      run.getLast? ≠ some esc →
      marks esc special false (run ++ c :: rest) = c :: marks esc special false rest →
      P (run ++ c :: rest)) (w : List α) : P w := by
  induction w using special_induction special with
  | plain run hrun => exact plain run hrun (marks_of_none hrun false)
  | next run c rest hrun hc ih =>
    have hne : decide (c = esc) = false := by
      refine decide_eq_false fun h => ?_
      rw [h, hspecial] at hc
      cases hc
    by_cases hlast : run.getLast? = some esc
    · exact escaped run c rest hrun hc hlast (by rw [marks_escaped hrun hlast, hne]) ih
    · exact mark run c rest hrun hc hlast (by rw [marks_mark hrun hc hlast, hne])

theorem special_of_mem_marks (h : c ∈ marks esc special b w) : special c = true := by
  induction w generalizing b with
  | nil => simp [marks] at h
  | cons x w ih =>
    rw [marks_cons] at h
    split_ifs at h with hx
    · rcases List.mem_cons.mp h with rfl | h
      · exact hx.1
      · exact ih h
    · exact ih h

theorem marks_escape (hspecial : special esc = false) (hw : esc ∉ w) (rest : List α) :
    marks esc special false (escape esc special w ++ rest) = marks esc special false rest := by
  induction w with
  | nil => rfl
  | cons c w ih =>
    have hc : c ≠ esc := fun h => hw (by simp [h])
    have hnext := ih fun h => hw (by simp [h])
    rw [escape_cons]
    split_ifs with hmark
    · rw [List.cons_append, List.cons_append, marks_cons, if_neg (by simp [hspecial]), marks_cons,
        if_neg (by simp), decide_eq_false hc, hnext]
    · rw [List.cons_append, marks_cons, if_neg (by simp [hmark]), decide_eq_false hc, hnext]

end Foundation
