import Sese.Config.YamlRows

/-!
# What the YAML writer writes

`streamify` writes the rows of a plain tree whose lists are shorter than its counter allows.
-/
namespace Sese.Yaml

open Foundation

variable {δ : Type} [Strtod δ]

/-- The lists that the counter of `streamifyArray` comes to the end of. -/
def Counted : Value δ → Prop
  | .list values => values.length < 2 ^ 32
  | _ => True

theorem indentation_eq (count level : ℕ) (prefixed : Bool) :
    indentation count level prefixed = List.replicate (indent count level prefixed) 32 := by
  have hspace (n : ℕ) : writeSpace n = List.replicate (n % 1024) 32 := by
    rw [writeSpace, Nat.div_eq_of_lt (Nat.mod_lt n (by decide))]
    rfl
  rw [indentation, indent, hspace]
  split_ifs
  · rfl
  · rfl

theorem unlines_cons (row : Row) (rows : List Row) :
    unlines (row :: rows) = List.replicate row.1 32 ++ (row.2 ++ 10 :: unlines rows) := by
  simp [unlines]

theorem unlines_append (rows rows' : List Row) :
    unlines (rows ++ rows') = unlines rows ++ unlines rows' := List.flatMap_append

theorem rows_scalar {value : Value δ} (hscalar : value.isContainer = false) (level : ℕ)
    (prefixed : Bool) : rows level prefixed value = [(0, basicText value)] := by
  cases value with
  | list _ => cases hscalar
  | dict _ => cases hscalar
  | _ => rw [rows.eq_def]

theorem rows_cons {value : Value δ} (h : value.All Plain) (level : ℕ) (prefixed : Bool) :
    ∃ text others, rows level prefixed value =
      (if value.isContainer then indent 1 level prefixed else 0, text) :: others := by
  induction value using Value.tree_induction generalizing level prefixed with
  | list values ih =>
    obtain ⟨v, vs, rfl⟩ := List.exists_cons_of_ne_nil h.self
    obtain ⟨text, others, hrows⟩ :=
      ih v List.mem_cons_self (h.element List.mem_cons_self) ((level + 1) % 2 ^ 32) false
    rw [rows, elementRows, hrows]
    exact ⟨_, _, rfl⟩
  | dict members ih =>
    obtain ⟨⟨key, value⟩, members, rfl⟩ := List.exists_cons_of_ne_nil h.self.1
    rw [rows, memberRows]
    cases value.isContainer
    · exact ⟨_, _, rfl⟩
    · exact ⟨_, _, rfl⟩
  | null => exact ⟨_, _, rows_scalar rfl level prefixed⟩
  | bool b => exact ⟨_, _, rows_scalar rfl level prefixed⟩
  | int i => exact ⟨_, _, rows_scalar rfl level prefixed⟩
  | double d => exact ⟨_, _, rows_scalar rfl level prefixed⟩
  | string s => exact ⟨_, _, rows_scalar rfl level prefixed⟩
  | blob s => exact ⟨_, _, rows_scalar rfl level prefixed⟩

theorem rows_behind_mark {value : Value δ} (h : value.All Plain) (level : ℕ) :
    ∃ text others, rows level false value = (0, text) :: others := by
  obtain ⟨text, others, hrows⟩ := rows_cons h level false
  refine ⟨text, others, ?_⟩
  rw [hrows]
  split_ifs
  · rfl
  · rfl

theorem unlines_mark {value : Value δ} (h : value.All Plain) (spaces level : ℕ) :
    unlines (mark spaces (rows level false value)) =
      List.replicate spaces 32 ++ 45 :: 32 :: unlines (rows level false value) := by
  obtain ⟨text, others, hrows⟩ := rows_behind_mark h level
  rw [hrows, mark, unlines_cons, unlines_cons]
  simp

theorem streamifyBasic_eq {value : Value δ} (hplain : Plain value) (hscalar : value.isContainer = false) :
    streamifyBasic value = .ok (basicText value ++ [10]) := by
  cases value with
  | list _ => cases hscalar
  | dict _ => cases hscalar
  | blob _ => exact hplain.elim
  | _ => rfl

/-- From the state the loops come to the end of the container on top, with this text behind what
was written. -/
def Finishes (s : Writing δ) (iters : List (List (Bytes × Value δ))) (text : Bytes) : Prop :=
  ∃ t, Visits (flatten streamTurn) s t ∧ streamTurn t = .ok (t.leave iters) ∧ t.stack = s.stack ∧
    t.out = s.out ++ text

/-- The value is written wherever it is on top of the stack. -/
def Writes (value : Value δ) : Prop :=
  ∀ level prefixed stack iters out,
    Finishes ⟨⟨value, 0, level, prefixed⟩, stack, iterOf value ++ iters, out⟩ iters
      (unlines (rows level prefixed value))

theorem Finishes.again {s s' : Writing δ} {iters : List (List (Bytes × Value δ))} {front text : Bytes}
    (hvisits : Visits (flatten streamTurn) s s') (hstack : s'.stack = s.stack)
    (hout : s'.out = s.out ++ front) (h : Finishes s' iters text) :
    Finishes s iters (front ++ text) := by
  obtain ⟨t, ht, hleave, htstack, htout⟩ := h
  exact ⟨t, hvisits.trans ht, hleave, htstack.trans hstack, by rw [htout, hout, List.append_assoc]⟩

/-- A container that is finished is left for the entry below it. -/
theorem Finishes.visits {s : Writing δ} {iters : List (List (Bytes × Value δ))} {text : Bytes}
    {entry : Entry δ} {stack : List (Entry δ)} (h : Finishes s iters text)
    (hstack : s.stack = entry :: stack) :
    Visits (flatten streamTurn) s ⟨entry, stack, iters, s.out ++ text⟩ := by
  obtain ⟨t, ht, hleave, htstack, htout⟩ := h
  have hnext : t.leave iters = .inr (.inl ⟨entry, stack, iters, s.out ++ text⟩) := by
    rw [Writing.leave, htstack, hstack, htout]
  rw [hnext] at hleave
  exact ht.trans (Visits.step (flatten_left hleave))

theorem streamTurn_list {s : Writing δ} {values : List (Value δ)} (h : s.top.value = .list values) :
    streamTurn s = streamifyArray s values := by
  rw [streamTurn, h]

theorem streamTurn_dict {s : Writing δ} {members : List (Bytes × Value δ)}
    (h : s.top.value = .dict members) : streamTurn s = streamifyObject s := by
  rw [streamTurn, h]

section Elements

variable {values : List (Value δ)} {value : Value δ} {count : ℕ}

theorem visits_scalarElement (hget : values[count]? = some value) (hplain : Plain value)
    (hscalar : value.isContainer = false) (level : ℕ) (prefixed : Bool) (stack : List (Entry δ))
    (iters : List (List (Bytes × Value δ))) (out : Bytes) :
    Visits (flatten streamTurn) ⟨⟨.list values, count, level, prefixed⟩, stack, iters, out⟩
      ⟨⟨.list values, (count + 1) % 2 ^ 32, level, prefixed⟩, stack, iters,
        out ++ (indentation ((count + 1) % 2 ^ 32) level prefixed ++ [45, 32] ++
          (basicText value ++ [10]))⟩ := by
  have hbasic := streamifyBasic_eq hplain hscalar
  apply Visits.step
  apply flatten_again
  rw [streamTurn_list rfl, streamifyArray, hget]
  cases value with
  | list _ => cases hscalar
  | dict _ => cases hscalar
  | _ =>
    dsimp only
    rw [hbasic]
    rfl

theorem visits_containerElement (hget : values[count]? = some value) (hcontainer : value.isContainer)
    (level : ℕ) (prefixed : Bool) (stack : List (Entry δ)) (iters : List (List (Bytes × Value δ)))
    (out : Bytes) :
    Visits (flatten streamTurn) ⟨⟨.list values, count, level, prefixed⟩, stack, iters, out⟩
      ⟨⟨value, 0, (level + 1) % 2 ^ 32, false⟩,
        ⟨.list values, (count + 1) % 2 ^ 32, level, true⟩ :: stack, iterOf value ++ iters,
        out ++ (indentation ((count + 1) % 2 ^ 32) level prefixed ++ [45, 32])⟩ := by
  apply Visits.step
  apply flatten_left
  rw [streamTurn_list rfl, streamifyArray, hget]
  cases value with
  | list _ => rfl
  | dict _ => rfl
  | _ => cases hcontainer

theorem finishes_elements (hcounted : values.length < 2 ^ 32) {done left : List (Value δ)}
    (hvalues : values = done ++ left) (h : ∀ v ∈ left, v.All Plain ∧ (v.isContainer → Writes v))
    (level : ℕ) (prefixed : Bool) (stack : List (Entry δ)) (iters : List (List (Bytes × Value δ)))
    (out : Bytes) :
    Finishes ⟨⟨.list values, done.length, level, prefixed⟩, stack, iters, out⟩ iters
      (unlines (elementRows level done.length prefixed left)) := by
  induction left generalizing done prefixed out with
  | nil =>
    have hget : values[done.length]? = none := by simp [hvalues]
    refine ⟨_, .refl, ?_, rfl, (List.append_nil out).symm⟩
    rw [streamTurn_list rfl, streamifyArray, hget]
  | cons v left ih =>
    obtain ⟨hplain, hwrites⟩ := h v List.mem_cons_self
    have hget : values[done.length]? = some v := by simp [hvalues]
    have hcount : (done.length + 1) % 2 ^ 32 = (done ++ [v]).length := by
      rw [hvalues, List.length_append, List.length_cons] at hcounted
      rw [List.length_append, List.length_singleton]
      omega
    have hnext := @ih (done ++ [v]) (by rw [hvalues, List.append_assoc]; rfl)
      (fun w hw => h w (List.mem_cons_of_mem _ hw)) (prefixed || v.isContainer)
    rw [elementRows, unlines_append, unlines_mark hplain, hcount]
    by_cases hcontainer : v.isContainer
    · have hvisits := visits_containerElement hget hcontainer level prefixed stack iters out
      have hchild := hwrites hcontainer ((level + 1) % 2 ^ 32) false
        (⟨.list values, (done.length + 1) % 2 ^ 32, level, true⟩ :: stack) iters
        (out ++ (indentation ((done.length + 1) % 2 ^ 32) level prefixed ++ [45, 32]))
      rw [hcount, indentation_eq] at hvisits hchild
      rw [hcontainer, Bool.or_true] at hnext ⊢
      refine Finishes.again (hvisits.trans (hchild.visits rfl)) rfl ?_ (hnext _)
      simp
    · rw [Bool.not_eq_true] at hcontainer
      have hvisits := visits_scalarElement hget hplain.self hcontainer level prefixed stack iters out
      rw [hcount, indentation_eq] at hvisits
      rw [hcontainer, Bool.or_false] at hnext ⊢
      refine Finishes.again hvisits rfl ?_ (hnext _)
      rw [rows_scalar hcontainer]
      simp [unlines]

end Elements

section Members

variable {members iter : List (Bytes × Value δ)} {key : Bytes} {value : Value δ}

theorem visits_scalarMember (hplain : Plain value) (hscalar : value.isContainer = false)
    (count level : ℕ) (prefixed : Bool) (stack : List (Entry δ))
    (iters : List (List (Bytes × Value δ))) (out : Bytes) :
    Visits (flatten (@streamTurn δ _))
      ⟨⟨.dict members, count, level, prefixed⟩, stack, ((key, value) :: iter) :: iters, out⟩
      ⟨⟨.dict members, (count + 1) % 2 ^ 32, level, prefixed⟩, stack, iter :: iters,
        out ++ (indentation ((count + 1) % 2 ^ 32) level prefixed ++ (key ++ [58, 32]) ++
          (basicText value ++ [10]))⟩ := by
  have hbasic := streamifyBasic_eq hplain hscalar
  apply Visits.step
  apply flatten_again
  rw [streamTurn_dict rfl, streamifyObject]
  cases value with
  | list _ => cases hscalar
  | dict _ => cases hscalar
  | _ =>
    dsimp only
    rw [hbasic]
    rfl

theorem visits_containerMember (hcontainer : value.isContainer) (count level : ℕ) (prefixed : Bool)
    (stack : List (Entry δ)) (iters : List (List (Bytes × Value δ))) (out : Bytes) :
    Visits (flatten (@streamTurn δ _))
      ⟨⟨.dict members, count, level, prefixed⟩, stack, ((key, value) :: iter) :: iters, out⟩
      ⟨⟨value, 0, (level + 1) % 2 ^ 32, true⟩,
        ⟨.dict members, (count + 1) % 2 ^ 32, level, true⟩ :: stack, iterOf value ++ iter :: iters,
        out ++ (indentation ((count + 1) % 2 ^ 32) level prefixed ++ (key ++ [58, 32]) ++ [10])⟩ := by
  apply Visits.step
  apply flatten_left
  rw [streamTurn_dict rfl, streamifyObject]
  cases value with
  | list _ => rfl
  | dict _ => rfl
  | _ => cases hcontainer

theorem finishes_members (h : ∀ e ∈ iter, e.2.All Plain ∧ (e.2.isContainer → Writes e.2))
    (count level : ℕ) (prefixed : Bool) (stack : List (Entry δ))
    (iters : List (List (Bytes × Value δ))) (out : Bytes) :
    Finishes ⟨⟨.dict members, count, level, prefixed⟩, stack, iter :: iters, out⟩ iters
      (unlines (memberRows level count prefixed iter)) := by
  induction iter generalizing count prefixed out with
  | nil => exact ⟨_, .refl, rfl, rfl, (List.append_nil out).symm⟩
  | cons e iter ih =>
    obtain ⟨key, value⟩ := e
    obtain ⟨hplain, hwrites⟩ := h (key, value) List.mem_cons_self
    have hnext := ih (fun e he => h e (List.mem_cons_of_mem _ he)) ((count + 1) % 2 ^ 32)
      (prefixed || value.isContainer)
    rw [memberRows, unlines_append]
    by_cases hcontainer : value.isContainer
    · have hvisits := @visits_containerMember δ _ members iter key value hcontainer count level prefixed
        stack iters out
      have hchild := hwrites hcontainer ((level + 1) % 2 ^ 32) true
        (⟨.dict members, (count + 1) % 2 ^ 32, level, true⟩ :: stack) (iter :: iters)
        (out ++ (indentation ((count + 1) % 2 ^ 32) level prefixed ++ (key ++ [58, 32]) ++ [10]))
      rw [indentation_eq] at hvisits hchild
      rw [hcontainer, Bool.or_true] at hnext ⊢
      refine Finishes.again (hvisits.trans (hchild.visits rfl)) rfl ?_ (hnext _)
      simp [unlines_cons]
    · rw [Bool.not_eq_true] at hcontainer
      have hvisits := @visits_scalarMember δ _ members iter key value hplain.self hcontainer count level
        prefixed stack iters out
      rw [indentation_eq] at hvisits
      rw [hcontainer, Bool.or_false] at hnext ⊢
      refine Finishes.again hvisits rfl ?_ (hnext _)
      simp [unlines]

end Members

theorem writes {value : Value δ} (hplain : value.All Plain) (hcounted : value.All Counted)
    (hcontainer : value.isContainer) : Writes value := by
  induction value using Value.tree_induction with
  | list values ih =>
    intro level prefixed stack iters out
    exact finishes_elements hcounted.self (List.nil_append values).symm
      (fun v hv => ⟨hplain.element hv,
        ih v hv (hplain.element hv) (hcounted.element hv)⟩) level prefixed stack iters out
  | dict members ih =>
    intro level prefixed stack iters out
    exact finishes_members (fun e he => ⟨hplain.member he,
      ih e he (hplain.member he) (hcounted.member he)⟩) 0 level prefixed stack iters out
  | null => cases hcontainer
  | bool _ => cases hcontainer
  | int _ => cases hcontainer
  | double _ => cases hcontainer
  | string _ => cases hcontainer
  | blob _ => cases hcontainer

/-- `streamify` returns `true`, and has written the rows. -/
theorem streamify_eq_rows {value : Value δ} (hplain : value.All Plain) (hcounted : value.All Counted)
    (hcontainer : value.isContainer) :
    ∃ fuel, streamify fuel value = .ok (true, unlines (rows 0 true value)) := by
  obtain ⟨t, ht, hleave, hstack, hout⟩ := writes hplain hcounted hcontainer 0 true [] [] []
  have hdone : t.leave [] = .inr (.inr (true, unlines (rows 0 true value))) := by
    rw [Writing.leave, hstack, hout]
    rfl
  rw [hdone] at hleave
  have hdelivers := ht.delivers.mpr (.done (flatten_left hleave))
  obtain ⟨fuel, hfuel⟩ := (nested_iff_flatten .endlessLoop).mpr hdelivers
  rw [List.append_nil] at hfuel
  exact ⟨fuel, hfuel⟩

end Sese.Yaml
