import Sese.Config.JsonRoundTrip
import Sese.Config.ValueToString

/-!
# When printing a value ends

Every container whose lists are all counted by an `unsigned int` is printed to an end, and nothing
else is: a list that is longer never is, and a value that is no container stays on the stack.
-/
namespace Sese.Value

open Foundation
open Json (iterOf)

variable {δ : Type} [Double δ]

/-- What is written goes in front of what is written later. -/
def prepend (front : Bytes) (printed : Except Fault Bytes) : Except Fault Bytes :=
  (front ++ ·) <$> printed

theorem prepend_prepend (front middle : Bytes) (printed : Except Fault Bytes) :
    prepend front (prepend middle printed) = prepend (front ++ middle) printed := by
  cases printed <;> simp [prepend]

theorem prepend_eq_ok {front text : Bytes} {printed : Except Fault Bytes} :
    prepend front printed = .ok text ↔ ∃ rest, printed = .ok rest ∧ text = front ++ rest := by
  cases printed with
  | error fault => simp [prepend]
  | ok rest => simp [prepend, eq_comm]

/-- The loop of `toString` after a round; `entry` was on top of the stack. -/
def resume (fuel rounds : ℕ) (entry : Value δ × ℕ × UInt32) (stack : List (Value δ × ℕ × UInt32)) :
    Printed δ × List (List (Bytes × Value δ)) → Except Fault Bytes
  | (.done out, iters) => prepend out (toStringLoop fuel rounds stack iters)
  | (.nested count child news out, iters) =>
    prepend out (toStringLoop fuel rounds
      ((child, 0, entry.2.2 + 1) :: (entry.1, count, entry.2.2) :: stack) (news ++ iters))
  | (.kept out, iters) => prepend out (toStringLoop fuel rounds (entry :: stack) iters)

theorem toStringLoop_succ (fuel rounds : ℕ) (value : Value δ) (count : ℕ) (level : UInt32)
    (stack : List (Value δ × ℕ × UInt32)) (iters : List (List (Bytes × Value δ))) :
    toStringLoop fuel (rounds + 1) ((value, count, level) :: stack) iters =
      toStringTop fuel value count level iters >>= resume fuel rounds (value, count, level) stack := by
  rw [toStringLoop]
  cases toStringTop fuel value count level iters with
  | error fault => rfl
  | ok called =>
    obtain ⟨printed, iters⟩ := called
    cases printed <;> rfl

theorem resume_after (fuel rounds : ℕ) (entry : Value δ × ℕ × UInt32)
    (stack : List (Value δ × ℕ × UInt32)) (front : Bytes) (printed : Printed δ)
    (iters : List (List (Bytes × Value δ))) :
    resume fuel rounds entry stack (printed.after front, iters) =
      prepend front (resume fuel rounds entry stack (printed, iters)) := by
  cases printed <;> rw [Printed.after, resume, resume, prepend_prepend]

/-- With rounds enough inside of `toStringList`, the loop comes from the first stacks to the
others. -/
def Reaches (before after : List (Value δ × ℕ × UInt32) × List (List (Bytes × Value δ))) : Prop :=
  ∃ n text, ∀ fuel > 2 ^ 32, ∀ rounds,
    toStringLoop fuel (rounds + n) before.1 before.2 = prepend text (toStringLoop fuel rounds after.1 after.2)

theorem Reaches.trans {a b c : List (Value δ × ℕ × UInt32) × List (List (Bytes × Value δ))}
    (hab : Reaches a b) (hbc : Reaches b c) : Reaches a c := by
  obtain ⟨n, text, hab⟩ := hab
  obtain ⟨m, text', hbc⟩ := hbc
  refine ⟨m + n, text ++ text', fun fuel hfuel rounds => ?_⟩
  rw [← Nat.add_assoc, hab fuel hfuel, hbc fuel hfuel, prepend_prepend]

/-- A value on top of the stack is printed, and the loop goes on with what is below it. -/
def Prints (value : Value δ) : Prop :=
  ∀ level stack iters, Reaches ((value, 0, level) :: stack, iterOf value ++ iters) (stack, iters)

theorem toStringElements_word {values : List (Value δ)} {count : ℕ} {value : Value δ}
    (hget : values[count]? = some value) (hword : value.isContainer = false) (level : UInt32)
    (fuel : ℕ) :
    toStringElements values level (fuel + 1) count =
      (Printed.after (lead 91 count values.length level ++
          (value.toStringBasic ++ trail 93 ((count + 1) % 2 ^ 32) values.length level))) <$>
        toStringElements values level fuel ((count + 1) % 2 ^ 32) := by
  rw [toStringElements, hget]
  cases value with
  | list _ => cases hword
  | dict _ => cases hword
  | _ => rfl

theorem toStringElements_container {values : List (Value δ)} {count : ℕ} {value : Value δ}
    (hget : values[count]? = some value) (hcontainer : value.isContainer) (level : UInt32)
    (fuel : ℕ) :
    toStringElements values level (fuel + 1) count =
      .ok (.nested ((count + 1) % 2 ^ 32) value (iterOf value) (lead 91 count values.length level)) := by
  rw [toStringElements, hget]
  cases value with
  | list _ => rfl
  | dict _ => rfl
  | _ => cases hcontainer

/-- Inside of `toStringList` the elements from `count` on are printed, and then what is on the
stack. -/
def ElementsPrint (values : List (Value δ)) (count : ℕ) : Prop :=
  ∀ level stack iters, ∃ n text, ∀ fuel > 2 ^ 32, ∀ f, values.length < count + f → ∀ c rounds,
    (toStringElements values level f count >>= fun printed =>
      resume fuel (rounds + n) (.list values, c, level) stack (printed, iters)) =
    prepend text (toStringLoop fuel rounds stack iters)

theorem ElementsPrint.reaches {values : List (Value δ)} {count : ℕ} (h : ElementsPrint values count)
    (hne : values ≠ []) (hsize : values.length < 2 ^ 32) (level : UInt32)
    (stack : List (Value δ × ℕ × UInt32)) (iters : List (List (Bytes × Value δ))) :
    Reaches ((.list values, count, level) :: stack, iters) (stack, iters) := by
  obtain ⟨n, text, hn⟩ := h level stack iters
  refine ⟨n + 1, trail 93 count values.length level ++ text, fun fuel hfuel rounds => ?_⟩
  have hrun := hn fuel hfuel fuel (by omega) count rounds
  rw [← Nat.add_assoc, toStringLoop_succ, toStringTop, toStringList, if_neg hne, ← prepend_prepend,
    ← hrun]
  cases toStringElements values level fuel count with
  | error fault => rfl
  | ok printed => exact resume_after _ _ _ _ _ _ _

theorem elementsPrint {values : List (Value δ)} (hsize : values.length < 2 ^ 32)
    (hprints : ∀ v ∈ values, v.isContainer → Prints v) (count : ℕ) (hcount : count ≤ values.length) :
    ElementsPrint values count := by
  induction hrest : values.length - count generalizing count with
  | zero =>
    have hnone : values[count]? = none := List.getElem?_eq_none (by omega)
    intro level stack iters
    refine ⟨0, [], fun fuel _ f hf c rounds => ?_⟩
    obtain ⟨f, rfl⟩ := Nat.exists_eq_succ_of_ne_zero (by omega : f ≠ 0)
    rw [toStringElements, hnone]
    rfl
  | succ rest ih =>
    have hlt : count < values.length := by omega
    have hnext : (count + 1) % 2 ^ 32 = count + 1 := Nat.mod_eq_of_lt (by omega)
    have hget : values[count]? = some values[count] := List.getElem?_eq_getElem hlt
    have ih := ih (count + 1) hlt (by omega)
    intro level stack iters
    by_cases hcontainer : values[count].isContainer
    · have hchild := hprints _ (List.getElem_mem hlt) hcontainer (level + 1)
        ((.list values, count + 1, level) :: stack) iters
      have hbehind := ih.reaches (List.ne_nil_of_length_pos (by omega)) hsize level stack iters
      obtain ⟨n, text, hn⟩ := hchild.trans hbehind
      refine ⟨n, lead 91 count values.length level ++ text, fun fuel hfuel f hf c rounds => ?_⟩
      obtain ⟨f, rfl⟩ := Nat.exists_eq_succ_of_ne_zero (by omega : f ≠ 0)
      rw [toStringElements_container hget hcontainer, hnext, ok_bind, resume, hn fuel hfuel,
        prepend_prepend]
    · have hword : values[count].isContainer = false := by simpa using hcontainer
      obtain ⟨n, text, hn⟩ := ih level stack iters
      refine ⟨n, lead 91 count values.length level ++ (values[count].toStringBasic ++
        trail 93 (count + 1) values.length level) ++ text, fun fuel hfuel f hf c rounds => ?_⟩
      obtain ⟨f, rfl⟩ := Nat.exists_eq_succ_of_ne_zero (by omega : f ≠ 0)
      have hrun := hn fuel hfuel f (by omega) c rounds
      rw [toStringElements_word hget hword, hnext, ← prepend_prepend, ← hrun]
      cases toStringElements values level f (count + 1) with
      | error fault => rfl
      | ok printed => exact resume_after _ _ _ _ _ _ _

theorem prints_list {values : List (Value δ)} (hsize : values.length < 2 ^ 32)
    (hprints : ∀ v ∈ values, v.isContainer → Prints v) : Prints (.list values) := by
  intro level stack iters
  by_cases hne : values = []
  · subst hne
    refine ⟨1, [91, 93], fun fuel _ rounds => ?_⟩
    rw [toStringLoop_succ]
    rfl
  · exact (elementsPrint hsize hprints 0 (Nat.zero_le _)).reaches hne hsize level stack iters

theorem toStringMembers_word {value : Value δ} (hword : value.isContainer = false) (size : ℕ)
    (level : UInt32) (count : ℕ) (name : Bytes) (iter : List (Bytes × Value δ)) :
    toStringMembers size level count ((name, value) :: iter) =
      (toStringMembers size level ((count + 1) % 2 ^ 32) iter).after
        (lead 123 count size level ++ 34 :: (name ++ [34, 58, 32]) ++
          (value.toStringBasic ++ trail 125 ((count + 1) % 2 ^ 32) size level)) := by
  rw [toStringMembers.eq_def]
  cases value with
  | list _ => cases hword
  | dict _ => cases hword
  | _ => rfl

theorem toStringMembers_container {value : Value δ} (hcontainer : value.isContainer) (size : ℕ)
    (level : UInt32) (count : ℕ) (name : Bytes) (iter : List (Bytes × Value δ)) :
    toStringMembers size level count ((name, value) :: iter) =
      .nested ((count + 1) % 2 ^ 32) value (iterOf value ++ [iter])
        (lead 123 count size level ++ 34 :: (name ++ [34, 58, 32])) := by
  rw [toStringMembers.eq_def]
  cases value with
  | list _ => rfl
  | dict _ => rfl
  | _ => cases hcontainer

theorem members_reach {members iter : List (Bytes × Value δ)} (hne : members ≠ [])
    (hprints : ∀ e ∈ iter, e.2.isContainer → Prints e.2) (count : ℕ) (level : UInt32)
    (stack : List (Value δ × ℕ × UInt32)) (iters : List (List (Bytes × Value δ))) :
    (∃ n text, ∀ fuel > 2 ^ 32, ∀ c rounds,
      resume fuel (rounds + n) (.dict members, c, level) stack
        (toStringMembers members.length level count iter, iters) =
      prepend text (toStringLoop fuel rounds stack iters)) ∧
    Reaches ((.dict members, count, level) :: stack, iter :: iters) (stack, iters) := by
  have hreaches {count : ℕ} {iter : List (Bytes × Value δ)}
      (h : ∃ n text, ∀ fuel > 2 ^ 32, ∀ c rounds,
        resume fuel (rounds + n) (.dict members, c, level) stack
          (toStringMembers members.length level count iter, iters) =
        prepend text (toStringLoop fuel rounds stack iters)) :
      Reaches ((.dict members, count, level) :: stack, iter :: iters) (stack, iters) := by
    obtain ⟨n, text, hn⟩ := h
    refine ⟨n + 1, trail 125 count members.length level ++ text, fun fuel hfuel rounds => ?_⟩
    rw [← Nat.add_assoc, toStringLoop_succ, toStringTop, toStringDict, if_neg hne, ok_bind,
      resume_after, hn fuel hfuel, prepend_prepend]
  rw [and_iff_left_of_imp hreaches]
  induction iter generalizing count with
  | nil => exact ⟨0, [], fun fuel _ c rounds => rfl⟩
  | cons e iter ih =>
    obtain ⟨name, value⟩ := e
    obtain ⟨hvalue, hiter⟩ := List.forall_mem_cons.mp hprints
    have ih := ih hiter ((count + 1) % 2 ^ 32)
    by_cases hcontainer : value.isContainer
    · have hchild : Reaches ((value, 0, level + 1) ::
          (.dict members, (count + 1) % 2 ^ 32, level) :: stack, iterOf value ++ iter :: iters)
          ((.dict members, (count + 1) % 2 ^ 32, level) :: stack, iter :: iters) :=
        hvalue hcontainer (level + 1) _ _
      obtain ⟨n, text, hn⟩ := hchild.trans (hreaches ih)
      refine ⟨n, lead 123 count members.length level ++ 34 :: (name ++ [34, 58, 32]) ++ text,
        fun fuel hfuel c rounds => ?_⟩
      rw [toStringMembers_container hcontainer, resume, List.append_assoc, List.singleton_append,
        hn fuel hfuel, prepend_prepend]
    · have hword : value.isContainer = false := by simpa using hcontainer
      obtain ⟨n, text, hn⟩ := ih
      refine ⟨n, lead 123 count members.length level ++ 34 :: (name ++ [34, 58, 32]) ++
        (value.toStringBasic ++ trail 125 ((count + 1) % 2 ^ 32) members.length level) ++ text,
        fun fuel hfuel c rounds => ?_⟩
      rw [toStringMembers_word hword, resume_after, hn fuel hfuel, prepend_prepend]

theorem prints_dict {members : List (Bytes × Value δ)}
    (hprints : ∀ e ∈ members, e.2.isContainer → Prints e.2) : Prints (.dict members) := by
  intro level stack iters
  by_cases hne : members = []
  · subst hne
    refine ⟨1, [123, 125], fun fuel _ rounds => ?_⟩
    rw [toStringLoop_succ]
    rfl
  · exact (members_reach hne hprints 0 level stack iters).2

/-- A container is printed when no list in it is too long for its count. -/
theorem prints {value : Value δ} (hshort : ¬ Json.ContainsLong value) (hcontainer : value.isContainer) :
    Prints value := by
  induction value using Value.tree_induction with
  | list values ih =>
    have hsize : values.length < 2 ^ 32 := by
      by_contra hlong
      exact hshort ⟨values, .self _, not_lt.mp hlong⟩
    refine prints_list hsize fun v hv => ih v hv fun hlong => ?_
    obtain ⟨long, hinside, hlength⟩ := hlong
    exact hshort ⟨long, .element hv hinside, hlength⟩
  | dict members ih =>
    refine prints_dict fun e he => ih e he fun hlong => ?_
    obtain ⟨long, hinside, hlength⟩ := hlong
    exact hshort ⟨long, .member he hinside, hlength⟩
  | _ => cases hcontainer

theorem toString_eq (fuel : ℕ) (value : Value δ) :
    toString fuel value = toStringLoop fuel fuel [(value, 0, 1)] (iterOf value) := by
  cases value <;> rfl

theorem toString_of_prints {value : Value δ} (h : Prints value) :
    ∃ n text, ∀ fuel ≥ n, toString fuel value = .ok text := by
  obtain ⟨n, text, hn⟩ := h 1 [] []
  refine ⟨max n (2 ^ 32 + 1), text, fun fuel hfuel => ?_⟩
  obtain ⟨rounds, hrounds⟩ := Nat.exists_eq_add_of_le' (le_of_max_le_left hfuel)
  have hrun := hn fuel (le_of_max_le_right hfuel) rounds
  dsimp only at hrun
  rw [List.append_nil, ← hrounds, ← toString_eq] at hrun
  rw [hrun, toStringLoop]
  simp [prepend]

theorem toStringLoop_word {value : Value δ} (hword : value.isContainer = false) (fuel rounds count : ℕ)
    (level : UInt32) (stack : List (Value δ × ℕ × UInt32)) (iters : List (List (Bytes × Value δ)))
    (text : Bytes) : toStringLoop fuel rounds ((value, count, level) :: stack) iters ≠ .ok text := by
  induction rounds generalizing text with
  | zero =>
    intro heq
    cases heq
  | succ rounds ih =>
    have htop : toStringTop fuel value count level iters =
        .ok (.kept (writeSpace (level * 2).toNat ++ (value.toStringBasic ++ [10])), iters) := by
      cases value with
      | list _ => cases hword
      | dict _ => cases hword
      | _ => rfl
    rw [toStringLoop_succ, htop, ok_bind, resume]
    intro heq
    obtain ⟨rest, hrest, -⟩ := prepend_eq_ok.mp heq
    exact ih rest hrest

end Sese.Value
