import Mathlib.Init

/-!
# Brackets in a word

A letter of a word opens a bracket, closes one, or does neither. The brackets that are open are
kept with what closes them, the innermost one first.
-/
namespace Foundation

universe u v

/-- What a letter does, with what closes the bracket. -/
inductive Bracket (β : Type v) where
  | opening (c : β)
  | closing (c : β)
  | other
  deriving DecidableEq

variable {α : Type u} {β : Type v} [DecidableEq β] (shape : α → Bracket β)

/-- The brackets that are open behind the word; `none` if one is closed by what closes another one,
or when none is open. -/
def nest : List β → List α → Option (List β)
  | stack, [] => some stack
  | stack, a :: word =>
    match shape a with
    | .opening c => nest (c :: stack) word
    | .closing c =>
      match stack with
      | [] => none
      | d :: stack => if d = c then nest stack word else none
    | .other => nest stack word

def WellNested (word : List α) : Prop := nest shape [] word = some []

instance (word : List α) : Decidable (WellNested shape word) :=
  inferInstanceAs (Decidable (nest shape [] word = some []))

/-- The word leaves alone the brackets that are open in front of it. -/
def Neutral (word : List α) : Prop := ∀ stack, nest shape stack word = some stack

variable {shape} {a b : α} {c d : β} {word front back : List α} {stack : List β}

@[simp] theorem nest_nil : nest shape stack [] = some stack := by
  cases stack <;> rfl

theorem nest_opening (h : shape a = .opening c) :
    nest shape stack (a :: word) = nest shape (c :: stack) word := by
  cases stack <;> simp [nest, h]

theorem nest_other (h : shape a = .other) : nest shape stack (a :: word) = nest shape stack word := by
  cases stack <;> simp [nest, h]

theorem nest_closing (h : shape a = .closing c) :
    nest shape (d :: stack) (a :: word) = if d = c then nest shape stack word else none := by
  simp [nest, h]

theorem nest_append : nest shape stack (front ++ back) =
    (nest shape stack front).bind fun stack => nest shape stack back := by
  induction front generalizing stack with
  | nil => simp
  | cons a front ih =>
    rw [List.cons_append]
    cases h : shape a with
    | opening c => rw [nest_opening h, nest_opening h, ih]
    | other => rw [nest_other h, nest_other h, ih]
    | closing c =>
      cases stack with
      | nil => simp [nest, h]
      | cons d stack =>
        rw [nest_closing h, nest_closing h]
        by_cases hc : d = c
        · rw [if_pos hc, if_pos hc, ih]
        · rw [if_neg hc, if_neg hc]
          rfl

theorem neutral_nil : Neutral shape [] := fun _ => nest_nil

theorem Neutral.nest_append (h : Neutral shape front) :
    nest shape stack (front ++ back) = nest shape stack back := by
  rw [Foundation.nest_append, h]
  rfl

theorem Neutral.append (h : Neutral shape front) (h' : Neutral shape back) :
    Neutral shape (front ++ back) := fun stack => h.nest_append.trans (h' stack)

theorem Neutral.other (ha : shape a = .other) (h : Neutral shape word) : Neutral shape (a :: word) :=
  fun stack => (nest_other ha).trans (h stack)

theorem Neutral.enclose (ha : shape a = .opening c) (h : Neutral shape word)
    (hb : shape b = .closing c) : Neutral shape (a :: (word ++ [b])) := by
  intro stack
  rw [nest_opening ha, h.nest_append, nest_closing hb, if_pos rfl, nest_nil]

theorem Neutral.nest_mismatch (h : Neutral shape word) (hb : shape b = .closing c) (hne : d ≠ c) :
    nest shape (d :: stack) (word ++ [b]) = none := by
  rw [h.nest_append, nest_closing hb, if_neg hne]

end Foundation
