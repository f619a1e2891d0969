import Mathlib.Data.List.Infix
import Mathlib.Data.List.Induction
import Mathlib.Tactic.SplitIfs

/-!
# Lexical paths

A path is a list of moves in a tree of names: to stay, to go up to the parent, or down
to a child. Its normal form is a `Place`: so many steps up, then down along names. A
walk may be confined to a root, which is its own parent.

`walk_eq` composes two paths in terms of their normal forms, and `below_walk_iff` says
when a walk ends at or below the place where it began.
-/
namespace Foundation

variable {α : Type*}

inductive Move (α : Type*)
  | stay
  | up
  | down (name : α)
  deriving DecidableEq

/-- So many steps up, then down along the names, the outermost first. -/
structure Place (α : Type*) where
  ups : ℕ
  names : List α
  deriving DecidableEq

namespace Place

/-- The place after one more move; at a root there is no way up. -/
def move (rooted : Bool) (p : Place α) : Move α → Place α
  | .stay => p
  | .up =>
    if p.names.isEmpty then if rooted then p else { p with ups := p.ups + 1 }
    else { p with names := p.names.dropLast }
  | .down name => { p with names := p.names ++ [name] }

def walk (rooted : Bool) (p : Place α) (l : List (Move α)) : Place α := l.foldl (move rooted) p

def normal (rooted : Bool) (l : List (Move α)) : Place α := walk rooted ⟨0, []⟩ l

def Below (p q : Place α) : Prop := q.ups = p.ups ∧ p.names <+: q.names

instance [DecidableEq α] (p q : Place α) : Decidable (p.Below q) :=
  inferInstanceAs (Decidable (_ ∧ _))

theorem walk_append (rooted : Bool) (p : Place α) (l l' : List (Move α)) :
    walk rooted p (l ++ l') = walk rooted (walk rooted p l) l' :=
  List.foldl_append

/-- A walk of which the normal form is known: it climbs, losing names at the end, and
then goes down. What it climbs beyond the names is lost at a root. -/
theorem walk_eq (rooted : Bool) (p : Place α) (l : List (Move α)) :
    walk rooted p l =
      ⟨if rooted then p.ups else p.ups + ((normal false l).ups - p.names.length),
        p.names.take (p.names.length - (normal false l).ups) ++ (normal false l).names⟩ := by
  induction l using List.reverseRecOn with
  | nil => cases rooted <;> simp [walk, normal]
  | append_singleton l m ih =>
    have hnormal : normal false (l ++ [m]) = (normal false l).move false m :=
      walk_append false ⟨0, []⟩ l [m]
    have hwalk : walk rooted p (l ++ [m]) = (walk rooted p l).move rooted m :=
      walk_append rooted p l [m]
    rw [hnormal, hwalk, ih]
    obtain ⟨ups, names⟩ := normal false l
    cases m with
    | stay => rfl
    | down name => simp [move]
    | up =>
      rcases List.eq_nil_or_concat names with rfl | ⟨names, name, rfl⟩
      · -- the normal form climbs: a name of `p` is lost, or `p` has none left
        have hdrop : (p.names.take (p.names.length - ups)).dropLast =
            p.names.take (p.names.length - (ups + 1)) := by
          rw [List.dropLast_eq_take, List.length_take, List.take_take]
          congr 1
          omega
        by_cases hleft : ups < p.names.length
        · have hne : p.names.take (p.names.length - ups) ≠ [] := by
            intro hnil
            have hlen := congrArg List.length hnil
            simp at hlen
            omega
          have hups : ups + 1 - p.names.length = ups - p.names.length := by omega
          simp [move, hne, hdrop, hups]
        · have htake : p.names.length - ups = 0 := by omega
          have htake' : p.names.length - (ups + 1) = 0 := by omega
          have hups : ups + 1 - p.names.length = ups - p.names.length + 1 := by omega
          cases rooted <;> simp [move, htake, htake', hups, Nat.add_assoc]
      · -- the normal form loses its own last name
        simp [move, ← List.append_assoc]

/-- A walk ends at or below its start exactly when it comes back down through the names
that it has climbed past. -/
theorem below_walk_iff (rooted : Bool) (p : Place α) (l : List (Move α)) :
    p.Below (walk rooted p l) ↔
      (rooted ∨ (normal false l).ups ≤ p.names.length) ∧
        p.names.drop (p.names.length - (normal false l).ups) <+: (normal false l).names := by
  rw [walk_eq]
  obtain ⟨ups, names⟩ := normal false l
  have hups : (if rooted then p.ups else p.ups + (ups - p.names.length)) = p.ups ↔
      (rooted ∨ ups ≤ p.names.length) := by
    cases rooted with
    | true => simp
    | false =>
      simp only [Bool.false_eq_true, if_false, false_or]
      omega
  have hnames : p.names <+: p.names.take (p.names.length - ups) ++ names ↔
      p.names.drop (p.names.length - ups) <+: names := by
    conv_lhs =>
      lhs
      rw [← List.take_append_drop (p.names.length - ups) p.names]
    exact List.prefix_append_right_inj _
  exact and_congr hups hnames

end Place
end Foundation
