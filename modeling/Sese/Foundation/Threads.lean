import Mathlib.Algebra.BigOperators.Group.Finset.Basic
import Mathlib.Data.Fintype.BigOperators
import Mathlib.Logic.Function.Basic
import Mathlib.Tactic

/-!
# Threads

Every thread is at a place, and a step changes the place of one of them. The first part says what
such a step does to a mutex, to a sum over the threads, and to a map that says in whose hand a
thing is.

The second part is about an object that several threads call. What can be seen is its history, the
calls and the returns in their order. `Explains answer start h s phase` says that the history `h` can
be the one of an object whose calls take effect one after another, each at one moment between its
call and its return, as `answer` says; `s` is what the object then is and `phase` how far each thread is. A
history is `Linearizable` if it can be explained.

A concurrent implementation is shown to be linearizable by a relation between its states and
the phases of its threads. `Explained` keeps every choice of phases that fits: a thread that has
seen an answer that it may still throw away fits two phases.
-/
namespace Foundation

/-- The mutex after a step of one thread: it keeps it or not, gets it, or gives it back. -/
theorem guarded_of_move {κ : Type*} {mutex mutex' : Option κ} {locks locks' : κ → Prop} {k : κ}
    (h : ∀ l, mutex = some l ↔ locks l) (hothers : ∀ l, l ≠ k → (locks' l ↔ locks l))
    (hmove : (mutex' = mutex ∧ (locks' k ↔ locks k)) ∨ (mutex = none ∧ mutex' = some k ∧ locks' k) ∨
      (locks k ∧ mutex' = none ∧ ¬ locks' k)) (l : κ) : mutex' = some l ↔ locks' l := by
  by_cases hl : l = k
  · subst hl
    rcases hmove with ⟨rfl, hsame⟩ | ⟨-, rfl, hlocks⟩ | ⟨-, rfl, hlocks⟩
    · rw [h, hsame]
    · exact iff_of_true rfl hlocks
    · exact iff_of_false nofun hlocks
  · rw [hothers l hl, ← h]
    rcases hmove with ⟨rfl, -⟩ | ⟨rfl, rfl, -⟩ | ⟨hlocks, rfl, -⟩
    · rfl
    · exact iff_of_false (fun hk => hl (Option.some.inj hk).symm) nofun
    · rw [(h k).mpr hlocks]
      exact iff_of_false nofun fun hk => hl (Option.some.inj hk).symm

theorem sum_update_add {ι α M : Type*} [Fintype ι] [DecidableEq ι] [AddCommMonoid M] (f : α → M)
    (place : ι → α) (i : ι) (a : α) :
    ∑ k, f (Function.update place i a k) + f (place i) = ∑ k, f (place k) + f a := by
  rw [← Finset.add_sum_erase Finset.univ _ (Finset.mem_univ i),
    ← Finset.add_sum_erase Finset.univ (fun k => f (place k)) (Finset.mem_univ i), Function.update_self]
  have hothers : ∑ k ∈ Finset.univ.erase i, f (Function.update place i a k) =
      ∑ k ∈ Finset.univ.erase i, f (place k) := by
    apply Finset.sum_congr rfl
    intro k hk
    rw [Function.update_of_ne (Finset.ne_of_mem_erase hk)]
  rw [hothers]
  abel

theorem update_eq_iff {κ α : Type*} [DecidableEq κ] {hand : κ → α} {b : κ} {new x : α} {P : κ → Prop}
    (hb : new = x ↔ P b) (hrest : ∀ a, a ≠ b → (hand a = x ↔ P a)) (a : κ) :
    Function.update hand b new a = x ↔ P a := by
  by_cases ha : a = b
  · subst ha
    rwa [Function.update_self]
  · rw [Function.update_of_ne ha]
    exact hrest a ha

variable {ι σ κ ρ : Type*}

inductive Observation (ι κ ρ : Type*)
  | calls (i : ι) (c : κ)
  | returns (i : ι) (r : ρ)
  deriving DecidableEq

/-- How far a thread is. It is `answered` from the effect of its call to its return. -/
inductive Phase (κ ρ : Type*)
  | idle
  | called (c : κ)
  | answered (r : ρ)

variable [DecidableEq ι]

inductive Explains (answer : σ → κ → ρ × σ) (start : σ) :
    List (Observation ι κ ρ) → σ → (ι → Phase κ ρ) → Prop
  | start : Explains answer start [] start fun _ => .idle
  | calls {h s phase} {i : ι} {c : κ} : Explains answer start h s phase → phase i = .idle →
      Explains answer start (h ++ [.calls i c]) s (Function.update phase i (.called c))
  | effect {h s phase} {i : ι} {c : κ} {r : ρ} {t : σ} : Explains answer start h s phase →
      phase i = .called c → answer s c = (r, t) →
      Explains answer start h t (Function.update phase i (.answered r))
  | returns {h s phase} {i : ι} {r : ρ} : Explains answer start h s phase →
      phase i = .answered r →
      Explains answer start (h ++ [.returns i r]) s (Function.update phase i .idle)

def Linearizable (answer : σ → κ → ρ × σ) (start : σ) (h : List (Observation ι κ ρ)) : Prop :=
  ∃ s phase, Explains answer start h s phase

/-- Every choice of phases that fits explains the history. -/
def Explained (answer : σ → κ → ρ × σ) (start : σ) (fits : ι → Phase κ ρ → Prop)
    (h : List (Observation ι κ ρ)) (s : σ) : Prop :=
  ∀ phase, (∀ i, fits i (phase i)) → Explains answer start h s phase

namespace Explained

variable {answer : σ → κ → ρ × σ} {start s t : σ} {fits fits' : ι → Phase κ ρ → Prop}
  {h : List (Observation ι κ ρ)} {i : ι} {c : κ} {r : ρ}

theorem linearizable (hexpl : Explained answer start fits h s) (hfits : ∀ i, ∃ p, fits i p) :
    Linearizable answer start h := by
  choose phase hphase using hfits
  exact ⟨s, phase, hexpl phase hphase⟩

theorem narrow (hexpl : Explained answer start fits h s) (himp : ∀ j p, fits' j p → fits j p) :
    Explained answer start fits' h s := by
  intro phase hphase
  exact hexpl phase fun j => himp j _ (hphase j)

theorem before (hexpl : Explained answer start fits h s) {p : Phase κ ρ} (hi : fits i p)
    (hothers : ∀ j, j ≠ i → ∀ q, fits' j q → fits j q) {phase : ι → Phase κ ρ}
    (hphase : ∀ j, fits' j (phase j)) : Explains answer start h s (Function.update phase i p) := by
  apply hexpl
  intro j
  by_cases hj : j = i
  · subst hj
    rw [Function.update_self]
    exact hi
  · rw [Function.update_of_ne hj]
    exact hothers j hj _ (hphase j)

theorem after {phase : ι → Phase κ ρ} {p q : Phase κ ρ} (hq : phase i = q) :
    Function.update (Function.update phase i p) i q = phase := by
  rw [Function.update_idem, ← hq, Function.update_eq_self]

theorem calls (hexpl : Explained answer start fits h s) (hi : fits i .idle)
    (hothers : ∀ j, j ≠ i → ∀ q, fits' j q → fits j q) (hi' : ∀ q, fits' i q → q = .called c) :
    Explained answer start fits' (h ++ [.calls i c]) s := by
  intro phase hphase
  have hbefore := (hexpl.before hi hothers hphase).calls (c := c) (Function.update_self i _ _)
  rwa [after (hi' _ (hphase i))] at hbefore

theorem effect (hexpl : Explained answer start fits h s) (hi : fits i (.called c))
    (hothers : ∀ j, j ≠ i → ∀ q, fits' j q → fits j q) (hi' : ∀ q, fits' i q → q = .answered r)
    (hanswer : answer s c = (r, t)) : Explained answer start fits' h t := by
  intro phase hphase
  have hbefore := (hexpl.before hi hothers hphase).effect (Function.update_self i _ _) hanswer
  rwa [after (hi' _ (hphase i))] at hbefore

/-- A thread has seen an answer that leaves the object as it is, and may take it or not. -/
theorem glance (hexpl : Explained answer start fits h s) (hi : fits i (.called c))
    (hothers : ∀ j, j ≠ i → ∀ q, fits' j q → fits j q)
    (hi' : ∀ q, fits' i q → q = .called c ∨ q = .answered r) (hanswer : answer s c = (r, s)) :
    Explained answer start fits' h s := by
  intro phase hphase
  have hbefore := hexpl.before hi hothers hphase
  rcases hi' _ (hphase i) with hq | hq
  · rw [← hq, Function.update_eq_self] at hbefore
    exact hbefore
  · have heffect := hbefore.effect (Function.update_self i _ _) hanswer
    rwa [after hq] at heffect

theorem returns (hexpl : Explained answer start fits h s) (hi : fits i (.answered r))
    (hothers : ∀ j, j ≠ i → ∀ q, fits' j q → fits j q) (hi' : ∀ q, fits' i q → q = .idle) :
    Explained answer start fits' (h ++ [.returns i r]) s := by
  intro phase hphase
  have hbefore := (hexpl.before hi hothers hphase).returns (Function.update_self i _ _)
  rwa [after (hi' _ (hphase i))] at hbefore

end Explained
end Foundation
