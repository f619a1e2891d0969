import Mathlib.Data.List.Basic
import Mathlib.Tactic

/-!
# A set of first-in-first-out queues

Messages are put under a key, and `got k` takes all the messages of one key. The
history of such a store is the list of its events, oldest first. `contents` is what
the store has to hold after a history, in the order of arrival, and `sinceLast` is
what the next `got k` has to return. A history is `Fifo` if each of its `got` events
returned just that.
-/
namespace Foundation

variable {κ μ : Type*} [DecidableEq κ]

inductive MailEvent (κ μ : Type*)
  | put (k : κ) (m : μ)
  | refused (k : κ) (m : μ)
  | got (k : κ) (ms : List μ)
  deriving DecidableEq

namespace MailEvent

/-- The messages put under `k` since the last `got k`, given those before the event. -/
def sinceLastStep (k : κ) (ms : List μ) : MailEvent κ μ → List μ
  | .put k' m => if k' = k then ms ++ [m] else ms
  | .refused _ _ => ms
  | .got k' _ => if k' = k then [] else ms

def contentsStep (q : List (κ × μ)) : MailEvent κ μ → List (κ × μ)
  | .put k m => q ++ [(k, m)]
  | .refused _ _ => q
  | .got k _ => q.filter fun e => e.1 ≠ k

end MailEvent

open MailEvent

def sinceLast (k : κ) (es : List (MailEvent κ μ)) : List μ := es.foldl (sinceLastStep k) []

def contents (es : List (MailEvent κ μ)) : List (κ × μ) := es.foldl contentsStep []

def queueOf (k : κ) (q : List (κ × μ)) : List μ := (q.filter fun e => e.1 = k).map Prod.snd

def Fifo (es : List (MailEvent κ μ)) : Prop :=
  ∀ past k ms future, es = past ++ .got k ms :: future → ms = sinceLast k past

@[simp] theorem contents_append (es : List (MailEvent κ μ)) (e : MailEvent κ μ) :
    contents (es ++ [e]) = contentsStep (contents es) e := by
  simp [contents]

@[simp] theorem sinceLast_append (k : κ) (es : List (MailEvent κ μ)) (e : MailEvent κ μ) :
    sinceLast k (es ++ [e]) = sinceLastStep k (sinceLast k es) e := by
  simp [sinceLast]

theorem queueOf_filter_ne (k k' : κ) (q : List (κ × μ)) :
    queueOf k (q.filter fun e => e.1 ≠ k') = if k' = k then [] else queueOf k q := by
  unfold queueOf
  rw [List.filter_filter]
  split_ifs with h
  · subst h
    simp
  · congr 1
    apply List.filter_congr
    intro e _
    by_cases he : e.1 = k
    · have hne : e.1 ≠ k' := fun hk => h (hk.symm.trans he)
      simp [he ▸ hne, he]
    · simp [he]

theorem queueOf_contentsStep (k : κ) (q : List (κ × μ)) (e : MailEvent κ μ) :
    queueOf k (contentsStep q e) = sinceLastStep k (queueOf k q) e := by
  cases e with
  | put k' m =>
    by_cases h : k' = k
    · simp [contentsStep, sinceLastStep, queueOf, h]
    · simp [contentsStep, sinceLastStep, queueOf, h]
  | refused k' m => rfl
  | got k' ms => exact queueOf_filter_ne k k' q

/-- The queue of a key in the store is what has been put under it and not taken yet. -/
theorem queueOf_contents (k : κ) (es : List (MailEvent κ μ)) :
    queueOf k (contents es) = sinceLast k es := by
  induction es using List.reverseRecOn with
  | nil => rfl
  | append_singleton es e ih =>
    rw [contents_append, sinceLast_append, queueOf_contentsStep, ih]

theorem Fifo.nil : Fifo ([] : List (MailEvent κ μ)) := by
  intro past k ms future h
  simp at h

theorem Fifo.append {es : List (MailEvent κ μ)} {e : MailEvent κ μ} (h : Fifo es)
    (he : ∀ k ms, e = .got k ms → ms = sinceLast k es) : Fifo (es ++ [e]) := by
  intro past k ms future heq
  rcases List.eq_nil_or_concat' future with rfl | ⟨future, last, rfl⟩
  · obtain ⟨rfl, hlast⟩ := List.append_inj' heq rfl
    exact he k ms (List.singleton_injective hlast)
  · rw [← List.cons_append, ← List.append_assoc] at heq
    exact h past k ms future (List.append_inj' heq rfl).1

end Foundation
