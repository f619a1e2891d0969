import Mathlib.Tactic.SplitIfs
import Mathlib.Tactic.TypeStar
import Mathlib.Data.List.Induction
import Mathlib.Data.List.Infix

/-!
# Runs of a partial step function

A system is a function `step : σ → ε → Except φ σ`: in state `s` the event `e`
either leads to one next state or stops the system for a reason of type `φ`.
`RunWhere step ok s es t` is a finite run from `s` to `t` in which the condition
`ok` held, at every step, of the state before the step and of its event. The
unrestricted runs are those of the condition `Unrestricted`.

`RunWhere.invariant` is the induction over runs that most clients need: what
holds at the start and is kept by every step that meets the condition holds in
every state reached. `invariant_events` and `invariant_seen` are the same rule for
what relates the state to the events so far, or to what could be `seen` of them.

A machine (`serve`) answers every event, or stops; a specification gives to every event one
answer. `serve_iff_forall_prefix` says when the answers of a machine are those of its
specification, and exactly when that is so if the machine is right only while a condition is met.
-/
namespace Foundation

variable {σ ε φ : Type*}

def Unrestricted : σ → ε → Prop := fun _ _ => True

inductive RunWhere (step : σ → ε → Except φ σ) (ok : σ → ε → Prop) : σ → List ε → σ → Prop
  | nil (s : σ) : RunWhere step ok s [] s
  | cons {s t u : σ} {e : ε} {es : List ε} :
      ok s e → step s e = .ok t → RunWhere step ok t es u → RunWhere step ok s (e :: es) u

namespace RunWhere

variable {step : σ → ε → Except φ σ} {ok ok' : σ → ε → Prop} {s t u : σ} {es : List ε}

/-- The invariant rule. The conclusion is about the last state of a run; since
every prefix of a run is a run, it speaks about every state reached. -/
theorem invariant (I : σ → Prop)
    (hstep : ∀ s e t, I s → ok s e → step s e = .ok t → I t)
    (hrun : RunWhere step ok s es t) (hs : I s) : I t := by
  induction hrun with
  | nil => exact hs
  | cons hok hst _ ih => exact ih (hstep _ _ _ hs hok hst)

/-- With an invariant, the condition that a run meets at every step may be replaced
by a consequence. -/
theorem strengthen (I : σ → Prop)
    (hstep : ∀ s e t, I s → ok s e → step s e = .ok t → I t)
    (himp : ∀ s e, I s → ok s e → ok' s e)
    (hrun : RunWhere step ok s es t) (hs : I s) : RunWhere step ok' s es t := by
  induction hrun with
  | nil => exact .nil _
  | cons hok hst _ ih => exact .cons (himp _ _ hs hok) hst (ih (hstep _ _ _ hs hok hst))

theorem unique (hrun : RunWhere step ok s es t) (hrun' : RunWhere step ok' s es u) : t = u := by
  induction hrun with
  | nil =>
    cases hrun'
    rfl
  | cons _ hst _ ih =>
    cases hrun' with
    | cons _ hst' hrest =>
      rw [hst] at hst'
      cases hst'
      exact ih hrest

theorem foldlM_eq (hrun : RunWhere step ok s es t) : es.foldlM step s = .ok t := by
  induction hrun with
  | nil => rfl
  | cons _ hst _ ih =>
    rw [List.foldlM_cons, hst]
    exact ih

theorem last {e : ε} (hrun : RunWhere step ok s (es ++ [e]) u) :
    ∃ t, RunWhere step ok s es t ∧ ok t e ∧ step t e = .ok u := by
  induction es generalizing s with
  | nil =>
    cases hrun with
    | cons hok hst hrest =>
      cases hrest
      exact ⟨s, .nil s, hok, hst⟩
  | cons d es ih =>
    cases hrun with
    | cons hok hst hrest =>
      obtain ⟨t, hrun, hok', hst'⟩ := ih hrest
      exact ⟨t, .cons hok hst hrun, hok', hst'⟩

theorem snoc {e : ε} (hrun : RunWhere step ok s es t) (hok : ok t e) (hst : step t e = .ok u) :
    RunWhere step ok s (es ++ [e]) u := by
  induction hrun with
  | nil => exact .cons hok hst (.nil _)
  | cons hok' hst' _ ih => exact .cons hok' hst' (ih hok hst)

/-- The invariant rule for a relation between the events so far and the state. -/
theorem invariant_events (I : List ε → σ → Prop) (h₀ : I [] s)
    (hstep : ∀ es s e t, I es s → ok s e → step s e = .ok t → I (es ++ [e]) t)
    (hrun : RunWhere step ok s es t) : I es t := by
  induction es using List.reverseRecOn generalizing t with
  | nil =>
    cases hrun
    exact h₀
  | append_singleton es e ih =>
    obtain ⟨t, hrun, hok, hst⟩ := hrun.last
    exact hstep es t e _ (ih hrun) hok hst

/-- The rule for exact conditions. What is asked of a run is `P`, and `I` is what there is to
say of it while nothing went wrong; both may speak about the events so far. If a step that
meets `ok` keeps `I`, and `P` does not survive a step that does not meet it, then the runs that
meet `ok` throughout are those along which `P` holds throughout. -/
theorem exists_iff_forall_prefix_of_imp (I P : List ε → σ → Prop) (h₀ : I [] s)
    (hIP : ∀ es t, I es t → P es t)
    (hkeep : ∀ es t e, I es t → ok t e → ok' t e ∧ ∃ u, step t e = .ok u ∧ I (es ++ [e]) u)
    (hneed : ∀ es t e u, I es t → ok' t e → step t e = .ok u → P (es ++ [e]) u → ok t e) :
    (∃ t, RunWhere step ok s es t) ↔
      ∀ pre, pre <+: es → ∃ t, RunWhere step ok' s pre t ∧ P pre t := by
  have hgood : ∀ es t, RunWhere step ok s es t → RunWhere step ok' s es t ∧ I es t := by
    intro es
    induction es using List.reverseRecOn with
    | nil =>
      rintro t ⟨⟩
      exact ⟨.nil s, h₀⟩
    | append_singleton es e ih =>
      intro u hrun
      obtain ⟨t, hrun, hmeets, hst⟩ := hrun.last
      obtain ⟨hrun', hinv⟩ := ih t hrun
      obtain ⟨hok', u', hst', hinv'⟩ := hkeep es t e hinv hmeets
      obtain rfl : u = u' := by
        rw [hst] at hst'
        exact Except.ok.inj hst'
      exact ⟨hrun'.snoc hok' hst, hinv'⟩
  induction es using List.reverseRecOn with
  | nil =>
    constructor
    · intro _ pre hpre
      rw [List.prefix_nil.mp hpre]
      exact ⟨s, .nil s, hIP [] s h₀⟩
    · intro _
      exact ⟨s, .nil s⟩
  | append_singleton es e ih =>
    constructor
    · rintro ⟨u, hrun⟩ pre hpre
      obtain ⟨t, hshort, -, -⟩ := hrun.last
      rcases List.prefix_concat_iff.mp hpre with rfl | hpre
      · obtain ⟨hrun', hinv⟩ := hgood _ u hrun
        exact ⟨u, hrun', hIP _ u hinv⟩
      · exact ih.mp ⟨t, hshort⟩ pre hpre
    · intro halong
      obtain ⟨t, hrun⟩ := ih.mpr fun pre hpre => halong pre (hpre.trans (List.prefix_append es [e]))
      obtain ⟨u, hlong, hP⟩ := halong (es ++ [e]) List.prefix_rfl
      obtain ⟨t', hshort, hok', hst⟩ := hlong.last
      obtain rfl := hrun.unique hshort
      exact ⟨u, hrun.snoc (hneed es t e u (hgood es t hrun).2 hok' hst hP) hst⟩

/-- The rule for exact conditions, for an invariant that is itself what is asked. -/
theorem exists_iff_forall_prefix (I : List ε → σ → Prop) (h₀ : I [] s)
    (hok : ∀ es t e, I es t →
      (ok t e ↔ ok' t e ∧ ∃ u, step t e = .ok u ∧ I (es ++ [e]) u)) :
    (∃ t, RunWhere step ok s es t) ↔
      ∀ pre, pre <+: es → ∃ t, RunWhere step ok' s pre t ∧ I pre t :=
  exists_iff_forall_prefix_of_imp I I h₀ (fun _ _ h => h)
    (fun es t e hinv => (hok es t e hinv).mp)
    (fun es t e u hinv hok' hst hinv' => (hok es t e hinv).mpr ⟨hok', u, hst, hinv'⟩)

end RunWhere

section Seen

variable {α : Type*}

/-- What is seen in the steps of a list of events, of one step what `see` says. -/
def seen (step : σ → ε → Except φ σ) (see : σ → ε → σ → List α) : σ → List ε → List α
  | _, [] => []
  | s, e :: es =>
    match step s e with
    | .ok t => see s e t ++ seen step see t es
    | .error _ => []

variable {step : σ → ε → Except φ σ} {see : σ → ε → σ → List α} {ok : σ → ε → Prop} {s t u : σ}
  {e : ε} {es : List ε}

theorem RunWhere.seen_concat (hrun : RunWhere step ok s es t) (hst : step t e = .ok u) :
    seen step see s (es ++ [e]) = seen step see s es ++ see t e u := by
  induction hrun with
  | nil => simp [seen, hst]
  | cons _ hst' _ ih => simp [seen, hst', ih hst]

/-- The invariant rule for a relation between what was seen so far and the state. -/
theorem RunWhere.invariant_seen (I : List α → σ → Prop) (h₀ : I [] s)
    (hstep : ∀ as s e t, I as s → ok s e → step s e = .ok t → I (as ++ see s e t) t)
    (hrun : RunWhere step ok s es t) : I (seen step see s es) t := by
  induction es using List.reverseRecOn generalizing t with
  | nil =>
    cases hrun
    exact h₀
  | append_singleton es e ih =>
    obtain ⟨t, hrun, hok, hst⟩ := hrun.last
    rw [hrun.seen_concat hst]
    exact hstep _ t e _ (ih hrun) hok hst

end Seen

/-- The run of a list of events, checking the condition before every step. -/
def runChecked (step : σ → ε → Except φ σ) (ok : σ → ε → Prop) [∀ s e, Decidable (ok s e)] :
    σ → List ε → Option σ
  | s, [] => some s
  | s, e :: es =>
    if ok s e then
      match step s e with
      | .ok t => runChecked step ok t es
      | .error _ => none
    else none

theorem runChecked_sound {step : σ → ε → Except φ σ} {ok : σ → ε → Prop}
    [∀ s e, Decidable (ok s e)] {s t : σ} {es : List ε}
    (h : runChecked step ok s es = some t) : RunWhere step ok s es t := by
  induction es generalizing s with
  | nil =>
    cases h
    exact .nil _
  | cons e es ih =>
    simp only [runChecked] at h
    split_ifs at h with hok
    cases hst : step s e with
    | error x => simp [hst] at h
    | ok m =>
      rw [hst] at h
      exact .cons hok hst (ih h)

theorem exists_run_of_any (step : σ → ε → Except φ σ) (ok : σ → ε → Prop)
    [∀ s e, Decidable (ok s e)] (s : σ) (es : List ε) (p : σ → Bool)
    (h : (runChecked step ok s es).any p) : ∃ t, RunWhere step ok s es t ∧ p t := by
  cases hrun : runChecked step ok s es with
  | none => simp [hrun] at h
  | some t => exact ⟨t, runChecked_sound hrun, by simpa [hrun] using h⟩

instance : ∀ (s : σ) (e : ε), Decidable (Unrestricted s e) := fun _ _ => isTrue trivial

variable {τ α : Type*}

/-- One event of a machine, with the answers that it gave so far. -/
def serve (act : σ → ε → Except φ (α × σ)) (s : σ × List α) (e : ε) : Except φ (σ × List α) := do
  let r ← act s.1 e
  return (r.2, s.2 ++ [r.1])

/-- The answers that a specification gives to a list of events. -/
def answers (answer : τ → ε → α) (next : τ → ε → τ) : τ → List ε → List α
  | _, [] => []
  | q, e :: es => answer q e :: answers answer next (next q e) es

theorem answers_concat (answer : τ → ε → α) (next : τ → ε → τ) (q : τ) (es : List ε) (e : ε) :
    answers answer next q (es ++ [e]) =
      answers answer next q es ++ [answer (es.foldl next q) e] := by
  induction es generalizing q with
  | nil => rfl
  | cons d es ih => simp only [List.cons_append, answers, List.foldl_cons, ih]

theorem serve_ok {act : σ → ε → Except φ (α × σ)} {s u : σ × List α} {e : ε} :
    serve act s e = .ok u ↔ ∃ a, act s.1 e = .ok (a, u.1) ∧ u.2 = s.2 ++ [a] := by
  obtain ⟨t, as⟩ := u
  cases h : act s.1 e with
  | error x => simp [serve, h, bind, Except.bind]
  | ok r =>
    obtain ⟨a, t'⟩ := r
    simp only [serve, h, bind, Except.bind, pure, Except.pure, Except.ok.injEq, Prod.mk.injEq]
    constructor
    · rintro ⟨rfl, rfl⟩
      exact ⟨a, ⟨rfl, rfl⟩, rfl⟩
    · rintro ⟨_, ⟨rfl, rfl⟩, rfl⟩
      exact ⟨rfl, rfl⟩

/-- The machine is in the relation `R` to its specification while nothing went wrong; what is
asked, beside the right answers, is the relation `Q`. -/
theorem serve_iff_forall_prefix {act : σ → ε → Except φ (α × σ)} {ok ok' : σ → ε → Prop}
    {answer : τ → ε → α} {next : τ → ε → τ} {s : σ} {q : τ} {es : List ε} (R Q : σ → τ → Prop)
    (h₀ : R s q) (hRQ : ∀ s q, R s q → Q s q)
    (hkeep : ∀ s q e, R s q → ok s e →
      ok' s e ∧ ∃ t, act s e = .ok (answer q e, t) ∧ R t (next q e))
    (hneed : ∀ s q e t, R s q → ok' s e → act s e = .ok (answer q e, t) → Q t (next q e) → ok s e) :
    (∃ t, RunWhere (serve act) (fun s e => ok s.1 e) (s, []) es t) ↔
      ∀ pre, pre <+: es → ∃ t, RunWhere (serve act) (fun s e => ok' s.1 e) (s, []) pre t ∧
        t.2 = answers answer next q pre ∧ Q t.1 (pre.foldl next q) := by
  apply RunWhere.exists_iff_forall_prefix_of_imp
    (fun es (t : σ × List α) => t.2 = answers answer next q es ∧ R t.1 (es.foldl next q))
    (fun es (t : σ × List α) => t.2 = answers answer next q es ∧ Q t.1 (es.foldl next q))
    ⟨rfl, h₀⟩
  · exact fun _ _ h => ⟨h.1, hRQ _ _ h.2⟩
  · rintro es ⟨t, as⟩ e ⟨rfl, hrel⟩ hmeets
    obtain ⟨hok', u, hact, hrel'⟩ := hkeep t _ e hrel hmeets
    rw [answers_concat, List.foldl_concat]
    exact ⟨hok', (u, _), serve_ok.mpr ⟨_, hact, rfl⟩, rfl, hrel'⟩
  · rintro es ⟨t, as⟩ e u ⟨rfl, hrel⟩ hok' hserve ⟨hans, hQ⟩
    rw [answers_concat] at hans
    rw [List.foldl_concat] at hQ
    obtain ⟨a, hact, hlast⟩ := serve_ok.mp hserve
    obtain rfl : a = answer (es.foldl next q) e := by
      rw [hlast] at hans
      simpa using hans
    exact hneed t _ e u.1 hrel hok' hact hQ

end Foundation
