import Sese.Service.Http.Transitions

/-!
# The table of streams

Which identifiers are in `streams`, and how many. Streams leave the table through
RST_STREAM and through the exits of the write loop, always into `closed_streams`;
they enter it through HEADERS, which looks at `closed_streams` and at the size of
the table, and through PRIORITY, which looks at neither.
-/
namespace Sese.Service.Http

open Foundation Sese.Net.Http

namespace HttpConnectionEx

variable {env : Env} {c₀ c c' : HttpConnectionEx} {id : ℕ} {s s' : HttpStream} {S : Finset ℕ}

/-- A property of the table and of the closed streams that is kept when the state of a
stream changes and when a stream is closed. -/
structure TableInvariant (P : HttpConnectionEx → Prop) : Prop where
  congr {c c' : HttpConnectionEx} : P c → c'.streams = c.streams →
    c'.closedStreams = c.closedStreams → P c'
  setStream {c : HttpConnectionEx} {id : ℕ} {s s' : HttpStream} :
    c.streams.find? id = some s → P c → P (c.setStream id s')
  retire {c : HttpConnectionEx} (id : ℕ) (s : HttpStream) : P c → P (c.retire id s)

namespace TableInvariant

variable {P : HttpConnectionEx → Prop}

theorem setHeld (hP : TableInvariant P) (hc : P c) : P (c.setHeld id s') := by
  unfold HttpConnectionEx.setHeld
  split_ifs with h
  · obtain ⟨s, hs⟩ := Option.isSome_iff_exists.mp h
    exact hP.setStream hs hc
  · exact hP.congr hc rfl rfl

theorem handleWrite (hP : TableInvariant P) (h : c.handleWrite = .ok c') (hc : P c) : P c' := by
  refine handleWrite_invariant (P := P) ?_ ?_ ?_ ?_ ?_ ?_ h hc
  · exact fun _ hd _ => hP.congr hd rfl rfl
  · exact fun _ hd => hP.congr hd rfl rfl
  · exact fun _ _ _ _ hd _ _ => hP.congr hd rfl rfl
  · exact fun _ _ _ _ hd hfind _ _ => hP.congr (hP.setStream hfind hd) rfl rfl
  · exact fun _ id _ s' hd _ _ _ => hP.congr (hP.retire id s' hd) rfl rfl
  · intro d hd _
    unfold flush
    split_ifs
    · exact hP.congr hd rfl rfl
    · exact hP.congr hd rfl rfl

theorem action (hP : TableInvariant P)
    (hopen : c₀.opens → P c₀ → P (c₀.openStream c₀.frame.ident)) (h : Action env c₀ c c')
    (hc : P c) : P c' := by
  cases h with
  | write h => exact hP.handleWrite h hc
  | control | goaway | exceeded | once | read | latest | credit | acked =>
    exact hP.congr hc rfl rfl
  | opened h => exact hopen h hc
  | touch hfind => exact hP.setStream hfind hc
  | touchHeld | body => exact hP.setHeld hc
  | fragment _ _ hfind => exact hP.setStream hfind (hP.congr hc rfl rfl)
  | undecodable _ _ _ _ _ _ hfind => exact hP.congr (hP.setStream hfind hc) rfl rfl
  | unconvertible _ _ _ _ _ hfind => exact hP.congr (hP.setStream hfind hc) rfl rfl
  | completed _ _ _ _ _ hfind => exact hP.congr (hP.setStream hfind hc) rfl rfl
  | answered _ _ _ _ _ _ hfind => exact hP.congr (hP.setStream hfind hc) rfl rfl
  | accept => exact hP.setHeld (hP.congr hc rfl rfl)
  | replenish h => exact hP.congr (hP.handleWrite h (hP.congr hc rfl rfl)) rfl rfl
  | replenishStream h => exact hP.setHeld (hP.handleWrite h (hP.congr hc rfl rfl))
  | respond => exact hP.setHeld (hP.congr hc rfl rfl)
  | creditStream _ _ hfind => exact hP.congr (hP.setStream hfind hc) rfl rfl
  | setting _ _ h =>
    obtain ⟨_, _, _, _, _, _, _, _, _, rfl, -⟩ := applySetting_eq h
    exact hP.congr hc rfl rfl
  | @reset _ s _ hfind => exact hP.congr (hP.retire c₀.frame.ident s hc) rfl rfl

theorem outcome {cond : HttpConnectionEx → Prop} {e : Event} (hP : TableInvariant P)
    (hopen : ∀ c₀, cond c₀ → c₀.opens → P c₀ → P (c₀.openStream c₀.frame.ident))
    (hok : onFrame cond c (env, e)) (h : Outcome env c e c') (hc : P c) : P c' := by
  cases h with
  | more | stranger | tooLong | header | readFailed | lastWritten | writeFailed =>
    exact hP.congr hc rfl rfl
  | greeted _ _ h => exact hP.handleWrite h (hP.congr hc rfl rfl)
  | written _ h => exact hP.handleWrite h (hP.congr hc rfl rfl)
  | frame _ hc₀ hdel hacts =>
    subst hc₀
    exact hacts.invariant (fun _ _ hact hd => hP.action (hopen _ (hok _ hdel)) hact hd)
      (hP.congr hc rfl rfl)

end TableInvariant

def ClosedApart (c : HttpConnectionEx) : Prop := ∀ id ∈ c.closedStreams, c.streams.find? id = none

/-- The frame is PRIORITY for a stream that is closed and not in the table. -/
def reopens (c : HttpConnectionEx) : Bool :=
  c.frame.type = frameTypePriority && c.frame.length = 5 && c.frame.ident % 2 = 1 &&
    c.frame.ident ∈ c.closedStreams && !c.streams.contains c.frame.ident

/-- The streams of `S` are closed, and the closed streams are not in the table. -/
def ClosedSince (S : Finset ℕ) (c : HttpConnectionEx) : Prop :=
  S ⊆ c.closedStreams ∧ c.ClosedApart

theorem ClosedSince.setStream (hc : ClosedSince S c) (hfind : c.streams.find? id = some s) :
    ClosedSince S (c.setStream id s') := by
  refine ⟨hc.1, fun j hj => ?_⟩
  have hne : j ≠ id := by
    rintro rfl
    rw [hc.2 j hj] at hfind
    cases hfind
  exact (OrdMap.find?_insert_of_ne _ _ hne).trans (hc.2 j hj)

theorem ClosedSince.retire (hc : ClosedSince S c) (id : ℕ) (s : HttpStream) :
    ClosedSince S (c.retire id s) := by
  refine ⟨hc.1.trans (Finset.subset_insert _ _), fun j hj => ?_⟩
  by_cases hne : j = id
  · subst hne
    exact OrdMap.find?_erase_self _ _
  · have hj' : j ∈ c.closedStreams := Finset.mem_of_mem_insert_of_ne hj hne
    exact (OrdMap.find?_erase_of_ne _ hne).trans (hc.2 j hj')

theorem ClosedSince.openStream (hc : ClosedSince S c) (hopen : id ∉ c.closedStreams) :
    ClosedSince S (c.openStream id) := by
  refine ⟨hc.1, fun j hj => ?_⟩
  have hne : j ≠ id := by
    rintro rfl
    exact hopen hj
  exact (OrdMap.find?_insert_of_ne _ _ hne).trans (hc.2 j hj)

theorem tableInvariant_closedSince (S : Finset ℕ) : TableInvariant (ClosedSince S) where
  congr hc hstreams hclosed := by
    unfold ClosedSince ClosedApart
    rw [hstreams, hclosed]
    exact hc
  setStream hfind hc := hc.setStream hfind
  retire id s hc := hc.retire id s

theorem ClosedSince.outcome {e : Event} (hok : onFrame (fun c₀ => c₀.reopens = false) c (env, e))
    (h : Outcome env c e c') (hc : ClosedSince S c) : ClosedSince S c' := by
  refine (tableInvariant_closedSince S).outcome ?_ hok h hc
  intro c₀ hfresh hopens hc₀
  apply hc₀.openStream
  intro hclosed
  simp only [opens, Bool.and_eq_true, Bool.or_eq_true, decide_eq_true_eq] at hopens
  simp_all [reopens]

/-- Along every run in which no PRIORITY frame reopens a closed stream, the closed
streams and the table are disjoint, and a stream that was closed earlier in the run
is not in the table. -/
theorem closedStreams_stay_closed {es es' : List (Env × Event)}
    (hrun : RunWhere step (onFrame fun c₀ => c₀.reopens = false) start es c)
    (hrun' : RunWhere step (onFrame fun c₀ => c₀.reopens = false) c es' c') :
    c'.ClosedApart ∧ ∀ id ∈ c.closedStreams, c'.streams.find? id = none := by
  have hc : ClosedSince ∅ c := by
    refine run_invariant (ClosedSince ∅) ⟨Finset.empty_subset _, fun _ _ => rfl⟩ ?_ hrun
    exact fun _ _ _ _ hd hok h => hd.outcome hok h
  have hc' : ClosedSince c.closedStreams c' := by
    refine RunWhere.invariant (ClosedSince c.closedStreams) ?_ hrun' ⟨Finset.Subset.refl _, hc.2⟩
    exact fun _ _ _ hd hok h => hd.outcome hok (step_outcome h)
  exact ⟨hc'.2, fun id hid => hc'.2 id (hc'.1 hid)⟩

/-- A request on stream 1, which is answered at once with an empty body. -/
def answeredRun : List (Env × Event) :=
  greeting (servletService []) ++ incoming (servletService []) frameTypeHeaders 5 1 getRequest

/-- After the answer a PING arrives. -/
theorem closedStreams_stay_closed_ping : ∃ c c' : HttpConnectionEx,
    1 ∈ c.closedStreams ∧ c'.ClosedApart ∧ c'.streams.find? 1 = none := by
  obtain ⟨c, hrun, hc⟩ := exists_run_of_any step (onFrame fun c₀ => c₀.reopens = false) start
    answeredRun (fun c => 1 ∈ c.closedStreams &&
      (runChecked step (onFrame fun c₀ => c₀.reopens = false) c
        (incoming (servletService []) frameTypePing 0 0 (List.replicate 8 0))).isSome)
    (by decide +kernel)
  simp only [Bool.and_eq_true, decide_eq_true_eq] at hc
  obtain ⟨c', hc'⟩ := Option.isSome_iff_exists.mp hc.2
  have h := closedStreams_stay_closed hrun (runChecked_sound hc')
  exact ⟨c, c', hc.1, h.1, h.2 1 hc.1⟩

def reopeningRun : List (Env × Event) :=
  answeredRun ++ incoming (servletService []) frameTypePriority 0 1 [0, 0, 0, 3, 15]

theorem reopeningRun_not_closedApart :
    ∃ c, RunWhere step Unrestricted start reopeningRun c ∧ ¬ c.ClosedApart := by
  obtain ⟨c, hrun, hc⟩ := exists_run_of_any step Unrestricted start reopeningRun
    (fun c => 1 ∈ c.closedStreams && c.streams.contains 1) (by decide +kernel)
  simp only [Bool.and_eq_true, decide_eq_true_eq] at hc
  refine ⟨c, hrun, fun hapart => ?_⟩
  simp [OrdMap.contains, hapart 1 hc.1] at hc

/-- The frame creates a stream although the table has as many streams as the server
allows. -/
def overcrowds (c : HttpConnectionEx) : Bool :=
  c.opens && c.streams.size ≥ localMaxConcurrentStreams

def WithinLimit (c : HttpConnectionEx) : Prop := c.streams.size ≤ localMaxConcurrentStreams

theorem WithinLimit.setStream (hc : c.WithinLimit) (hfind : c.streams.find? id = some s) :
    (c.setStream id s').WithinLimit := by
  unfold WithinLimit HttpConnectionEx.setStream
  rw [OrdMap.size_insert_of_contains _ _ hfind]
  exact hc

theorem WithinLimit.retire (hc : c.WithinLimit) (id : ℕ) (s : HttpStream) :
    (c.retire id s).WithinLimit :=
  (OrdMap.size_erase_le _ _).trans hc

theorem tableInvariant_withinLimit : TableInvariant WithinLimit where
  congr hc hstreams _ := by
    unfold WithinLimit
    rw [hstreams]
    exact hc
  setStream hfind hc := hc.setStream hfind
  retire id s hc := hc.retire id s

theorem WithinLimit.openStream (hc₀ : c₀.overcrowds = false) (hopens : c₀.opens) :
    (c₀.openStream c₀.frame.ident).WithinLimit := by
  have hlt : c₀.streams.size < localMaxConcurrentStreams := by
    simpa [overcrowds, hopens] using hc₀
  exact (OrdMap.size_insert_le _ _ _).trans hlt

/-- In every run in which no frame creates a stream while sixteen are in the table,
there are never more than sixteen. -/
theorem streams_size_le {es : List (Env × Event)}
    (hrun : RunWhere step (onFrame fun c₀ => c₀.overcrowds = false) start es c) :
    c.streams.size ≤ localMaxConcurrentStreams := by
  refine run_invariant WithinLimit (Nat.zero_le _) ?_ hrun
  intro c env e c' hc hok h
  apply tableInvariant_withinLimit.outcome _ hok h hc
  exact fun c₀ hroom hopens _ => WithinLimit.openStream hroom hopens

/-- PRIORITY frames on the first `n` odd identifiers. -/
def manyStreams (n : ℕ) : List (Env × Event) :=
  greeting (servletService []) ++ (List.range n).flatMap fun i =>
    incoming (servletService []) frameTypePriority 0 (2 * i + 1) [0, 0, 0, 0, 15]

theorem streams_size_le_sixteen : ∃ c : HttpConnectionEx,
    c.streams.size = 16 ∧ c.streams.size ≤ localMaxConcurrentStreams := by
  obtain ⟨c, hrun, hc⟩ := exists_run_of_any step (onFrame fun c₀ => c₀.overcrowds = false) start
    (manyStreams 16) (fun c => c.streams.size = 16) (by decide +kernel)
  exact ⟨c, by simpa using hc, streams_size_le hrun⟩

theorem manyStreams_exceed_limit :
    ∃ c, RunWhere step Unrestricted start (manyStreams 17) c ∧
      ¬ c.streams.size ≤ localMaxConcurrentStreams := by
  obtain ⟨c, hrun, hc⟩ := exists_run_of_any step Unrestricted start (manyStreams 17)
    (fun c => c.streams.size = 17) (by decide +kernel)
  simp only [decide_eq_true_eq] at hc
  exact ⟨c, hrun, by rw [hc]; decide⟩

end HttpConnectionEx
end Sese.Service.Http
