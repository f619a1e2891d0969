import Sese.Foundation.Runs
import Sese.Util.Bytes
import Mathlib.Logic.Function.Basic

/-!
# A queue with two sides

`sese::BufferedQueueNn` and the threads that use it. A thread is at a place of `push` or `pop`,
and a run is any interleaving of their steps; a step that has to wait for a mutex cannot be
taken while the mutex is held. What the calls return is seen of a run, and it is what is compared
with the two sides: between its effect and its return a call has an element in hand.
-/
namespace Sese.Container

open Foundation

universe u v
variable {ι : Type u} {T : Type v} [DecidableEq ι]

/-- Where a thread is. -/
inductive Place (T : Type v)
  | outside
  /-- `pop`, under the read lock, before the first `readQueue.empty()`. -/
  | popTest
  /-- The read side is empty, and `pop` waits for the write lock. -/
  | popLock
  /-- `pop`, under both locks, before `swap()`. -/
  | popSwap
  /-- After `swap()`, before `writeMutex.unlock()`. -/
  | popUnlock
  /-- Before the second `readQueue.empty()`. -/
  | popRetest
  /-- Before `readQueue.front()` and `readQueue.pop()`. -/
  | popTake
  /-- Before the read lock is given back and `pop` returns. -/
  | popReturn (got : Option T)
  /-- `push`, under the write lock, before the size is looked at. -/
  | pushTest (t : T)
  /-- Before the write lock is given back and `push` of this element returns. -/
  | pushReturn (t : T) (done : Bool)

structure BufferedQueueNn (ι : Type u) (T : Type v) where
  writeQueue : List T := []
  readQueue : List T := []
  writeMutex : Option ι := none
  readMutex : Option ι := none
  place : ι → Place T := fun _ => .outside

inductive QueueEvent (ι : Type u) (T : Type v)
  /-- The thread calls `pop` and gets the read lock. -/
  | pop (i : ι)
  /-- The thread calls `push` and gets the write lock. -/
  | push (i : ι) (t : T)
  /-- The thread takes the next step of the call that it is in. -/
  | advance (i : ι)

/-- Why a step cannot be taken. -/
inductive Stop
  /-- The thread waits for a mutex. -/
  | blocked
  /-- The thread is in a call, or in none. -/
  | elsewhere
  | fault (fault : Fault)
  deriving DecidableEq

namespace BufferedQueueNn

def goTo (s : BufferedQueueNn ι T) (i : ι) (place : Place T) : BufferedQueueNn ι T :=
  { s with place := Function.update s.place i place }

@[simp] theorem goTo_self (s : BufferedQueueNn ι T) (i : ι) (p : Place T) :
    (s.goTo i p).place i = p := by
  simp [goTo]

theorem goTo_of_ne (s : BufferedQueueNn ι T) {i j : ι} (p : Place T) (h : j ≠ i) :
    (s.goTo i p).place j = s.place j := by
  simp [goTo, h]

/-- `swap`: what is read from is what was written to. -/
def swap (s : BufferedQueueNn ι T) : BufferedQueueNn ι T :=
  { s with writeQueue := s.readQueue, readQueue := s.writeQueue }

def advance (writeLimit : ℕ) (s : BufferedQueueNn ι T) (i : ι) : Except Stop (BufferedQueueNn ι T) :=
  match s.place i with
  | .outside => .error .elsewhere
  | .popTest => .ok (s.goTo i (if s.readQueue.isEmpty then .popLock else .popTake))
  | .popLock =>
    if s.writeMutex = none then .ok ({ s with writeMutex := some i }.goTo i .popSwap)
    else .error .blocked
  | .popSwap => .ok (s.swap.goTo i .popUnlock)
  | .popUnlock => .ok ({ s with writeMutex := none }.goTo i .popRetest)
  | .popRetest => .ok (s.goTo i (if s.readQueue.isEmpty then .popReturn none else .popTake))
  | .popTake =>
    match s.readQueue with
    | [] => .error (.fault .emptyDeque)
    | t :: rest => .ok ({ s with readQueue := rest }.goTo i (.popReturn (some t)))
  | .popReturn _ => .ok ({ s with readMutex := none }.goTo i .outside)
  | .pushTest t =>
    if s.writeQueue.length ≥ writeLimit then .ok (s.goTo i (.pushReturn t false))
    else .ok ({ s with writeQueue := s.writeQueue ++ [t] }.goTo i (.pushReturn t true))
  | .pushReturn _ _ => .ok ({ s with writeMutex := none }.goTo i .outside)

def step (writeLimit : ℕ) (s : BufferedQueueNn ι T) : QueueEvent ι T → Except Stop (BufferedQueueNn ι T)
  | .pop i =>
    match s.place i with
    | .outside =>
      if s.readMutex = none then .ok ({ s with readMutex := some i }.goTo i .popTest)
      else .error .blocked
    | _ => .error .elsewhere
  | .push i t =>
    match s.place i with
    | .outside =>
      if s.writeMutex = none then .ok ({ s with writeMutex := some i }.goTo i (.pushTest t))
      else .error .blocked
    | _ => .error .elsewhere
  | .advance i => s.advance writeLimit i

/-- What a call returns: `pop` the element that it assigned, if it is true, and `push` whether the
element was stored. -/
inductive Returned (T : Type v)
  | pop (got : Option T)
  | push (t : T) (done : Bool)
  deriving DecidableEq

/-- The step in which a call gives its lock back is the one in which it returns. -/
def returns (s : BufferedQueueNn ι T) (e : QueueEvent ι T) (_ : BufferedQueueNn ι T) :
    List (Returned T) :=
  match e with
  | .advance i =>
    match s.place i with
    | .popReturn got => [.pop got]
    | .pushReturn t done => [.push t done]
    | _ => []
  | _ => []

/-- What the calls returned along these events, from a new queue on. -/
def history (writeLimit : ℕ) (es : List (QueueEvent ι T)) : List (Returned T) :=
  seen (step writeLimit) returns {} es

/-- The elements that were popped. -/
def popped (history : List (Returned T)) : List T :=
  history.filterMap fun
    | .pop got => got
    | .push _ _ => none

/-- The elements that were pushed with success. -/
def pushed (history : List (Returned T)) : List T :=
  history.filterMap fun
    | .push t true => some t
    | _ => none

end BufferedQueueNn

namespace Place

def Reading : Place T → Prop
  | .popTest | .popLock | .popSwap | .popUnlock | .popRetest | .popTake | .popReturn _ => True
  | _ => False

def Writing : Place T → Prop
  | .popSwap | .popUnlock | .pushTest _ | .pushReturn _ _ => True
  | _ => False

/-- The places at which the read side is known to be empty. -/
def Dry : Place T → Prop
  | .popLock | .popSwap => True
  | _ => False

/-- The places at which the read side is known to have an element. -/
def Ready : Place T → Prop
  | .popTake => True
  | _ => False

/-- What a call of `pop` has taken and is to return. -/
def taken : Place T → List T
  | .popReturn got => got.toList
  | _ => []

/-- What a call of `push` has stored and is to tell. -/
def stored : Place T → List T
  | .pushReturn t true => [t]
  | _ => []

theorem Dry.reading {p : Place T} (h : p.Dry) : p.Reading := by
  cases p <;> trivial

theorem Ready.reading {p : Place T} (h : p.Ready) : p.Reading := by
  cases p <;> trivial

end Place

namespace BufferedQueueNn

/-- What a thread that is at a place knows of the queue. -/
structure Agrees (s : BufferedQueueNn ι T) (i : ι) (place : Place T) : Prop where
  reading : place.Reading → s.readMutex = some i
  writing : place.Writing → s.writeMutex = some i
  dry : place.Dry → s.readQueue = []
  ready : place.Ready → s.readQueue ≠ []

/-- What the thread with the read lock has in hand. -/
def taken (s : BufferedQueueNn ι T) : List T := s.readMutex.elim [] fun i => (s.place i).taken

/-- What the thread with the write lock has stored and not told yet. -/
def stored (s : BufferedQueueNn ι T) : List T := s.writeMutex.elim [] fun i => (s.place i).stored

/-- What holds between the steps of the threads; `order` and `limit` are what is asked. -/
structure Coherent (writeLimit : ℕ) (history : List (Returned T)) (s : BufferedQueueNn ι T) : Prop where
  agrees : ∀ i, s.Agrees i (s.place i)
  order : popped history ++ s.taken ++ (s.readQueue ++ s.writeQueue) = pushed history ++ s.stored
  limit : s.writeQueue.length ≤ writeLimit

variable {ι : Type u} {s : BufferedQueueNn ι T} {i : ι} {p : Place T} {writeLimit : ℕ}
  {returned : List (Returned T)}

theorem Coherent.not_reading (h : s.Coherent writeLimit returned)
    (hi : s.readMutex = some i ∨ s.readMutex = none) {j : ι} (hj : j ≠ i) : ¬ (s.place j).Reading := by
  intro hreading
  have hmutex := (h.agrees j).reading hreading
  rcases hi with hi | hi
  · rw [hi] at hmutex
    exact hj (Option.some.inj hmutex).symm
  · rw [hi] at hmutex
    cases hmutex

theorem Coherent.not_writing (h : s.Coherent writeLimit returned)
    (hi : s.writeMutex = some i ∨ s.writeMutex = none) {j : ι} (hj : j ≠ i) : ¬ (s.place j).Writing := by
  intro hwriting
  have hmutex := (h.agrees j).writing hwriting
  rcases hi with hi | hi
  · rw [hi] at hmutex
    exact hj (Option.some.inj hmutex).symm
  · rw [hi] at hmutex
    cases hmutex

theorem Coherent.agrees_of_read (h : s.Coherent writeLimit returned)
    (hi : s.readMutex = some i ∨ s.readMutex = none)
    {s' : BufferedQueueNn ι T} (hplace : s'.place = s.place) (hmutex : s'.writeMutex = s.writeMutex)
    {j : ι} (hj : j ≠ i) : s'.Agrees j (s'.place j) := by
  have hnot := h.not_reading hi hj
  rw [hplace]
  constructor
  · exact fun hreading => absurd hreading hnot
  · rw [hmutex]
    exact (h.agrees j).writing
  · exact fun hdry => absurd hdry.reading hnot
  · exact fun hready => absurd hready.reading hnot

theorem Coherent.agrees_of_write (h : s.Coherent writeLimit returned)
    (hi : s.writeMutex = some i ∨ s.writeMutex = none)
    {s' : BufferedQueueNn ι T} (hplace : s'.place = s.place) (hmutex : s'.readMutex = s.readMutex)
    (hqueue : s'.readQueue = s.readQueue) {j : ι} (hj : j ≠ i) : s'.Agrees j (s'.place j) := by
  have hnot := h.not_writing hi hj
  rw [hplace]
  constructor
  · rw [hmutex]
    exact (h.agrees j).reading
  · exact fun hwriting => absurd hwriting hnot
  · rw [hqueue]
    exact (h.agrees j).dry
  · rw [hqueue]
    exact (h.agrees j).ready

theorem coherent_init (writeLimit : ℕ) : ({} : BufferedQueueNn ι T).Coherent writeLimit [] where
  agrees := fun _ => ⟨False.elim, False.elim, False.elim, False.elim⟩
  order := rfl
  limit := Nat.zero_le _

theorem taken_of_mutex (h : s.readMutex = some i) : s.taken = (s.place i).taken := by
  simp [taken, h]

theorem stored_of_mutex (h : s.writeMutex = some i) : s.stored = (s.place i).stored := by
  simp [stored, h]

@[simp] theorem popped_append (returned returned' : List (Returned T)) :
    popped (returned ++ returned') = popped returned ++ popped returned' :=
  List.filterMap_append

@[simp] theorem pushed_append (returned returned' : List (Returned T)) :
    pushed (returned ++ returned') = pushed returned ++ pushed returned' :=
  List.filterMap_append

variable [DecidableEq ι]

theorem taken_goTo (h : p.taken = (s.place i).taken) : (s.goTo i p).taken = s.taken := by
  change (s.readMutex.elim [] fun j => ((s.goTo i p).place j).taken) =
    s.readMutex.elim [] fun j => (s.place j).taken
  congr 1
  funext j
  by_cases hj : j = i
  · rw [hj, goTo_self, h]
  · rw [goTo_of_ne s p hj]

theorem stored_goTo (h : p.stored = (s.place i).stored) : (s.goTo i p).stored = s.stored := by
  change (s.writeMutex.elim [] fun j => ((s.goTo i p).place j).stored) =
    s.writeMutex.elim [] fun j => (s.place j).stored
  congr 1
  funext j
  by_cases hj : j = i
  · rw [hj, goTo_self, h]
  · rw [goTo_of_ne s p hj]

theorem taken_goTo_self (h : s.readMutex = some i) : (s.goTo i p).taken = p.taken := by
  have hmutex : (s.goTo i p).readMutex = some i := h
  rw [taken_of_mutex hmutex, goTo_self]

theorem stored_goTo_self (h : s.writeMutex = some i) : (s.goTo i p).stored = p.stored := by
  have hmutex : (s.goTo i p).writeMutex = some i := h
  rw [stored_of_mutex hmutex, goTo_self]

theorem coherent_goTo (hi : s.Agrees i p) (hothers : ∀ j, j ≠ i → s.Agrees j (s.place j))
    (horder : popped returned ++ (s.goTo i p).taken ++ (s.readQueue ++ s.writeQueue) =
      pushed returned ++ (s.goTo i p).stored)
    (hlimit : s.writeQueue.length ≤ writeLimit) : (s.goTo i p).Coherent writeLimit returned where
  agrees := by
    intro j
    have hagrees : s.Agrees j ((s.goTo i p).place j) := by
      by_cases hj : j = i
      · subst hj
        rw [goTo_self]
        exact hi
      · rw [goTo_of_ne s p hj]
        exact hothers j hj
    exact ⟨hagrees.reading, hagrees.writing, hagrees.dry, hagrees.ready⟩
  order := horder
  limit := hlimit

theorem Coherent.move (h : s.Coherent writeLimit returned) (hi : s.Agrees i p)
    (htaken : p.taken = (s.place i).taken) (hstored : p.stored = (s.place i).stored) :
    (s.goTo i p).Coherent writeLimit returned := by
  apply coherent_goTo hi (fun j _ => h.agrees j) _ h.limit
  rw [taken_goTo htaken, stored_goTo hstored]
  exact h.order

theorem Coherent.advance {s' : BufferedQueueNn ι T} (h : s.Coherent writeLimit returned)
    (hstep : s.advance writeLimit i = .ok s') :
    s'.Coherent writeLimit (returned ++ returns s (.advance i) s') := by
  have hi := h.agrees i
  have horder := h.order
  unfold BufferedQueueNn.advance at hstep
  cases hplace : s.place i with
  | outside =>
    simp only [hplace] at hstep
    cases hstep
  | popTest =>
    simp only [hplace] at hstep
    obtain rfl := Except.ok.inj hstep
    simp only [returns, hplace, List.append_nil]
    rw [hplace] at hi
    have hmutex := hi.reading trivial
    cases hqueue : s.readQueue with
    | nil =>
      apply h.move
      · exact ⟨fun _ => hmutex, False.elim, fun _ => hqueue, False.elim⟩
      · rw [hplace]
        rfl
      · rw [hplace]
        rfl
    | cons t rest =>
      apply h.move
      · exact ⟨fun _ => hmutex, False.elim, False.elim, fun _ => by simp [hqueue]⟩
      · rw [hplace]
        rfl
      · rw [hplace]
        rfl
  | popLock =>
    simp only [hplace] at hstep
    split_ifs at hstep with hfree
    obtain rfl := Except.ok.inj hstep
    simp only [returns, hplace, List.append_nil]
    rw [hplace] at hi
    apply coherent_goTo
    · exact ⟨fun _ => hi.reading trivial, fun _ => rfl, fun _ => hi.dry trivial, False.elim⟩
    · refine fun j hj => h.agrees_of_write (.inr hfree) ?_ ?_ ?_ hj <;> rfl
    · rw [taken_goTo (by rw [hplace]; rfl), stored_goTo_self rfl]
      rw [stored, hfree] at horder
      exact horder
    · exact h.limit
  | popSwap =>
    simp only [hplace] at hstep
    obtain rfl := Except.ok.inj hstep
    simp only [returns, hplace, List.append_nil]
    rw [hplace] at hi
    have hempty := hi.dry trivial
    rw [hempty, List.nil_append] at horder
    apply coherent_goTo
    · exact ⟨fun _ => hi.reading trivial, fun _ => hi.writing trivial, False.elim, False.elim⟩
    · refine fun j hj => h.agrees_of_read (.inl (hi.reading trivial)) ?_ ?_ hj <;> rfl
    · rw [taken_goTo (by rw [swap, hplace]; rfl), stored_goTo (by rw [swap, hplace]; rfl)]
      change popped returned ++ s.taken ++ (s.writeQueue ++ s.readQueue) = pushed returned ++ s.stored
      rw [hempty, List.append_nil]
      exact horder
    · simp only [swap, hempty, List.length_nil, Nat.zero_le]
  | popUnlock =>
    simp only [hplace] at hstep
    obtain rfl := Except.ok.inj hstep
    simp only [returns, hplace, List.append_nil]
    rw [hplace] at hi
    apply coherent_goTo
    · exact ⟨fun _ => hi.reading trivial, False.elim, False.elim, False.elim⟩
    · refine fun j hj => h.agrees_of_write (.inl (hi.writing trivial)) ?_ ?_ ?_ hj <;> rfl
    · rw [taken_goTo (by rw [hplace]; rfl)]
      rw [stored_of_mutex (hi.writing trivial), hplace] at horder
      exact horder
    · exact h.limit
  | popRetest =>
    simp only [hplace] at hstep
    obtain rfl := Except.ok.inj hstep
    simp only [returns, hplace, List.append_nil]
    rw [hplace] at hi
    have hmutex := hi.reading trivial
    cases hqueue : s.readQueue with
    | nil =>
      apply h.move
      · exact ⟨fun _ => hmutex, False.elim, False.elim, False.elim⟩
      · rw [hplace]
        rfl
      · rw [hplace]
        rfl
    | cons t rest =>
      apply h.move
      · exact ⟨fun _ => hmutex, False.elim, False.elim, fun _ => by simp [hqueue]⟩
      · rw [hplace]
        rfl
      · rw [hplace]
        rfl
  | popTake =>
    simp only [hplace] at hstep
    rw [hplace] at hi
    have hmutex := hi.reading trivial
    cases hqueue : s.readQueue with
    | nil => exact absurd hqueue (hi.ready trivial)
    | cons t rest =>
      simp only [hqueue] at hstep
      obtain rfl := Except.ok.inj hstep
      simp only [returns, hplace, List.append_nil]
      apply coherent_goTo
      · exact ⟨fun _ => hmutex, False.elim, False.elim, False.elim⟩
      · refine fun j hj => h.agrees_of_read (.inl hmutex) ?_ ?_ hj <;> rfl
      · have htaken : ({ s with readQueue := rest }.goTo i (.popReturn (some t))).taken = [t] :=
          taken_goTo_self hmutex
        rw [htaken, stored_goTo (by rw [hplace]; rfl)]
        rw [taken_of_mutex hmutex, hplace, hqueue] at horder
        simpa [Place.taken, stored] using horder
      · exact h.limit
  | popReturn got =>
    simp only [hplace] at hstep
    obtain rfl := Except.ok.inj hstep
    simp only [returns, hplace]
    rw [hplace] at hi
    have hmutex := hi.reading trivial
    apply coherent_goTo
    · exact ⟨False.elim, False.elim, False.elim, False.elim⟩
    · refine fun j hj => h.agrees_of_read (.inl hmutex) ?_ ?_ hj <;> rfl
    · rw [stored_goTo (by rw [hplace]; rfl)]
      rw [taken_of_mutex hmutex, hplace] at horder
      -- what was in hand is now popped
      have hpopped : popped [Returned.pop got] = got.toList := by
        cases got <;> rfl
      rw [popped_append, pushed_append, hpopped]
      simpa [taken, stored, Place.taken, pushed, goTo] using horder
    · exact h.limit
  | pushTest t =>
    simp only [hplace] at hstep
    simp only [returns, hplace, List.append_nil]
    rw [hplace] at hi
    have hmutex := hi.writing trivial
    split_ifs at hstep with hfull
    · obtain rfl := Except.ok.inj hstep
      apply h.move
      · exact ⟨False.elim, fun _ => hmutex, False.elim, False.elim⟩
      · rw [hplace]
        rfl
      · rw [hplace]
        rfl
    · obtain rfl := Except.ok.inj hstep
      apply coherent_goTo
      · exact ⟨False.elim, fun _ => hmutex, False.elim, False.elim⟩
      · refine fun j hj => h.agrees_of_write (.inl hmutex) ?_ ?_ ?_ hj <;> rfl
      · have hstored : ({ s with writeQueue := s.writeQueue ++ [t] }.goTo i
            (.pushReturn t true)).stored = [t] := stored_goTo_self hmutex
        rw [taken_goTo (by rw [hplace]; rfl), hstored]
        rw [stored_of_mutex hmutex, hplace] at horder
        simp only [Place.stored, List.append_nil] at horder
        rw [← horder]
        simp [taken]
      · rw [List.length_append, List.length_singleton]
        exact Nat.lt_of_not_le hfull
  | pushReturn t done =>
    simp only [hplace] at hstep
    obtain rfl := Except.ok.inj hstep
    simp only [returns, hplace]
    rw [hplace] at hi
    have hmutex := hi.writing trivial
    apply coherent_goTo
    · exact ⟨False.elim, False.elim, False.elim, False.elim⟩
    · refine fun j hj => h.agrees_of_write (.inl hmutex) ?_ ?_ ?_ hj <;> rfl
    · rw [taken_goTo (by rw [hplace]; rfl)]
      rw [stored_of_mutex hmutex, hplace] at horder
      -- what was stored is now told
      have hpushed : pushed [Returned.push t done] = (Place.pushReturn t done).stored := by
        cases done <;> rfl
      rw [popped_append, pushed_append, hpushed]
      simpa [taken, stored, popped, goTo] using horder
    · exact h.limit

theorem Coherent.step {s' : BufferedQueueNn ι T} {e : QueueEvent ι T}
    (h : s.Coherent writeLimit returned) (hstep : s.step writeLimit e = .ok s') :
    s'.Coherent writeLimit (returned ++ returns s e s') := by
  have horder := h.order
  cases e with
  | pop i =>
    simp only [BufferedQueueNn.step] at hstep
    simp only [returns, List.append_nil]
    cases hplace : s.place i <;> simp only [hplace] at hstep
    case outside =>
      split_ifs at hstep with hfree
      obtain rfl := Except.ok.inj hstep
      apply coherent_goTo
      · exact ⟨fun _ => rfl, False.elim, False.elim, False.elim⟩
      · refine fun j hj => h.agrees_of_read (.inr hfree) ?_ ?_ hj <;> rfl
      · rw [taken_goTo_self rfl, stored_goTo (by rw [hplace]; rfl)]
        rw [taken, hfree] at horder
        exact horder
      · exact h.limit
    all_goals cases hstep
  | push i t =>
    simp only [BufferedQueueNn.step] at hstep
    simp only [returns, List.append_nil]
    cases hplace : s.place i <;> simp only [hplace] at hstep
    case outside =>
      split_ifs at hstep with hfree
      obtain rfl := Except.ok.inj hstep
      apply coherent_goTo
      · exact ⟨False.elim, fun _ => rfl, False.elim, False.elim⟩
      · refine fun j hj => h.agrees_of_write (.inr hfree) ?_ ?_ ?_ hj <;> rfl
      · rw [taken_goTo (by rw [hplace]; rfl), stored_goTo_self rfl]
        rw [stored, hfree] at horder
        exact horder
      · exact h.limit
    all_goals cases hstep
  | advance i => exact h.advance hstep

/-- In every interleaving, what was popped, with what a call of `pop` has in hand, then the read
side, then the write side are what was pushed with success, with what a call of `push` has stored
and not told yet, in order; while no call has a lock, what was popped and the two sides are what was
pushed with success. The write side is within its limit. -/
theorem order_and_limit (writeLimit : ℕ) (es : List (QueueEvent ι T)) (s : BufferedQueueNn ι T)
    (hrun : RunWhere (step writeLimit) Unrestricted {} es s) :
    popped (history writeLimit es) ++ s.taken ++ (s.readQueue ++ s.writeQueue) =
      pushed (history writeLimit es) ++ s.stored ∧
    (s.readMutex = none → s.writeMutex = none →
      popped (history writeLimit es) ++ (s.readQueue ++ s.writeQueue) =
        pushed (history writeLimit es)) ∧
    s.writeQueue.length ≤ writeLimit := by
  have h : s.Coherent writeLimit (history writeLimit es) :=
    hrun.invariant_seen (fun returned s => s.Coherent writeLimit returned) (coherent_init writeLimit)
      fun _ _ _ _ hs _ hstep => hs.step hstep
  refine ⟨h.order, fun hread hwrite => ?_, h.limit⟩
  have horder := h.order
  rw [taken, hread, stored, hwrite] at horder
  simpa using horder

/-- One thread pushes 7 and, while the other one is in `pop`, 8. -/
theorem order_and_limit_sample :
    ∃ (es : List (QueueEvent Bool ℕ)) (s : BufferedQueueNn Bool ℕ),
      RunWhere (step 1) Unrestricted {} es s ∧
      popped (history 1 es) = [7] ∧ pushed (history 1 es) = [7, 8] ∧
      popped (history 1 es) ++ (s.readQueue ++ s.writeQueue) = pushed (history 1 es) ∧
      s.writeQueue.length ≤ 1 := by
  let es : List (QueueEvent Bool ℕ) :=
    [.push true 7, .advance true, .advance true, .pop false, .advance false, .advance false,
      .advance false, .advance false, .push true 8, .advance true, .advance false, .advance false,
      .advance true, .advance false]
  obtain ⟨s, hrun, hfree⟩ := exists_run_of_any (step 1) Unrestricted {} es
    (fun s => s.readMutex.isNone && s.writeMutex.isNone) (by decide)
  simp only [Bool.and_eq_true, Option.isNone_iff_eq_none] at hfree
  have h := order_and_limit 1 es s hrun
  exact ⟨es, s, hrun, by decide, by decide, h.2.1 hfree.1 hfree.2, h.2.2⟩

/-- `front` and `pop` are never called on an empty side. -/
theorem advance_ne_fault (h : s.Coherent writeLimit returned) (i : ι) (fault : Fault) :
    s.advance writeLimit i ≠ .error (.fault fault) := by
  intro hstep
  unfold BufferedQueueNn.advance at hstep
  have hready := (h.agrees i).ready
  cases hplace : s.place i <;> simp only [hplace] at hstep hready
  case popTake =>
    cases hqueue : s.readQueue with
    | nil => exact hready trivial hqueue
    | cons t rest =>
      simp only [hqueue] at hstep
      cases hstep
  case popLock =>
    split_ifs at hstep
    cases hstep
  case pushTest => split_ifs at hstep
  all_goals cases hstep

end BufferedQueueNn
end Sese.Container
