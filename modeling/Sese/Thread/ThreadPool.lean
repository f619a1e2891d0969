import Sese.Foundation.Runs
import Sese.Foundation.Threads

/-!
# The thread pool

`sese::ThreadPool`: its threads, the threads that post tasks, and the thread that shuts it down.
The constructor starts as many threads as its parameter says (not the member of the same name,
which is at least 2), here the elements of `ι`; `π` are the threads that post. A step that has to
wait, for the mutex or for a notification, cannot be taken. `wait` may return for no reason. What was
posted, taken out and run is seen of the steps. A thread takes a task out under the mutex and runs it
without, so that of two tasks the one that was taken second may be run first.

`shutdown` sets the flag and notifies without the mutex. A thread of the pool that has looked at
the flag before and then finds no task goes to sleep after the notification; `WakesAll` are the
runs in which that does not happen.
-/
namespace Sese.Thread

open Foundation

universe u v w
variable {ι : Type u} {π : Type v} {Task : Type w}

/-- Where a thread of the pool is. -/
inductive WorkerPlace (Task : Type w)
  /-- Before `locker(data->mutex)`. -/
  | top
  /-- With the mutex, before `data->isShutdown`. -/
  | check
  /-- The flag was not set; before `data->tasks.empty()`. -/
  | look
  /-- Before `data->conditionVariable.wait(locker)`. -/
  | drowsy
  | asleep
  /-- `wait` is to get the mutex back. -/
  | woken
  /-- `wait` has returned; before the mutex is given back at the end of the round. -/
  | leave
  /-- Before `front()` and `pop()`. -/
  | take
  /-- Before `locker.unlock()`; a task may be `nullptr`. -/
  | release (task : Option Task)
  /-- After the unlock; before or in `task()`. -/
  | run (task : Task)
  /-- The flag was set; before `locker.unlock()`. -/
  | quit
  | finished
  deriving DecidableEq

/-- The two forms of `postTask`. -/
inductive Post (Task : Type w)
  | one (task : Option Task)
  | many (tasks : List (Option Task))

def Post.tasks : Post Task → List (Option Task)
  | .one task => [task]
  | .many tasks => tasks

/-- Where a thread is that posts. -/
inductive PosterPlace (Task : Type w)
  | outside
  /-- Before `locker(data->mutex)`. -/
  | lock (post : Post Task)
  /-- Before `data->tasks.emplace(task)`. -/
  | emplace (post : Post Task)
  /-- Before the mutex is given back. -/
  | unlock (post : Post Task)
  /-- Before `notify_one()` or `notify_all()`. -/
  | notify (post : Post Task)

/-- Where the thread is that calls `shutdown`. -/
inductive CloserPlace
  | outside
  /-- The flag is set; before `notify_all()`. -/
  | notify
  | join
  | done
  deriving DecidableEq

structure ThreadPool (ι : Type u) (π : Type v) (Task : Type w) where
  tasks : List (Option Task) := []
  isShutdown : Bool := false
  mutex : Option (ι ⊕ π) := none
  worker : ι → WorkerPlace Task := fun _ => .top
  poster : π → PosterPlace Task := fun _ => .outside
  closer : CloserPlace := .outside

inductive PoolEvent (ι : Type u) (π : Type v) (Task : Type w)
  | posts (j : π) (post : Post Task)
  /-- A thread of the pool takes its next step. -/
  | advance (i : ι)
  /-- A thread that posts takes its next step, which is not `notify_one()`. -/
  | advancePoster (j : π)
  /-- `notify_one()`, and whom it wakes. -/
  | notifiesOne (j : π) (woken : Option ι)
  /-- `wait` returns for no reason. -/
  | spurious (i : ι)
  | shutdown
  /-- `shutdown` takes its next step. -/
  | advanceCloser

inductive PoolStop
  /-- The thread has to wait. -/
  | blocked
  | elsewhere
  /-- `front()` of an empty queue. -/
  | empty
  deriving DecidableEq

namespace WorkerPlace

/-- The places at which a thread of the pool has the mutex. -/
def Locks : WorkerPlace Task → Prop
  | .check | .look | .drowsy | .leave | .take | .release _ | .quit => True
  | _ => False

def hunts : WorkerPlace Task → ℕ
  | .top | .check | .look | .take | .woken | .leave => 1
  | _ => 0

/-- The task that the thread has taken out and not run to its end. -/
def inHand : WorkerPlace Task → Multiset Task
  | .release (some task) | .run task => {task}
  | _ => 0

/-- Who is woken by `notify_all()`. -/
def wake : WorkerPlace Task → WorkerPlace Task
  | .asleep => .woken
  | place => place

/-- A bound for the steps that a thread still takes once the flag is set and nobody sleeps. -/
def rank : WorkerPlace Task → ℕ
  | .finished => 0
  | .quit => 1
  | .check => 2
  | .top => 3
  | .run _ | .leave => 4
  | .release _ | .woken => 5
  | .take => 6
  | .look | .drowsy | .asleep => 7

theorem rank_le (place : WorkerPlace Task) : place.rank ≤ 7 := by
  cases place <;> simp [rank]

end WorkerPlace

namespace PoolEvent

/-- A step of this thread of the pool. -/
def Advances [DecidableEq ι] (i : ι) : PoolEvent ι π Task → Bool
  | .advance k => k = i
  | _ => false

/-- A step of a thread that is inside, without a new call and without a spurious wake. -/
def Inside : PoolEvent ι π Task → Prop
  | .advance _ | .advancePoster _ => True
  | _ => False

end PoolEvent

namespace PosterPlace

/-- The places at which a thread that posts has the mutex. -/
def Locks : PosterPlace Task → Prop
  | .emplace _ | .unlock _ => True
  | _ => False

/-- 1 for a thread that has put a task into the queue and will call `notify_one()`. -/
def notes : PosterPlace Task → ℕ
  | .unlock (.one _) | .notify (.one _) => 1
  | _ => 0

/-- The thread has put tasks into the queue and will call `notify_all()`. -/
def Broadcasts : PosterPlace Task → Prop
  | .unlock (.many _) | .notify (.many _) => True
  | _ => False

end PosterPlace

namespace ThreadPool

variable [DecidableEq ι] [DecidableEq π]

def goTo (s : ThreadPool ι π Task) (i : ι) (place : WorkerPlace Task) : ThreadPool ι π Task :=
  { s with worker := Function.update s.worker i place }

def posterTo (s : ThreadPool ι π Task) (j : π) (place : PosterPlace Task) : ThreadPool ι π Task :=
  { s with poster := Function.update s.poster j place }

/-- `notify_all()`. -/
def notifyAll (s : ThreadPool ι π Task) : ThreadPool ι π Task :=
  { s with worker := fun i => (s.worker i).wake }

def advance (s : ThreadPool ι π Task) (i : ι) : Except PoolStop (ThreadPool ι π Task) :=
  match s.worker i with
  | .top =>
    if s.mutex = none then .ok ({ s with mutex := some (.inl i) }.goTo i .check) else .error .blocked
  | .check => .ok (s.goTo i (if s.isShutdown then .quit else .look))
  | .look => .ok (s.goTo i (if s.tasks.isEmpty then .drowsy else .take))
  | .drowsy => .ok ({ s with mutex := none }.goTo i .asleep)
  | .asleep => .error .blocked
  | .woken =>
    if s.mutex = none then .ok ({ s with mutex := some (.inl i) }.goTo i .leave) else .error .blocked
  | .leave => .ok ({ s with mutex := none }.goTo i .top)
  | .take =>
    match s.tasks with
    | [] => .error .empty
    | task :: tasks => .ok ({ s with tasks := tasks }.goTo i (.release task))
  | .release none => .ok ({ s with mutex := none }.goTo i .top)
  | .release (some task) => .ok ({ s with mutex := none }.goTo i (.run task))
  | .run _ => .ok (s.goTo i .top)
  | .quit => .ok ({ s with mutex := none }.goTo i .finished)
  | .finished => .error .elsewhere

def advancePoster (s : ThreadPool ι π Task) (j : π) : Except PoolStop (ThreadPool ι π Task) :=
  match s.poster j with
  | .outside => .error .elsewhere
  | .lock post =>
    if s.mutex = none then .ok ({ s with mutex := some (.inr j) }.posterTo j (.emplace post))
    else .error .blocked
  | .emplace post => .ok ({ s with tasks := s.tasks ++ post.tasks }.posterTo j (.unlock post))
  | .unlock post => .ok ({ s with mutex := none }.posterTo j (.notify post))
  | .notify (.one _) => .error .elsewhere
  | .notify (.many _) => .ok (s.notifyAll.posterTo j .outside)

variable [Fintype ι]

instance (s : ThreadPool ι π Task) (i : ι) : Decidable (s.worker i = .asleep) :=
  match s.worker i with
  | .asleep => isTrue rfl
  | .top | .check | .look | .drowsy | .woken | .leave | .take | .release _ | .run _ | .quit
  | .finished => isFalse nofun

instance (s : ThreadPool ι π Task) (i : ι) : Decidable (s.worker i = .finished) :=
  match s.worker i with
  | .finished => isTrue rfl
  | .top | .check | .look | .drowsy | .asleep | .woken | .leave | .take | .release _ | .run _
  | .quit => isFalse nofun

def step (s : ThreadPool ι π Task) : PoolEvent ι π Task → Except PoolStop (ThreadPool ι π Task)
  | .posts j post =>
    match s.poster j with
    | .outside => .ok (s.posterTo j (.lock post))
    | _ => .error .elsewhere
  | .advance i => s.advance i
  | .advancePoster j => s.advancePoster j
  | .notifiesOne j woken =>
    match s.poster j, woken with
    | .notify (.one _), some i =>
      if s.worker i = .asleep then .ok ((s.goTo i .woken).posterTo j .outside) else .error .elsewhere
    | .notify (.one _), none =>
      if ∃ i, s.worker i = .asleep then .error .elsewhere else .ok (s.posterTo j .outside)
    | _, _ => .error .elsewhere
  | .spurious i => if s.worker i = .asleep then .ok (s.goTo i .woken) else .error .elsewhere
  | .shutdown =>
    match s.closer with
    | .outside => .ok { s with isShutdown := true, closer := .notify }
    | _ => .error .elsewhere
  | .advanceCloser =>
    match s.closer with
    | .notify => .ok { s.notifyAll with closer := .join }
    | .join =>
      if ∀ i, s.worker i = .finished then .ok { s with closer := .done } else .error .blocked
    | .outside | .done => .error .elsewhere

/-- What is seen of the pool: tasks are put into the queue, one is taken out of it, and one has been
run. -/
inductive Sight (Task : Type w)
  | posted (tasks : List (Option Task))
  | taken (task : Option Task)
  | ran (task : Task)

/-- What is seen of a step, in which a thread has the task in hand that it took out. -/
def sees (s : ThreadPool ι π Task) (e : PoolEvent ι π Task) (t : ThreadPool ι π Task) :
    List (Sight Task) :=
  match e with
  | .advancePoster j =>
    match s.poster j with
    | .emplace post => [.posted post.tasks]
    | _ => []
  | .advance i =>
    match s.worker i, t.worker i with
    | .take, .release task => [.taken task]
    | .run task, _ => [.ran task]
    | _, _ => []
  | _ => []

/-- What is seen along these events, from a new pool on. -/
def sights (es : List (PoolEvent ι π Task)) : List (Sight Task) := seen step sees {} es

/-- The tasks that were posted, in order. -/
def posted (sights : List (Sight Task)) : List (Option Task) :=
  sights.flatMap fun
    | .posted tasks => tasks
    | _ => []

/-- The tasks that were taken out, in order. -/
def taken (sights : List (Sight Task)) : List (Option Task) :=
  sights.filterMap fun
    | .taken task => some task
    | _ => none

/-- The tasks that were run, in the order of their ends. -/
def ran (sights : List (Sight Task)) : List Task :=
  sights.filterMap fun
    | .ran task => some task
    | _ => none

/-- What the threads of the pool have in hand. -/
def hands (s : ThreadPool ι π Task) : Multiset Task := ∑ i, (s.worker i).inHand

section Invariant

variable {s s' : ThreadPool ι π Task} {i : ι} {j : π} {place : WorkerPlace Task}
  {stand : PosterPlace Task}

def Locks (s : ThreadPool ι π Task) : ι ⊕ π → Prop
  | .inl i => (s.worker i).Locks
  | .inr j => (s.poster j).Locks

/-- How many threads of the pool are on their way to the queue. -/
def hunters (s : ThreadPool ι π Task) : ℕ := ∑ i, (s.worker i).hunts

/-- How many calls of `notify_one()` are still to come. -/
def notes [Fintype π] (s : ThreadPool ι π Task) : ℕ := ∑ j, (s.poster j).notes

variable [Fintype π]

/-- No thread of the pool sleeps while there are more tasks than threads on their way to them. -/
def Conserving (s : ThreadPool ι π Task) : Prop :=
  s.isShutdown = false → (∃ i, s.worker i = .asleep) →
    (∃ j, (s.poster j).Broadcasts) ∨ s.tasks.length ≤ s.hunters + s.notes

/-- What holds between the steps. -/
structure Coherent (s : ThreadPool ι π Task) : Prop where
  guarded : ∀ k, s.mutex = some k ↔ s.Locks k
  drowsy : ∀ i, s.worker i = .drowsy → s.tasks = []
  take : ∀ i, s.worker i = .take → s.tasks ≠ []
  flag : s.isShutdown = true ↔ s.closer ≠ .outside
  ended : ∀ i, s.worker i = .quit ∨ s.worker i = .finished → s.isShutdown = true
  conserving : s.Conserving

omit [DecidableEq ι] [DecidableEq π] in
theorem coherent_init : ({} : ThreadPool ι π Task).Coherent where
  guarded := by
    intro k
    cases k <;> exact iff_of_false nofun id
  drowsy := fun i => nofun
  take := fun i => nofun
  flag := iff_of_false nofun fun h => h rfl
  ended := by
    rintro i (h | h) <;> cases h
  conserving := by
    rintro - ⟨i, h⟩
    cases h

omit [DecidableEq π] [Fintype π] [Fintype ι] in
@[simp] theorem goTo_self (s : ThreadPool ι π Task) (i : ι) (place : WorkerPlace Task) :
    (s.goTo i place).worker i = place := by
  simp [goTo]

omit [DecidableEq π] [Fintype π] [Fintype ι] in
theorem goTo_of_ne (s : ThreadPool ι π Task) {i k : ι} (place : WorkerPlace Task) (h : k ≠ i) :
    (s.goTo i place).worker k = s.worker k := by
  simp [goTo, h]

omit [DecidableEq π] [Fintype π] in
theorem hunters_goTo (s : ThreadPool ι π Task) (i : ι) (place : WorkerPlace Task) :
    (s.goTo i place).hunters + (s.worker i).hunts = s.hunters + place.hunts :=
  sum_update_add WorkerPlace.hunts s.worker i place

omit [DecidableEq ι] [Fintype ι] in
theorem notes_posterTo (s : ThreadPool ι π Task) (j : π) (stand : PosterPlace Task) :
    (s.posterTo j stand).notes + (s.poster j).notes = s.notes + stand.notes :=
  sum_update_add PosterPlace.notes s.poster j stand

omit [Fintype ι] [DecidableEq ι] [DecidableEq π] [Fintype π] in
theorem eq_of_locks (hguarded : ∀ k, s.mutex = some k ↔ s.Locks k) {k l : ι ⊕ π} (hk : s.Locks k)
    (hl : s.Locks l) : k = l :=
  Option.some.inj (((hguarded k).mpr hk).symm.trans ((hguarded l).mpr hl))

omit [DecidableEq π] [Fintype π] [Fintype ι] in
theorem locks_goTo_of_ne {k : ι ⊕ π} (hk : k ≠ .inl i) : (s.goTo i place).Locks k ↔ s.Locks k := by
  cases k with
  | inl l =>
    have hl : l ≠ i := fun h => hk (congrArg _ h)
    rw [Locks, goTo_of_ne s place hl]
    rfl
  | inr j => rfl

omit [DecidableEq ι] [Fintype π] [Fintype ι] in
theorem locks_posterTo_of_ne {k : ι ⊕ π} (hk : k ≠ .inr j) :
    (s.posterTo j stand).Locks k ↔ s.Locks k := by
  cases k with
  | inl i => rfl
  | inr l =>
    have hl : l ≠ j := fun h => hk (congrArg _ h)
    simp [Locks, posterTo, hl]

omit [DecidableEq π] in
theorem Coherent.move (h : s.Coherent) {mutex : Option (ι ⊕ π)}
    (hmutex : (mutex = s.mutex ∧ (place.Locks ↔ (s.worker i).Locks)) ∨
      (s.mutex = none ∧ mutex = some (.inl i) ∧ place.Locks) ∨
      ((s.worker i).Locks ∧ mutex = none ∧ ¬ place.Locks))
    (hdrowsy : place = .drowsy → s.tasks = []) (htake : place = .take → s.tasks ≠ [])
    (hended : place = .quit ∨ place = .finished → s.isShutdown = true)
    (htrade : s.tasks = [] ∨ s.isShutdown = true ∨
      (place ≠ .asleep ∧ (s.worker i).hunts ≤ place.hunts)) :
    ({ s with mutex := mutex }.goTo i place).Coherent where
  guarded := by
    apply guarded_of_move (k := .inl i) h.guarded fun k hk => locks_goTo_of_ne hk
    simpa [Locks, goTo] using hmutex
  drowsy := by
    intro k hk
    by_cases hki : k = i
    · subst hki
      rw [goTo_self] at hk
      exact hdrowsy hk
    · rw [goTo_of_ne _ _ hki] at hk
      exact h.drowsy k hk
  take := by
    intro k hk
    by_cases hki : k = i
    · subst hki
      rw [goTo_self] at hk
      exact htake hk
    · rw [goTo_of_ne _ _ hki] at hk
      exact h.take k hk
  flag := h.flag
  ended := by
    intro k hk
    by_cases hki : k = i
    · subst hki
      rw [goTo_self] at hk
      exact hended hk
    · rw [goTo_of_ne _ _ hki] at hk
      exact h.ended k hk
  conserving := by
    rintro hopen ⟨k, hk⟩
    rcases htrade with hempty | hshut | ⟨hplace, hhunts⟩
    · right
      simp [goTo, hempty]
    · cases hopen.symm.trans hshut
    · have hki : k ≠ i := by
        rintro rfl
        rw [goTo_self] at hk
        exact hplace hk
      rw [goTo_of_ne _ _ hki] at hk
      rcases h.conserving hopen ⟨k, hk⟩ with hbroadcast | hle
      · exact .inl hbroadcast
      · right
        have hsum := hunters_goTo { s with mutex := mutex } i place
        change s.tasks.length ≤ _ + s.notes
        change _ + (s.worker i).hunts = s.hunters + _ at hsum
        omega

omit [DecidableEq π] in
theorem Coherent.takeTask (h : s.Coherent) {task : Option Task} {tasks : List (Option Task)}
    (hi : s.worker i = .take) (htasks : s.tasks = task :: tasks) :
    ({ s with tasks := tasks }.goTo i (.release task)).Coherent := by
  have hlocks : s.Locks (.inl i) := by
    rw [Locks, hi]
    trivial
  -- whoever else were to look at the queue would have the mutex
  have hothers : ∀ k, k ≠ i → ¬ (s.worker k).Locks := fun k hk hlocked =>
    hk (Sum.inl.inj (eq_of_locks h.guarded (k := .inl k) hlocked hlocks))
  constructor
  · apply guarded_of_move (k := .inl i) h.guarded fun k hk => locks_goTo_of_ne hk
    simp [Locks, goTo, hi, WorkerPlace.Locks]
  · intro k hk
    by_cases hki : k = i
    · subst hki
      rw [goTo_self] at hk
      cases hk
    · rw [goTo_of_ne _ _ hki] at hk
      change s.worker k = _ at hk
      exact absurd (hk ▸ trivial : (s.worker k).Locks) (hothers k hki)
  · intro k hk
    by_cases hki : k = i
    · subst hki
      rw [goTo_self] at hk
      cases hk
    · rw [goTo_of_ne _ _ hki] at hk
      change s.worker k = _ at hk
      exact absurd (hk ▸ trivial : (s.worker k).Locks) (hothers k hki)
  · exact h.flag
  · intro k hk
    by_cases hki : k = i
    · subst hki
      rw [goTo_self] at hk
      rcases hk with hk | hk <;> cases hk
    · rw [goTo_of_ne _ _ hki] at hk
      exact h.ended k hk
  · rintro hopen ⟨k, hk⟩
    have hki : k ≠ i := by
      rintro rfl
      rw [goTo_self] at hk
      cases hk
    rw [goTo_of_ne _ _ hki] at hk
    rcases h.conserving hopen ⟨k, hk⟩ with hbroadcast | hle
    · exact .inl hbroadcast
    · right
      have hsum := hunters_goTo { s with tasks := tasks } i
        (.release task)
      change _ + (s.worker i).hunts = s.hunters + _ at hsum
      rw [hi] at hsum
      rw [htasks, List.length_cons] at hle
      simp only [WorkerPlace.hunts] at hsum
      change tasks.length ≤ _ + s.notes
      omega

omit [DecidableEq π] in
theorem Coherent.advance (h : s.Coherent) (hstep : s.advance i = .ok s') : s'.Coherent := by
  unfold ThreadPool.advance at hstep
  cases hi : s.worker i with
  | top =>
    simp only [hi] at hstep
    split_ifs at hstep with hfree
    obtain rfl := Except.ok.inj hstep
    refine h.move (.inr (.inl ⟨hfree, rfl, trivial⟩)) nofun nofun (by rintro (h | h) <;> cases h)
      (.inr (.inr ⟨nofun, ?_⟩))
    rw [hi]
    exact le_rfl
  | check =>
    simp only [hi] at hstep
    obtain rfl := Except.ok.inj hstep
    by_cases hflag : s.isShutdown = true
    · rw [if_pos hflag]
      exact h.move (.inl ⟨rfl, by rw [hi]; rfl⟩) nofun nofun (fun _ => hflag) (.inr (.inl hflag))
    · rw [if_neg hflag]
      refine h.move (.inl ⟨rfl, by rw [hi]; rfl⟩) nofun nofun (by rintro (h | h) <;> cases h)
        (.inr (.inr ⟨nofun, ?_⟩))
      rw [hi]
      exact le_rfl
  | look =>
    simp only [hi] at hstep
    obtain rfl := Except.ok.inj hstep
    by_cases hempty : s.tasks = []
    · rw [if_pos (by rw [hempty]; rfl)]
      exact h.move (.inl ⟨rfl, by rw [hi]; rfl⟩) (fun _ => hempty) nofun
        (by rintro (h | h) <;> cases h) (.inl hempty)
    · rw [if_neg (by rwa [List.isEmpty_iff])]
      refine h.move (.inl ⟨rfl, by rw [hi]; rfl⟩) nofun (fun _ => hempty)
        (by rintro (h | h) <;> cases h) (.inr (.inr ⟨nofun, ?_⟩))
      rw [hi]
      exact le_rfl
  | drowsy =>
    simp only [hi] at hstep
    obtain rfl := Except.ok.inj hstep
    exact h.move (.inr (.inr ⟨by rw [hi]; trivial, rfl, id⟩)) nofun nofun
      (by rintro (h | h) <;> cases h) (.inl (h.drowsy i hi))
  | asleep => simp [hi] at hstep
  | woken =>
    simp only [hi] at hstep
    split_ifs at hstep with hfree
    obtain rfl := Except.ok.inj hstep
    refine h.move (.inr (.inl ⟨hfree, rfl, trivial⟩)) nofun nofun (by rintro (h | h) <;> cases h)
      (.inr (.inr ⟨nofun, ?_⟩))
    rw [hi]
    exact le_rfl
  | leave =>
    simp only [hi] at hstep
    obtain rfl := Except.ok.inj hstep
    refine h.move (.inr (.inr ⟨by rw [hi]; trivial, rfl, id⟩)) nofun nofun
      (by rintro (h | h) <;> cases h) (.inr (.inr ⟨nofun, ?_⟩))
    rw [hi]
    exact le_rfl
  | take =>
    simp only [hi] at hstep
    cases htasks : s.tasks with
    | nil => exact absurd htasks (h.take i hi)
    | cons task tasks =>
      simp only [htasks] at hstep
      obtain rfl := Except.ok.inj hstep
      exact h.takeTask hi htasks
  | release task =>
    cases task with
    | none | some task =>
      simp only [hi] at hstep
      obtain rfl := Except.ok.inj hstep
      refine h.move (.inr (.inr ⟨by rw [hi]; trivial, rfl, id⟩)) nofun nofun
        (by rintro (h | h) <;> cases h) (.inr (.inr ⟨nofun, ?_⟩))
      rw [hi]
      exact Nat.zero_le _
  | run task =>
    simp only [hi] at hstep
    obtain rfl := Except.ok.inj hstep
    refine h.move (.inl ⟨rfl, by rw [hi]; rfl⟩) nofun nofun (by rintro (h | h) <;> cases h)
      (.inr (.inr ⟨nofun, ?_⟩))
    rw [hi]
    exact Nat.zero_le _
  | quit =>
    simp only [hi] at hstep
    obtain rfl := Except.ok.inj hstep
    have hflag := h.ended i (.inl hi)
    exact h.move (.inr (.inr ⟨by rw [hi]; trivial, rfl, id⟩)) nofun nofun (fun _ => hflag)
      (.inr (.inl hflag))
  | finished => simp [hi] at hstep

omit [DecidableEq ι] in
theorem Coherent.movePoster (h : s.Coherent) {mutex : Option (ι ⊕ π)}
    (hmutex : (mutex = s.mutex ∧ (stand.Locks ↔ (s.poster j).Locks)) ∨
      (s.mutex = none ∧ mutex = some (.inr j) ∧ stand.Locks) ∨
      ((s.poster j).Locks ∧ mutex = none ∧ ¬ stand.Locks))
    (hnotes : stand.notes = (s.poster j).notes)
    (hbroadcasts : (s.poster j).Broadcasts → stand.Broadcasts) :
    ({ s with mutex := mutex }.posterTo j stand).Coherent where
  guarded := by
    apply guarded_of_move (k := .inr j) h.guarded fun k hk => locks_posterTo_of_ne hk
    simpa [Locks, posterTo] using hmutex
  drowsy := h.drowsy
  take := h.take
  flag := h.flag
  ended := h.ended
  conserving := by
    intro hopen hasleep
    rcases h.conserving hopen hasleep with ⟨k, hk⟩ | hle
    · refine .inl ⟨k, ?_⟩
      by_cases hkj : k = j
      · subst hkj
        simpa [posterTo] using hbroadcasts hk
      · simpa [posterTo, hkj] using hk
    · right
      have hsum := notes_posterTo { s with mutex := mutex } j stand
      change _ + (s.poster j).notes = s.notes + _ at hsum
      change s.tasks.length ≤ s.hunters + _
      omega

omit [DecidableEq ι] in
theorem Coherent.emplace (h : s.Coherent) {post : Post Task} (hj : s.poster j = .emplace post) :
    ({ s with tasks := s.tasks ++ post.tasks }.posterTo j (.unlock post)).Coherent where
  guarded := by
    apply guarded_of_move (k := .inr j) h.guarded fun k hk => locks_posterTo_of_ne hk
    simp [Locks, posterTo, hj, PosterPlace.Locks]
  drowsy := by
    intro i hi
    -- who is about to sleep has the mutex
    have hlocks : s.Locks (.inr j) := by
      rw [Locks, hj]
      trivial
    have hlocked : s.Locks (.inl i) := by
      change s.worker i = .drowsy at hi
      rw [Locks, hi]
      trivial
    cases eq_of_locks h.guarded hlocks hlocked
  take := fun i hi => List.append_ne_nil_of_left_ne_nil (h.take i hi) _
  flag := h.flag
  ended := h.ended
  conserving := by
    intro hopen hasleep
    rcases h.conserving hopen hasleep with ⟨k, hk⟩ | hle
    · refine .inl ⟨k, ?_⟩
      have hkj : k ≠ j := by
        rintro rfl
        rw [hj] at hk
        exact hk
      simpa [posterTo, hkj] using hk
    · cases post with
      | many tasks => exact .inl ⟨j, by simp [posterTo, PosterPlace.Broadcasts]⟩
      | one task =>
        right
        have hsum := notes_posterTo { s with tasks := s.tasks ++ (Post.one task).tasks } j
          (.unlock (.one task))
        change _ + (s.poster j).notes = s.notes + 1 at hsum
        rw [hj] at hsum
        simp only [PosterPlace.notes] at hsum
        change (s.tasks ++ [task]).length ≤ s.hunters + _
        rw [List.length_append, List.length_singleton]
        omega

omit [DecidableEq ι] [DecidableEq π] in
theorem Coherent.wakeAll (h : s.Coherent) (hplace : s'.worker = s.notifyAll.worker)
    (hposter : ∀ k, (s'.poster k).Locks ↔ (s.poster k).Locks) (hmutex : s'.mutex = s.mutex)
    (htasks : s'.tasks = s.tasks) (hflag : s'.isShutdown = true ↔ s'.closer ≠ .outside)
    (hshut : s'.isShutdown = s.isShutdown) :
    s'.Coherent where
  guarded := by
    intro k
    rw [hmutex, h.guarded]
    cases k with
    | inl i =>
      rw [Locks, Locks, hplace]
      change (s.worker i).Locks ↔ (s.worker i).wake.Locks
      cases s.worker i <;> rfl
    | inr k => exact (hposter k).symm
  drowsy := by
    intro i hi
    rw [htasks]
    apply h.drowsy i
    rw [hplace] at hi
    change (s.worker i).wake = .drowsy at hi
    cases hw : s.worker i <;> rw [hw] at hi <;> first | rfl | cases hi
  take := by
    intro i hi
    rw [htasks]
    apply h.take i
    rw [hplace] at hi
    change (s.worker i).wake = .take at hi
    cases hw : s.worker i <;> rw [hw] at hi <;> first | rfl | cases hi
  flag := hflag
  ended := by
    intro i hi
    rw [hshut]
    apply h.ended i
    rw [hplace] at hi
    change (s.worker i).wake = .quit ∨ (s.worker i).wake = .finished at hi
    cases hw : s.worker i <;> rw [hw] at hi <;> simp [WorkerPlace.wake] at hi ⊢
  conserving := by
    rintro - ⟨i, hi⟩
    rw [hplace] at hi
    change (s.worker i).wake = .asleep at hi
    cases hw : s.worker i <;> rw [hw] at hi <;> cases hi

omit [DecidableEq ι] in
theorem Coherent.advancePoster (h : s.Coherent) (hstep : s.advancePoster j = .ok s') :
    s'.Coherent := by
  unfold ThreadPool.advancePoster at hstep
  cases hj : s.poster j with
  | outside => simp [hj] at hstep
  | lock post =>
    simp only [hj] at hstep
    split_ifs at hstep with hfree
    obtain rfl := Except.ok.inj hstep
    refine h.movePoster (.inr (.inl ⟨hfree, rfl, trivial⟩)) ?_ ?_ <;> rw [hj]
    · rfl
    · exact id
  | emplace post =>
    simp only [hj] at hstep
    obtain rfl := Except.ok.inj hstep
    exact h.emplace hj
  | unlock post =>
    simp only [hj] at hstep
    obtain rfl := Except.ok.inj hstep
    refine h.movePoster (.inr (.inr ⟨by rw [hj]; trivial, rfl, id⟩)) ?_ ?_ <;> rw [hj] <;> cases post
    · rfl
    · rfl
    · exact id
    · exact id
  | notify post =>
    cases post with
    | one task => simp [hj] at hstep
    | many tasks =>
      simp only [hj] at hstep
      obtain rfl := Except.ok.inj hstep
      refine h.wakeAll rfl ?_ rfl rfl h.flag rfl
      intro k
      by_cases hkj : k = j
      · subst hkj
        simp [posterTo, hj, PosterPlace.Locks]
      · simp [posterTo, notifyAll, hkj]

theorem Coherent.notifyOne (h : s.Coherent) {woken : Option ι}
    (hstep : s.step (.notifiesOne j woken) = .ok s') : s'.Coherent := by
  unfold ThreadPool.step at hstep
  cases hj : s.poster j with
  | notify post =>
    cases post with
    | many tasks => simp [hj] at hstep
    | one task =>
      cases woken with
      | some i =>
        simp only [hj] at hstep
        split_ifs at hstep with hasleep
        obtain rfl := Except.ok.inj hstep
        have hwoken : (s.goTo i .woken).Coherent :=
          h.move (.inl ⟨rfl, by rw [hasleep]; rfl⟩) nofun nofun (by rintro (h | h) <;> cases h)
            (.inr (.inr ⟨nofun, by rw [hasleep]; exact Nat.zero_le _⟩))
        refine { guarded := ?_, drowsy := hwoken.drowsy, take := hwoken.take
                 flag := h.flag, ended := hwoken.ended, conserving := ?_ }
        · apply guarded_of_move (k := .inr j) hwoken.guarded fun k hk => locks_posterTo_of_ne hk
          simp [Locks, posterTo, goTo, hj, PosterPlace.Locks]
        · -- the one who is woken makes up for the notification
          rintro hopen -
          rcases h.conserving hopen ⟨i, hasleep⟩ with ⟨k, hk⟩ | hle
          · refine .inl ⟨k, ?_⟩
            have hkj : k ≠ j := by
              rintro rfl
              rw [hj] at hk
              exact hk
            simpa [posterTo, goTo, hkj] using hk
          · right
            have hhunters := hunters_goTo s i .woken
            have hsum := notes_posterTo s j .outside
            rw [hasleep] at hhunters
            rw [hj] at hsum
            simp only [WorkerPlace.hunts, PosterPlace.notes] at hhunters hsum
            change s.tasks.length ≤ (s.goTo i .woken).hunters + (s.posterTo j .outside).notes
            omega
      | none =>
        simp only [hj] at hstep
        split_ifs at hstep with hnone
        obtain rfl := Except.ok.inj hstep
        refine { guarded := ?_, drowsy := h.drowsy, take := h.take, flag := h.flag
                 ended := h.ended, conserving := fun _ hasleep => absurd hasleep hnone }
        apply guarded_of_move (k := .inr j) h.guarded fun k hk => locks_posterTo_of_ne hk
        simp [Locks, posterTo, hj, PosterPlace.Locks]
  | _ => simp [hj] at hstep

theorem Coherent.step {e : PoolEvent ι π Task} (h : s.Coherent) (hstep : s.step e = .ok s') :
    s'.Coherent := by
  cases e with
  | posts j post =>
    simp only [ThreadPool.step] at hstep
    cases hj : s.poster j <;> simp only [hj] at hstep
    case outside =>
      obtain rfl := Except.ok.inj hstep
      refine h.movePoster (.inl ⟨rfl, by rw [hj]; rfl⟩) ?_ ?_ <;> rw [hj]
      · rfl
      · exact id
    all_goals cases hstep
  | advance i => exact h.advance hstep
  | advancePoster j => exact h.advancePoster hstep
  | notifiesOne j woken => exact h.notifyOne hstep
  | spurious i =>
    simp only [ThreadPool.step] at hstep
    split_ifs at hstep with hasleep
    obtain rfl := Except.ok.inj hstep
    exact h.move (.inl ⟨rfl, by rw [hasleep]; rfl⟩) nofun nofun (by rintro (h | h) <;> cases h)
      (.inr (.inr ⟨nofun, by rw [hasleep]; exact Nat.zero_le _⟩))
  | shutdown =>
    simp only [ThreadPool.step] at hstep
    cases hcloser : s.closer <;> simp only [hcloser] at hstep
    case outside =>
      obtain rfl := Except.ok.inj hstep
      exact ⟨h.guarded, h.drowsy, h.take, iff_of_true rfl nofun, fun _ _ => rfl, nofun⟩
    all_goals cases hstep
  | advanceCloser =>
    simp only [ThreadPool.step] at hstep
    cases hcloser : s.closer <;> simp only [hcloser] at hstep
    case notify =>
      obtain rfl := Except.ok.inj hstep
      have hflag : s.isShutdown = true := h.flag.mpr (by rw [hcloser]; nofun)
      exact h.wakeAll rfl (fun _ => Iff.rfl) rfl rfl (iff_of_true hflag nofun) rfl
    case join =>
      split_ifs at hstep
      obtain rfl := Except.ok.inj hstep
      have hflag : s.isShutdown = true := h.flag.mpr (by rw [hcloser]; nofun)
      exact ⟨h.guarded, h.drowsy, h.take, iff_of_true hflag nofun, h.ended, h.conserving⟩
    all_goals cases hstep

end Invariant

section Accounts

variable {s s' : ThreadPool ι π Task} {i : ι} {j : π} {place : WorkerPlace Task}
  {sights : List (Sight Task)}

/-- What was posted is in the queue or was taken out, in order; and what was taken out was run or is
in hand. -/
structure Accounted (sights : List (Sight Task)) (s : ThreadPool ι π Task) : Prop where
  order : taken sights ++ s.tasks = posted sights
  hands : (ran sights : Multiset Task) + s.hands = ((taken sights).filterMap id : Multiset Task)

omit [DecidableEq ι] [DecidableEq π] in
theorem accounted_init : ({} : ThreadPool ι π Task).Accounted [] where
  order := rfl
  hands := by
    have hempty : ({} : ThreadPool ι π Task).hands = 0 := Finset.sum_eq_zero fun _ _ => rfl
    rw [hempty]
    rfl

@[simp] theorem posted_append (sights sights' : List (Sight Task)) :
    posted (sights ++ sights') = posted sights ++ posted sights' :=
  List.flatMap_append

@[simp] theorem taken_append (sights sights' : List (Sight Task)) :
    taken (sights ++ sights') = taken sights ++ taken sights' :=
  List.filterMap_append

@[simp] theorem ran_append (sights sights' : List (Sight Task)) :
    ran (sights ++ sights') = ran sights ++ ran sights' :=
  List.filterMap_append

omit [DecidableEq ι] [DecidableEq π] in
theorem Accounted.keep (h : s.Accounted sights) (htasks : s'.tasks = s.tasks)
    (hhands : s'.hands = s.hands) : s'.Accounted sights where
  order := by rw [htasks, h.order]
  hands := by rw [hhands, h.hands]

omit [DecidableEq π] in
theorem hands_goTo (s : ThreadPool ι π Task) (i : ι) (place : WorkerPlace Task) :
    (s.goTo i place).hands + (s.worker i).inHand = s.hands + place.inHand :=
  sum_update_add WorkerPlace.inHand s.worker i place

omit [DecidableEq π] in
theorem hands_goTo_of_eq (h : place.inHand = (s.worker i).inHand) : (s.goTo i place).hands = s.hands :=
  add_right_cancel ((hands_goTo s i place).trans (by rw [h]))

omit [DecidableEq ι] [DecidableEq π] in
theorem hands_notifyAll : s.notifyAll.hands = s.hands := by
  apply Finset.sum_congr rfl
  intro i _
  change (s.worker i).wake.inHand = (s.worker i).inHand
  cases s.worker i <;> rfl

omit [DecidableEq π] in
theorem Accounted.advance (h : s.Accounted sights) (hstep : s.advance i = .ok s') :
    s'.Accounted (sights ++ sees s (.advance i) s') := by
  unfold ThreadPool.advance at hstep
  cases hi : s.worker i with
  | top | woken =>
    simp only [hi] at hstep
    split_ifs at hstep
    obtain rfl := Except.ok.inj hstep
    simp only [sees, hi, List.append_nil]
    exact h.keep rfl (hands_goTo_of_eq (by rw [hi]; rfl))
  | check | look =>
    simp only [hi] at hstep
    obtain rfl := Except.ok.inj hstep
    simp only [sees, hi, List.append_nil]
    refine h.keep rfl (hands_goTo_of_eq ?_)
    rw [hi]
    split_ifs <;> rfl
  | drowsy | leave | quit =>
    simp only [hi] at hstep
    obtain rfl := Except.ok.inj hstep
    simp only [sees, hi, List.append_nil]
    exact h.keep rfl (hands_goTo_of_eq (by rw [hi]; rfl))
  | asleep | finished => simp [hi] at hstep
  | take =>
    simp only [hi] at hstep
    cases htasks : s.tasks with
    | nil => simp [htasks] at hstep
    | cons task tasks =>
      simp only [htasks] at hstep
      obtain rfl := Except.ok.inj hstep
      simp only [sees, hi, goTo_self]
      have hsum := hands_goTo { s with tasks := tasks } i (.release task)
      rw [hi] at hsum
      change _ + 0 = s.hands + _ at hsum
      rw [add_zero] at hsum
      have hinHand : (WorkerPlace.release task).inHand = ([task].filterMap id : Multiset Task) := by
        cases task <;> rfl
      constructor
      · have horder := h.order
        rw [htasks] at horder
        rw [taken_append, posted_append, ← horder]
        simp [taken, posted, goTo]
      · have hran : ran (sights ++ [.taken task]) = ran sights := by
          rw [ran_append]
          exact List.append_nil _
        rw [hran, taken_append, List.filterMap_append, ← Multiset.coe_add, ← h.hands, hsum, hinHand,
          add_assoc]
        rfl
  | release task =>
    cases task with
    | none | some task =>
      simp only [hi] at hstep
      obtain rfl := Except.ok.inj hstep
      simp only [sees, hi, List.append_nil]
      exact h.keep rfl (hands_goTo_of_eq (by rw [hi]; rfl))
  | run task =>
    simp only [hi] at hstep
    obtain rfl := Except.ok.inj hstep
    simp only [sees, hi]
    have hsum := hands_goTo s i .top
    rw [hi] at hsum
    change _ + {task} = s.hands + 0 at hsum
    constructor
    · rw [taken_append, posted_append, ← h.order]
      simp [taken, posted, goTo]
    · rw [ran_append, taken_append, ← Multiset.coe_add, add_assoc]
      change _ + ({task} + _) = ((taken sights ++ []).filterMap id : Multiset Task)
      rw [List.append_nil, ← h.hands, ← add_zero s.hands, ← hsum, add_comm ({task} : Multiset Task)]

omit [DecidableEq ι] in
theorem Accounted.advancePoster (h : s.Accounted sights) (hstep : s.advancePoster j = .ok s') :
    s'.Accounted (sights ++ sees s (.advancePoster j) s') := by
  unfold ThreadPool.advancePoster at hstep
  cases hj : s.poster j with
  | outside => simp [hj] at hstep
  | lock post =>
    simp only [hj] at hstep
    split_ifs at hstep
    obtain rfl := Except.ok.inj hstep
    simp only [sees, hj, List.append_nil]
    exact h.keep rfl rfl
  | emplace post =>
    simp only [hj] at hstep
    obtain rfl := Except.ok.inj hstep
    simp only [sees, hj]
    constructor
    · rw [taken_append, posted_append, ← h.order]
      simp [taken, posted, posterTo]
    · rw [ran_append, taken_append]
      change ((ran sights ++ [] : List Task) : Multiset Task) + s.hands =
        ((taken sights ++ []).filterMap id : Multiset Task)
      rw [List.append_nil, List.append_nil, h.hands]
  | unlock post =>
    simp only [hj] at hstep
    obtain rfl := Except.ok.inj hstep
    simp only [sees, hj, List.append_nil]
    exact h.keep rfl rfl
  | notify post =>
    cases post with
    | one task => simp [hj] at hstep
    | many tasks =>
      simp only [hj] at hstep
      obtain rfl := Except.ok.inj hstep
      simp only [sees, hj, List.append_nil]
      exact h.keep rfl hands_notifyAll

theorem Accounted.step {e : PoolEvent ι π Task} (h : s.Accounted sights) (hstep : s.step e = .ok s') :
    s'.Accounted (sights ++ sees s e s') := by
  cases e with
  | advance i => exact h.advance hstep
  | advancePoster j => exact h.advancePoster hstep
  | posts j post =>
    simp only [ThreadPool.step] at hstep
    simp only [sees, List.append_nil]
    cases hj : s.poster j <;> simp only [hj] at hstep
    case outside =>
      obtain rfl := Except.ok.inj hstep
      exact h.keep rfl rfl
    all_goals cases hstep
  | notifiesOne j woken =>
    unfold ThreadPool.step at hstep
    simp only [sees, List.append_nil]
    cases hj : s.poster j with
    | notify post =>
      cases post with
      | many tasks => simp [hj] at hstep
      | one task =>
        cases woken with
        | some i =>
          simp only [hj] at hstep
          split_ifs at hstep with hasleep
          obtain rfl := Except.ok.inj hstep
          exact h.keep rfl (hands_goTo_of_eq (i := i) (by rw [hasleep]; rfl))
        | none =>
          simp only [hj] at hstep
          split_ifs at hstep
          obtain rfl := Except.ok.inj hstep
          exact h.keep rfl rfl
    | _ => simp [hj] at hstep
  | spurious i =>
    simp only [ThreadPool.step] at hstep
    simp only [sees, List.append_nil]
    split_ifs at hstep with hasleep
    obtain rfl := Except.ok.inj hstep
    exact h.keep rfl (hands_goTo_of_eq (by rw [hasleep]; rfl))
  | shutdown =>
    simp only [ThreadPool.step] at hstep
    simp only [sees, List.append_nil]
    cases hcloser : s.closer <;> simp only [hcloser] at hstep
    case outside =>
      obtain rfl := Except.ok.inj hstep
      exact h.keep rfl rfl
    all_goals cases hstep
  | advanceCloser =>
    simp only [ThreadPool.step] at hstep
    simp only [sees, List.append_nil]
    cases hcloser : s.closer <;> simp only [hcloser] at hstep
    case notify =>
      obtain rfl := Except.ok.inj hstep
      exact h.keep rfl hands_notifyAll
    case join =>
      split_ifs at hstep
      obtain rfl := Except.ok.inj hstep
      exact h.keep rfl rfl
    all_goals cases hstep

end Accounts

variable [Fintype π]

/-- In every interleaving: the tasks are taken out in the order in which they were posted, each at
most once and none left out, and every one that was taken out and is not `nullptr` was run once or is
in the hand of a thread; and before the pool is shut down no thread of it sleeps while there are more
tasks than threads on their way to them and notifications to come. -/
theorem order_and_conserving (es : List (PoolEvent ι π Task)) (s : ThreadPool ι π Task)
    (hrun : RunWhere step Unrestricted {} es s) :
    taken (sights es) ++ s.tasks = posted (sights es) ∧
    (ran (sights es) : Multiset Task) + s.hands =
      ((taken (sights es)).filterMap id : Multiset Task) ∧
    (s.isShutdown = false → (∃ i, s.worker i = .asleep) →
      (∃ j, (s.poster j).Broadcasts) ∨ s.tasks.length ≤ s.hunters + s.notes) := by
  have h : s.Coherent := hrun.invariant Coherent (fun _ _ _ hs _ hstep => hs.step hstep) coherent_init
  have haccounted : s.Accounted (sights es) :=
    hrun.invariant_seen (fun sights s => s.Accounted sights) accounted_init
      fun _ _ _ _ hs _ hstep => hs.step hstep
  exact ⟨haccounted.order, haccounted.hands, h.conserving⟩

/-- One thread sleeps while a task is posted, the other one takes the task out. -/
theorem order_and_conserving_sample :
    ∃ (es : List (PoolEvent Bool Bool ℕ)) (s : ThreadPool Bool Bool ℕ),
      RunWhere step Unrestricted {} es s ∧ posted (sights es) = [some 7, none] ∧
      taken (sights es) = [some 7] ∧ s.tasks = [none] ∧
      (ran (sights es) : Multiset ℕ) + s.hands = {7} ∧
      ((∃ j, (s.poster j).Broadcasts) ∨ s.tasks.length ≤ s.hunters + s.notes) := by
  let es : List (PoolEvent Bool Bool ℕ) :=
    [.advance true, .advance true, .advance true, .advance true, .posts false (.many [some 7, none]),
      .advancePoster false, .advancePoster false, .advancePoster false, .advance false,
      .advance false, .advance false, .advance false, .advance false]
  obtain ⟨s, hrun, hstate⟩ := exists_run_of_any step Unrestricted {} es
    (fun s => !s.isShutdown && decide (s.worker true = .asleep) && decide (s.tasks = [none]))
    (by decide)
  simp only [Bool.and_eq_true, Bool.not_eq_true', decide_eq_true_eq] at hstate
  obtain ⟨⟨hopen, hasleep⟩, htasks⟩ := hstate
  obtain ⟨-, hhands, hconserving⟩ := order_and_conserving es s hrun
  have htaken : taken (sights es) = [some 7] := by decide
  rw [htaken] at hhands
  exact ⟨es, s, hrun, by decide, htaken, htasks, hhands, hconserving hopen ⟨true, hasleep⟩⟩

/-- When `shutdown` notifies, no thread has found the flag unset and will go to sleep. -/
def WakesAll (s : ThreadPool ι π Task) : PoolEvent ι π Task → Prop
  | .advanceCloser =>
    s.closer = .notify → ∀ i, s.worker i ≠ .drowsy ∧ (s.worker i = .look → s.tasks ≠ [])
  | _ => True

section Shutdown

variable {s s' : ThreadPool ι π Task} {i : ι} {j : π} {place : WorkerPlace Task}

def Settled (s : ThreadPool ι π Task) : Prop :=
  ∀ i, s.worker i ≠ .asleep ∧ s.worker i ≠ .drowsy ∧ (s.worker i = .look → s.tasks ≠ [])

omit [DecidableEq π] [Fintype ι] [Fintype π] in
theorem frame_advance (hstep : s.advance i = .ok s') :
    (∃ place, s'.worker = Function.update s.worker i place) ∧ s'.poster = s.poster ∧
      s'.closer = s.closer ∧ (s.tasks = [] → s'.tasks = []) := by
  unfold ThreadPool.advance at hstep
  cases hplace : s.worker i <;> simp only [hplace] at hstep
  case top | woken =>
    split_ifs at hstep
    obtain rfl := Except.ok.inj hstep
    exact ⟨⟨_, rfl⟩, rfl, rfl, id⟩
  case take =>
    cases htasks : s.tasks <;> simp only [htasks] at hstep
    · cases hstep
    · obtain rfl := Except.ok.inj hstep
      exact ⟨⟨_, rfl⟩, rfl, rfl, nofun⟩
  case release task =>
    cases task <;> obtain rfl := Except.ok.inj hstep <;> exact ⟨⟨_, rfl⟩, rfl, rfl, id⟩
  case asleep => cases hstep
  case finished => cases hstep
  all_goals
    obtain rfl := Except.ok.inj hstep
    exact ⟨⟨_, rfl⟩, rfl, rfl, id⟩

omit [DecidableEq ι] [Fintype ι] [Fintype π] in
theorem closer_advancePoster (hstep : s.advancePoster j = .ok s') : s'.closer = s.closer := by
  unfold ThreadPool.advancePoster at hstep
  cases hj : s.poster j with
  | outside => simp [hj] at hstep
  | lock post =>
    simp only [hj] at hstep
    split_ifs at hstep
    obtain rfl := Except.ok.inj hstep
    rfl
  | emplace post | unlock post =>
    simp only [hj] at hstep
    obtain rfl := Except.ok.inj hstep
    rfl
  | notify post =>
    cases post with
    | one task => simp [hj] at hstep
    | many tasks =>
      simp only [hj] at hstep
      obtain rfl := Except.ok.inj hstep
      rfl

omit [DecidableEq π] [Fintype ι] [Fintype π] in
theorem Settled.goTo (h : s.Settled) {t : ThreadPool ι π Task} (hworker : t.worker = s.worker)
    (htasks : t.tasks = s.tasks) (hasleep : place ≠ .asleep) (hdrowsy : place ≠ .drowsy)
    (hlook : place ≠ .look) : (t.goTo i place).Settled := by
  intro k
  by_cases hki : k = i
  · subst hki
    rw [goTo_self]
    exact ⟨hasleep, hdrowsy, fun hk => absurd hk hlook⟩
  · rw [goTo_of_ne _ _ hki, hworker]
    change _ ∧ _ ∧ (_ → t.tasks ≠ [])
    rw [htasks]
    exact h k

omit [DecidableEq π] in
theorem Settled.advance (h : s.Settled) (hcoherent : s.Coherent) (hflag : s.isShutdown = true)
    (hstep : s.advance i = .ok s') :
    s'.Settled ∧ (s'.worker i).rank + 1 ≤ (s.worker i).rank := by
  have hi := h i
  unfold ThreadPool.advance at hstep
  cases hplace : s.worker i with
  | top | woken =>
    simp only [hplace] at hstep
    split_ifs at hstep
    obtain rfl := Except.ok.inj hstep
    refine ⟨h.goTo rfl rfl nofun nofun nofun, ?_⟩
    rw [goTo_self]
    simp [WorkerPlace.rank]
  | check =>
    simp only [hplace, hflag, if_true] at hstep
    obtain rfl := Except.ok.inj hstep
    refine ⟨h.goTo rfl rfl nofun nofun nofun, ?_⟩
    rw [goTo_self]
    simp [WorkerPlace.rank]
  | look =>
    have htasks : ¬ s.tasks.isEmpty = true := by
      rw [List.isEmpty_iff]
      exact hi.2.2 hplace
    simp only [hplace, if_neg htasks] at hstep
    obtain rfl := Except.ok.inj hstep
    refine ⟨h.goTo rfl rfl nofun nofun nofun, ?_⟩
    rw [goTo_self]
    simp [WorkerPlace.rank]
  | drowsy => exact absurd hplace hi.2.1
  | asleep => exact absurd hplace hi.1
  | leave | run task | quit =>
    simp only [hplace] at hstep
    obtain rfl := Except.ok.inj hstep
    refine ⟨h.goTo rfl rfl nofun nofun nofun, ?_⟩
    rw [goTo_self]
    simp [WorkerPlace.rank]
  | take =>
    simp only [hplace] at hstep
    cases htasks : s.tasks with
    | nil => simp [htasks] at hstep
    | cons task tasks =>
      simp only [htasks] at hstep
      obtain rfl := Except.ok.inj hstep
      -- with the queue one task shorter, nobody else may be looking at it
      have hlocks : s.Locks (.inl i) := by
        rw [Locks, hplace]
        trivial
      have hlook : ∀ k, k ≠ i → s.worker k ≠ .look := by
        intro k hki hk
        have hlocked : s.Locks (.inl k) := by
          rw [Locks, hk]
          trivial
        exact hki (Sum.inl.inj (eq_of_locks hcoherent.guarded hlocked hlocks))
      constructor
      · intro k
        by_cases hki : k = i
        · subst hki
          rw [goTo_self]
          exact ⟨nofun, nofun, nofun⟩
        · rw [goTo_of_ne _ _ hki]
          exact ⟨(h k).1, (h k).2.1, fun hk => absurd hk (hlook k hki)⟩
      · rw [goTo_self]
        exact le_rfl
  | release task =>
    cases task with
    | none | some task =>
      simp only [hplace] at hstep
      obtain rfl := Except.ok.inj hstep
      refine ⟨h.goTo rfl rfl nofun nofun nofun, ?_⟩
      rw [goTo_self]
      simp [WorkerPlace.rank]
  | finished => simp [hplace] at hstep

omit [DecidableEq ι] [DecidableEq π] [Fintype ι] [Fintype π] in
theorem Settled.keep (h : s.Settled) (hworker : s'.worker = s.worker)
    (htasks : s.tasks ≠ [] → s'.tasks ≠ []) :
    s'.Settled ∧ ∀ i, (s'.worker i).rank ≤ (s.worker i).rank := by
  constructor
  · intro i
    rw [hworker]
    exact ⟨(h i).1, (h i).2.1, fun hlook => htasks ((h i).2.2 hlook)⟩
  · intro i
    rw [hworker]

omit [DecidableEq ι] [DecidableEq π] [Fintype ι] [Fintype π] in
theorem notifyAll_worker (h : s.Settled) : s.notifyAll.worker = s.worker := by
  funext i
  have hi := (h i).1
  change (s.worker i).wake = s.worker i
  cases hplace : s.worker i <;> first | rfl | exact absurd hplace hi

/-- `shutdown` has notified. -/
def Notified (s : ThreadPool ι π Task) : Prop := s.closer = .join ∨ s.closer = .done

theorem Settled.step {e : PoolEvent ι π Task} (h : s.Settled) (hcoherent : s.Coherent)
    (hnotified : s.Notified) (hstep : s.step e = .ok s') :
    s'.Notified ∧ s'.Settled ∧
      ∀ i, (s'.worker i).rank + [e].countP (PoolEvent.Advances i) ≤ (s.worker i).rank := by
  have hflag : s.isShutdown = true :=
    hcoherent.flag.mpr (by rcases hnotified with h | h <;> rw [h] <;> nofun)
  cases e with
  | posts j post =>
    simp only [ThreadPool.step] at hstep
    cases hj : s.poster j <;> simp only [hj] at hstep
    case outside =>
      obtain rfl := Except.ok.inj hstep
      exact ⟨hnotified, h.keep rfl id⟩
    all_goals cases hstep
  | advance i =>
    obtain ⟨⟨place, hworker⟩, -, hcloser, -⟩ := frame_advance hstep
    obtain ⟨hsettled, hrank⟩ := h.advance hcoherent hflag hstep
    refine ⟨by rwa [Notified, hcloser], hsettled, fun k => ?_⟩
    by_cases hki : k = i
    · subst hki
      simpa [PoolEvent.Advances] using hrank
    · rw [hworker, Function.update_of_ne hki]
      simp [PoolEvent.Advances, Ne.symm hki]
  | advancePoster j =>
    change s.advancePoster j = .ok s' at hstep
    unfold ThreadPool.advancePoster at hstep
    cases hj : s.poster j with
    | outside => simp [hj] at hstep
    | lock post =>
      simp only [hj] at hstep
      split_ifs at hstep
      obtain rfl := Except.ok.inj hstep
      exact ⟨hnotified, h.keep rfl id⟩
    | emplace post =>
      simp only [hj] at hstep
      obtain rfl := Except.ok.inj hstep
      exact ⟨hnotified, h.keep rfl fun htasks => List.append_ne_nil_of_left_ne_nil htasks _⟩
    | unlock post =>
      simp only [hj] at hstep
      obtain rfl := Except.ok.inj hstep
      exact ⟨hnotified, h.keep rfl id⟩
    | notify post =>
      cases post with
      | one task => simp [hj] at hstep
      | many tasks =>
        simp only [hj] at hstep
        obtain rfl := Except.ok.inj hstep
        exact ⟨hnotified, h.keep (notifyAll_worker h) id⟩
  | notifiesOne j woken =>
    unfold ThreadPool.step at hstep
    cases hj : s.poster j with
    | notify post =>
      cases post with
      | many tasks => simp [hj] at hstep
      | one task =>
        cases woken with
        | some i =>
          simp only [hj] at hstep
          rw [if_neg (h i).1] at hstep
          cases hstep
        | none =>
          simp only [hj] at hstep
          split_ifs at hstep
          obtain rfl := Except.ok.inj hstep
          exact ⟨hnotified, h.keep rfl id⟩
    | _ => simp [hj] at hstep
  | spurious i =>
    simp only [ThreadPool.step] at hstep
    rw [if_neg (h i).1] at hstep
    cases hstep
  | shutdown =>
    simp only [ThreadPool.step] at hstep
    rcases hnotified with hcloser | hcloser <;> simp [hcloser] at hstep
  | advanceCloser =>
    simp only [ThreadPool.step] at hstep
    rcases hnotified with hcloser | hcloser <;> simp only [hcloser] at hstep
    · split_ifs at hstep
      obtain rfl := Except.ok.inj hstep
      exact ⟨.inr rfl, h.keep rfl id⟩
    · cases hstep

omit [DecidableEq π] in
theorem Coherent.advance_of_locks (h : s.Coherent) (hlocks : (s.worker i).Locks) :
    ∃ t, s.advance i = .ok t := by
  unfold ThreadPool.advance
  cases hplace : s.worker i with
  | take =>
    cases htasks : s.tasks with
    | nil => exact absurd htasks (h.take i hplace)
    | cons task tasks => exact ⟨_, rfl⟩
  | release task => cases task <;> exact ⟨_, rfl⟩
  | check | look | drowsy | leave | quit => exact ⟨_, rfl⟩
  | top | asleep | woken | run task | finished =>
    rw [hplace] at hlocks
    cases hlocks

/-- While a thread of the pool is left and nobody sleeps, some thread can go on. -/
theorem Settled.exists_step (h : s.Settled) (hcoherent : s.Coherent)
    (hleft : ∃ i, s.worker i ≠ .finished) :
    ∃ (e : PoolEvent ι π Task) (t : ThreadPool ι π Task), e.Inside ∧ s.step e = .ok t := by
  cases hmutex : s.mutex with
  | some k =>
    have hlocks := (hcoherent.guarded k).mp hmutex
    cases k with
    | inl i =>
      obtain ⟨t, hstep⟩ := hcoherent.advance_of_locks hlocks
      exact ⟨.advance i, t, trivial, hstep⟩
    | inr j =>
      change (s.poster j).Locks at hlocks
      cases hj : s.poster j with
      | emplace post | unlock post =>
        exact ⟨.advancePoster j, _, trivial, by simp only [ThreadPool.step, ThreadPool.advancePoster, hj]; rfl⟩
      | outside | lock post | notify post =>
        rw [hj] at hlocks
        cases hlocks
  | none =>
    obtain ⟨i, hi⟩ := hleft
    refine ⟨.advance i, ?_⟩
    change ∃ t, _ ∧ s.advance i = .ok t
    unfold ThreadPool.advance
    have hfree : ¬ s.Locks (.inl i) := by
      rw [← hcoherent.guarded, hmutex]
      nofun
    change ¬ (s.worker i).Locks at hfree
    cases hplace : s.worker i with
    | top | woken => exact ⟨_, trivial, if_pos hmutex⟩
    | run task => exact ⟨_, trivial, rfl⟩
    | asleep => exact absurd hplace (h i).1
    | finished => exact absurd hplace hi
    | check | look | drowsy | leave | take | release task | quit =>
      rw [hplace] at hfree
      exact absurd trivial hfree

omit [Fintype π] in
theorem closer_of_step {e : PoolEvent ι π Task} (hstep : s.step e = .ok s')
    (hbefore : ¬ s.Notified) (hafter : s'.Notified) : e = .advanceCloser ∧ s.closer = .notify := by
  have hsame : s'.closer ≠ s.closer := by
    intro hcloser
    rw [Notified, hcloser] at hafter
    exact hbefore hafter
  cases e with
  | advance i => exact absurd (frame_advance hstep).2.2.1 hsame
  | posts j post =>
    simp only [ThreadPool.step] at hstep
    cases hj : s.poster j <;> simp only [hj] at hstep
    case outside =>
      obtain rfl := Except.ok.inj hstep
      exact absurd rfl hsame
    all_goals cases hstep
  | advancePoster j => exact absurd (closer_advancePoster hstep) hsame
  | notifiesOne j woken =>
    unfold ThreadPool.step at hstep
    cases hj : s.poster j with
    | notify post =>
      cases post <;> cases woken <;> simp only [hj] at hstep
      case one.none | one.some =>
        split_ifs at hstep
        obtain rfl := Except.ok.inj hstep
        exact absurd rfl hsame
      all_goals cases hstep
    | _ => simp [hj] at hstep
  | spurious i =>
    simp only [ThreadPool.step] at hstep
    split_ifs at hstep
    obtain rfl := Except.ok.inj hstep
    exact absurd rfl hsame
  | shutdown =>
    simp only [ThreadPool.step] at hstep
    cases hcloser : s.closer <;> simp only [hcloser] at hstep
    case outside =>
      obtain rfl := Except.ok.inj hstep
      rcases hafter with hafter | hafter <;> cases hafter
    all_goals cases hstep
  | advanceCloser =>
    refine ⟨rfl, ?_⟩
    simp only [ThreadPool.step] at hstep
    cases hcloser : s.closer <;> simp only [hcloser] at hstep
    case join => exact absurd (.inl hcloser) hbefore
    all_goals cases hstep
    rfl

/-- What holds in the runs in which the notification reaches everybody. -/
def Reached (s : ThreadPool ι π Task) : Prop := s.Coherent ∧ (s.Notified → s.Settled)

theorem Reached.step {e : PoolEvent ι π Task} (h : s.Reached) (hwakes : s.WakesAll e)
    (hstep : s.step e = .ok s') : s'.Reached := by
  refine ⟨h.1.step hstep, fun hnotified => ?_⟩
  by_cases hbefore : s.Notified
  · exact ((h.2 hbefore).step h.1 hbefore hstep).2.1
  · have hcloser := closer_of_step hstep hbefore hnotified
    obtain ⟨rfl, hnotify⟩ := hcloser
    simp only [ThreadPool.step, hnotify] at hstep
    obtain rfl := Except.ok.inj hstep
    intro i
    have hi := hwakes hnotify i
    change (s.worker i).wake ≠ _ ∧ (s.worker i).wake ≠ _ ∧ ((s.worker i).wake = _ → s.tasks ≠ [])
    cases hplace : s.worker i <;> rw [hplace] at hi <;> simp_all [WorkerPlace.wake]

/-- From the notification on, the steps of every thread of the pool are numbered. -/
theorem Settled.countP_le {es : List (PoolEvent ι π Task)} {t : ThreadPool ι π Task}
    (hrun : RunWhere ThreadPool.step Unrestricted s es t) (h : s.Settled) (hcoherent : s.Coherent)
    (hnotified : s.Notified) (i : ι) : es.countP (PoolEvent.Advances i) ≤ (s.worker i).rank := by
  induction hrun with
  | nil => exact Nat.zero_le _
  | @cons s m t e es _ hstep _ ih =>
    obtain ⟨hnotified', hsettled, hrank⟩ := h.step hcoherent hnotified hstep
    have hrest := ih hsettled (hcoherent.step hstep) hnotified'
    have hfirst := hrank i
    rw [List.countP_cons, ← List.countP_singleton]
    omega

end Shutdown

/-- If no thread of the pool was between its look at the flag and its sleep when `shutdown`
notified, `shutdown` comes to its end, whatever is posted meanwhile: the threads of the pool take
at most seven steps each, and as long as one of them is left, one that is inside can go on. -/
theorem shutdown_ends (es : List (PoolEvent ι π Task)) (s : ThreadPool ι π Task)
    (hrun : RunWhere step WakesAll {} es s) (hjoin : s.closer = .join) :
    (∀ es' t, RunWhere step Unrestricted s es' t → ∀ i, es'.countP (PoolEvent.Advances i) ≤ 7) ∧
    ((∃ i, s.worker i ≠ .finished) →
      ∃ (e : PoolEvent ι π Task) (t : ThreadPool ι π Task), e.Inside ∧ s.step e = .ok t) := by
  have h : s.Reached := by
    apply hrun.invariant Reached (fun _ _ _ hs hwakes hstep => hs.step hwakes hstep)
    exact ⟨coherent_init, by rintro (h | h) <;> cases h⟩
  have hsettled := h.2 (.inl hjoin)
  constructor
  · intro es' t hrest i
    exact (hsettled.countP_le hrest h.1 (.inl hjoin) i).trans (WorkerPlace.rank_le _)
  · exact hsettled.exists_step h.1

instance [DecidableEq Task] (s : ThreadPool ι π Task) (e : PoolEvent ι π Task) :
    Decidable (s.WakesAll e) :=
  match e with
  | .advanceCloser => inferInstanceAs (Decidable
      (s.closer = .notify → ∀ i, s.worker i ≠ .drowsy ∧ (s.worker i = .look → s.tasks ≠ [])))
  | .posts _ _ | .advance _ | .advancePoster _ | .notifiesOne _ _ | .spurious _ | .shutdown =>
    isTrue trivial

theorem shutdown_ends_sample :
    ∃ s, RunWhere step WakesAll ({} : ThreadPool Bool Bool ℕ)
        [.advance true, .advance true, .advance true, .advance true, .advance false, .shutdown,
          .advanceCloser] s ∧
      ∀ es t, RunWhere step Unrestricted s es t → es.countP (PoolEvent.Advances false) ≤ 7 := by
  obtain ⟨s, hrun, hjoin⟩ := exists_run_of_any step WakesAll ({} : ThreadPool Bool Bool ℕ)
    [.advance true, .advance true, .advance true, .advance true, .advance false, .shutdown,
      .advanceCloser] (fun s => decide (s.closer = .join)) (by decide)
  have hends := (shutdown_ends _ s hrun (of_decide_eq_true hjoin)).1
  exact ⟨s, hrun, fun es t hrest => hends es t hrest false⟩

/-- Nobody posts, and `wait` does not return for no reason. -/
def Undisturbed : ThreadPool ι π Task → PoolEvent ι π Task → Prop
  | _, .posts _ _ | _, .spurious _ => False
  | _, _ => True

/-- The thread has looked at the flag and sleeps, or will find no task and then go to sleep, and
`shutdown` waits for it. -/
structure Hangs (s : ThreadPool ι π Task) (i : ι) : Prop where
  stuck : s.worker i = .asleep ∨ s.worker i = .drowsy ∨ (s.worker i = .look ∧ s.tasks = [])
  closer : s.closer = .join
  quiet : ∀ j, s.poster j = .outside

omit [Fintype π] in
theorem Hangs.step {s s' : ThreadPool ι π Task} {i : ι} {e : PoolEvent ι π Task} (h : s.Hangs i)
    (hok : Undisturbed s e) (hstep : s.step e = .ok s') : s'.Hangs i := by
  cases e with
  | posts j post => cases hok
  | spurious k => cases hok
  | advance k =>
    change s.advance k = .ok s' at hstep
    obtain ⟨⟨place, hworker⟩, hposter, hcloser, hempty⟩ := frame_advance hstep
    refine ⟨?_, hcloser.trans h.closer, fun j => hposter ▸ h.quiet j⟩
    by_cases hki : k = i
    · subst hki
      rcases h.stuck with hplace | hplace | ⟨hplace, htasks⟩ <;>
        simp only [ThreadPool.advance, hplace] at hstep
      · cases hstep
      · obtain rfl := Except.ok.inj hstep
        exact .inl (goTo_self _ _ _)
      · rw [htasks] at hstep
        obtain rfl := Except.ok.inj hstep
        exact .inr (.inl (goTo_self _ _ _))
    · rw [hworker, Function.update_of_ne (Ne.symm hki)]
      rcases h.stuck with hplace | hplace | ⟨hplace, htasks⟩
      · exact .inl hplace
      · exact .inr (.inl hplace)
      · exact .inr (.inr ⟨hplace, hempty htasks⟩)
  | advancePoster j =>
    change s.advancePoster j = .ok s' at hstep
    simp [ThreadPool.advancePoster, h.quiet j] at hstep
  | notifiesOne j woken => simp [ThreadPool.step, h.quiet j] at hstep
  | shutdown => simp [ThreadPool.step, h.closer] at hstep
  | advanceCloser =>
    simp only [ThreadPool.step, h.closer] at hstep
    split_ifs at hstep with hall
    have hi := hall i
    rcases h.stuck with hplace | hplace | ⟨hplace, -⟩ <;> rw [hplace] at hi <;> cases hi

omit [Fintype π] in
/-- If a thread of the pool has looked at the flag and is about to sleep when `shutdown` notifies, and
nobody is in a call of `postTask`, then in every run from there on the thread is about to sleep or
asleep and `shutdown` has not returned, unless something is posted or `wait` returns for no reason. -/
theorem shutdown_hangs (s : ThreadPool ι π Task) (hnotify : s.closer = .notify)
    (hquiet : ∀ j, s.poster j = .outside) (i : ι)
    (hstuck : s.worker i = .drowsy ∨ (s.worker i = .look ∧ s.tasks = []))
    (es : List (PoolEvent ι π Task)) (u : ThreadPool ι π Task)
    (hrun : RunWhere step Undisturbed s (.advanceCloser :: es) u) :
    (u.worker i = .look ∨ u.worker i = .drowsy ∨ u.worker i = .asleep) ∧ u.closer = .join := by
  cases hrun with
  | cons _ hfirst hrest =>
    simp only [step, hnotify] at hfirst
    obtain rfl := Except.ok.inj hfirst
    have h : u.Hangs i := by
      apply hrest.invariant (Hangs · i) fun _ _ _ h hok hstep => h.step hok hstep
      refine ⟨.inr ?_, rfl, hquiet⟩
      change (s.worker i).wake = _ ∨ (s.worker i).wake = _ ∧ s.tasks = []
      rcases hstuck with hplace | ⟨hplace, htasks⟩ <;> rw [hplace]
      · exact .inl rfl
      · exact .inr ⟨rfl, htasks⟩
    refine ⟨?_, h.closer⟩
    rcases h.stuck with hplace | hplace | ⟨hplace, -⟩
    · exact .inr (.inr hplace)
    · exact .inr (.inl hplace)
    · exact .inl hplace

theorem shutdown_hangs_sample :
    ∃ s, RunWhere step Unrestricted ({} : ThreadPool Bool Bool ℕ)
        [.advance true, .advance true, .advance true, .shutdown] s ∧
      ∀ es u, RunWhere step Undisturbed s (.advanceCloser :: es) u → u.closer = .join := by
  obtain ⟨s, hrun, hstate⟩ := exists_run_of_any step Unrestricted ({} : ThreadPool Bool Bool ℕ)
    [.advance true, .advance true, .advance true, .shutdown]
    (fun s => decide (s.closer = .notify) && decide (s.worker true = .drowsy) &&
      (s.poster false matches .outside) && (s.poster true matches .outside)) (by decide)
  simp only [Bool.and_eq_true, decide_eq_true_eq] at hstate
  have hquiet : ∀ j, s.poster j = .outside := by
    intro j
    have hfalse := hstate.1.2
    have htrue := hstate.2
    cases j
    · cases hj : s.poster false <;> simp_all
    · cases hj : s.poster true <;> simp_all
  refine ⟨s, hrun, fun es u hrest => ?_⟩
  exact (shutdown_hangs s hstate.1.1.1 hquiet true (.inl hstate.1.1.2) es u hrest).2

end ThreadPool
end Sese.Thread
