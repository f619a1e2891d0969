import Sese.Foundation.Rounds
import Sese.Util.Bytes
import Mathlib.Logic.Function.Basic

/-!
# The timer

`sese::Timer`, a wheel of lists of tasks. Timestamps are 64 bit integers, and the slot of a
timestamp is its remainder as a `size_t`. A `Sweep` is the loop over one slot, in which the
callbacks do not come back to the timer. Its iterator is at a node of the list or at the end of it,
and at the end it stays there when a task is appended.
-/
namespace Sese

open Foundation

/-- A task; `id` stands for the object and its callback. -/
structure TimerTask (ι : Type) where
  id : ι
  sleepTimestamp : ℤ := 0
  targetTimestamp : ℤ := 0
  isRepeat : Bool := false
  deriving DecidableEq

/-- `create` makes at least five slots. -/
@[ext] structure Timer (ι : Type) where
  number : ℕ
  five_le : 5 ≤ number
  currentTimestamp : ℤ := 0
  timerTasks : ℕ → List (TimerTask ι) := fun _ => []

namespace Timer

variable {ι : Type}

def create (number : ℕ) : Timer ι := { number := max 5 number, five_le := le_max_left 5 number }

/-- The sum of two timestamps, which must be a timestamp. -/
def addTimestamp (a b : ℤ) : Except Fault ℤ :=
  if -2 ^ 63 ≤ a + b ∧ a + b < 2 ^ 63 then .ok (a + b) else .error .intOverflow

/-- `timestamp % number`, where the timestamp becomes a `size_t`. -/
def slotOf (timer : Timer ι) (timestamp : ℤ) : ℕ := (timestamp % 2 ^ 64).toNat % timer.number

def emplaceBack (timer : Timer ι) (task : TimerTask ι) : Timer ι :=
  let index := timer.slotOf task.targetTimestamp
  { timer with
    timerTasks := Function.update timer.timerTasks index (timer.timerTasks index ++ [task]) }

def delay (timer : Timer ι) (id : ι) (relative_timestamp : ℤ) (is_repeat : Bool) :
    Except Fault (Timer ι) := do
  let target ← addTimestamp timer.currentTimestamp relative_timestamp
  return timer.emplaceBack ⟨id, relative_timestamp, target, is_repeat⟩

/-- `cancelCallback`, for a task that is still held by someone. -/
def cancelCallback [DecidableEq ι] (timer : Timer ι) (task : TimerTask ι) : Timer ι :=
  let index := timer.slotOf task.targetTimestamp
  { timer with
    timerTasks := Function.update timer.timerTasks index
      ((timer.timerTasks index).filter fun other => other.id ≠ task.id) }

/-- The iterator to the node with this index in a list; `none` is `end()`. -/
def nodeAt (tasks : List (TimerTask ι)) (i : ℕ) : Option ℕ := if i < tasks.length then some i else none

/-- The loop over a slot: the timer, the iterator, and the callbacks that were called. -/
structure Sweep (ι : Type) where
  timer : Timer ι
  iterator : Option ℕ
  fired : List ι := []

/-- The iterator is at `begin()` of the current slot. -/
def Sweep.begin (timer : Timer ι) : Sweep ι :=
  { timer := timer
    iterator := nodeAt (timer.timerTasks (timer.slotOf timer.currentTimestamp)) 0 }

/-- One round of the loop over the current slot. -/
def Sweep.round (s : Sweep ι) : Except Fault (Sweep ι ⊕ (List ι × Timer ι)) :=
  let index := s.timer.slotOf s.timer.currentTimestamp
  match s.iterator with
  | none => .ok (.inr (s.fired, s.timer))
  | some i =>
    match (s.timer.timerTasks index)[i]? with
    | none => .error .nullPointer
    | some task =>
      if s.timer.currentTimestamp = task.targetTimestamp then do
        let rest := (s.timer.timerTasks index).eraseIdx i
        let iterator := nodeAt rest i -- what `erase` returns
        let timer := { s.timer with timerTasks := Function.update s.timer.timerTasks index rest }
        if task.isRepeat then
          let target ← addTimestamp s.timer.currentTimestamp task.sleepTimestamp
          return .inl ⟨timer.emplaceBack { task with targetTimestamp := target }, iterator,
            s.fired ++ [task.id]⟩
        else return .inl ⟨timer, iterator, s.fired ++ [task.id]⟩
      else .ok (.inl s) -- the iterator stays where it is

/-- The body of `loop` for the current slot comes to an end. -/
def Sweeps (timer : Timer ι) (fired : List ι) (timer' : Timer ι) : Prop :=
  Delivers Sweep.round (Sweep.begin timer) (fired, timer')

/-- `currentTimestamp++` of an atomic integer. -/
def tick (timer : Timer ι) : Timer ι :=
  { timer with
    currentTimestamp := (timer.currentTimestamp + 1 + 2 ^ 63) % 2 ^ 64 - 2 ^ 63 }

/-- What happens to a timer. Between the sweep and the next tick the thread sleeps, and tasks are
added and cancelled. -/
inductive Step [DecidableEq ι] : Timer ι → Timer ι → Prop
  | delay {timer timer' : Timer ι} {id : ι} {relative_timestamp : ℤ} {is_repeat : Bool} :
      timer.delay id relative_timestamp is_repeat = .ok timer' → Step timer timer'
  | cancel (timer : Timer ι) (task : TimerTask ι) : Step timer (timer.cancelCallback task)
  | sweep {timer timer' : Timer ι} {fired : List ι} : Sweeps timer fired timer' → Step timer timer'
  | tick (timer : Timer ι) : Step timer timer.tick

def Placed (timer : Timer ι) : Prop :=
  ∀ j, ∀ task ∈ timer.timerTasks j, timer.slotOf task.targetTimestamp = j

def pending (timer : Timer ι) : List (TimerTask ι) :=
  (List.range timer.number).flatMap timer.timerTasks

def due (timer : Timer ι) : List (TimerTask ι) :=
  timer.pending.filter fun task => task.targetTimestamp = timer.currentTimestamp

/-- A repeating task is queued again for one period later. -/
def again (timer : Timer ι) (task : TimerTask ι) : TimerTask ι :=
  { task with targetTimestamp := timer.currentTimestamp + task.sleepTimestamp }

/-- The repeating tasks that are due, as they are queued again. -/
def requeued (timer : Timer ι) : List (TimerTask ι) :=
  (timer.due.filter fun task => task.isRepeat).map timer.again

/-- The tasks that are not due stay where they are, and those that repeat are queued again. -/
def afterTick (timer : Timer ι) : Timer ι :=
  { timer with
    timerTasks := fun j =>
      (timer.timerTasks j).filter (fun task => task.targetTimestamp ≠ timer.currentTimestamp) ++
        timer.requeued.filter fun task => timer.slotOf task.targetTimestamp = j }

/-- The tick calls the callbacks of the tasks that are due, queues the repeating ones again and
keeps all others. -/
def Ticks (timer : Timer ι) : Prop :=
  Sweeps timer (timer.due.map TimerTask.id) timer.afterTick

def Fits (timer : Timer ι) (task : TimerTask ι) : Prop :=
  task.isRepeat → -2 ^ 63 ≤ (timer.again task).targetTimestamp ∧
    (timer.again task).targetTimestamp < 2 ^ 63

/-- A task that is due now and, if it repeats, has a next target. -/
def OnTime (timer : Timer ι) (task : TimerTask ι) : Prop :=
  task.targetTimestamp = timer.currentTimestamp ∧ timer.Fits task

/-- The task comes back to the current slot when it is queued again. -/
def ComesBack (timer : Timer ι) (task : TimerTask ι) : Prop :=
  task.isRepeat ∧ timer.slotOf (timer.again task).targetTimestamp = timer.slotOf timer.currentTimestamp

/-- Nothing in the current slot waits for a later turn of the wheel, and no repeating task but the
last of the slot comes back to it. -/
def Punctual (timer : Timer ι) : Prop :=
  let tasks := timer.timerTasks (timer.slotOf timer.currentTimestamp)
  (∀ task ∈ tasks, timer.OnTime task) ∧ ∀ task ∈ tasks.dropLast, ¬ timer.ComesBack task

variable {timer : Timer ι}

theorem slotOf_lt (timer : Timer ι) (timestamp : ℤ) : timer.slotOf timestamp < timer.number :=
  Nat.mod_lt _ (Nat.lt_of_lt_of_le (by decide) timer.five_le)

theorem addTimestamp_ok {a b c : ℤ} :
    addTimestamp a b = .ok c ↔ (-2 ^ 63 ≤ a + b ∧ a + b < 2 ^ 63) ∧ c = a + b := by
  unfold addTimestamp
  split_ifs with h
  · simp only [Except.ok.injEq, h, and_self, true_and]
    exact eq_comm
  · simp only [h, false_and]

theorem flatMap_range_eq {α : Type*} {f : ℕ → List α} {i n : ℕ} (hi : i < n)
    (h : ∀ j, j ≠ i → f j = []) : (List.range n).flatMap f = f i := by
  induction n with
  | zero => omega
  | succ n ih =>
    rw [List.range_succ, List.flatMap_append, List.flatMap_singleton]
    by_cases hin : i = n
    · subst hin
      have hbefore : (List.range i).flatMap f = [] := by
        rw [List.flatMap_eq_nil_iff]
        intro j hj
        exact h j (List.mem_range.mp hj).ne
      rw [hbefore, List.nil_append]
    · rw [ih (by omega), h n (Ne.symm hin), List.append_nil]

theorem Placed.target_ne (h : timer.Placed) {j : ℕ} (hj : j ≠ timer.slotOf timer.currentTimestamp)
    {task : TimerTask ι} (htask : task ∈ timer.timerTasks j) :
    task.targetTimestamp ≠ timer.currentTimestamp := by
  intro htarget
  apply hj
  rw [← h j task htask, htarget]

theorem due_eq (h : timer.Placed) :
    timer.due = (timer.timerTasks (timer.slotOf timer.currentTimestamp)).filter
      fun task => task.targetTimestamp = timer.currentTimestamp := by
  rw [due, pending, List.filter_flatMap]
  apply flatMap_range_eq (slotOf_lt timer timer.currentTimestamp)
  intro j hj
  rw [List.filter_eq_nil_iff]
  intro task htask
  rw [decide_eq_true_eq]
  exact h.target_ne hj htask

def withSlot (timer : Timer ι) (tasks : List (TimerTask ι)) : Timer ι :=
  { timer with
    timerTasks := Function.update timer.timerTasks (timer.slotOf timer.currentTimestamp) tasks }

/-- The timer after the first task of the slot was called; `rest` are the other ones. -/
def called (timer : Timer ι) (task : TimerTask ι) (rest : List (TimerTask ι)) : Timer ι :=
  if task.isRepeat then (timer.withSlot rest).emplaceBack (timer.again task) else timer.withSlot rest

variable {fired : List ι} {task : TimerTask ι} {rest : List (TimerTask ι)}

theorem round_end : Sweep.round ⟨timer, none, fired⟩ = .ok (.inr (fired, timer)) := rfl

theorem round_due (h : timer.timerTasks (timer.slotOf timer.currentTimestamp) = task :: rest)
    (hdue : task.targetTimestamp = timer.currentTimestamp) (hfits : timer.Fits task) :
    Sweep.round ⟨timer, some 0, fired⟩ =
      .ok (.inl ⟨timer.called task rest, nodeAt rest 0, fired ++ [task.id]⟩) := by
  simp only [Sweep.round, h, List.getElem?_cons_zero, hdue, if_true, List.eraseIdx_cons_zero]
  by_cases hrepeat : task.isRepeat
  · have hadd : addTimestamp timer.currentTimestamp task.sleepTimestamp =
        .ok (timer.again task).targetTimestamp := addTimestamp_ok.mpr ⟨hfits hrepeat, rfl⟩
    rw [if_pos hrepeat, hadd, called, if_pos hrepeat]
    rfl
  · rw [if_neg hrepeat, called, if_neg hrepeat]
    rfl

theorem round_overflow (h : timer.timerTasks (timer.slotOf timer.currentTimestamp) = task :: rest)
    (hdue : task.targetTimestamp = timer.currentTimestamp) (hfits : ¬ timer.Fits task) :
    Sweep.round ⟨timer, some 0, fired⟩ = .error .intOverflow := by
  obtain ⟨hrepeat, hrange⟩ := Classical.not_imp.mp hfits
  have hadd : addTimestamp timer.currentTimestamp task.sleepTimestamp = .error .intOverflow :=
    if_neg hrange
  simp only [Sweep.round, h, List.getElem?_cons_zero, hdue, if_true, hrepeat, hadd]
  rfl

theorem round_early (h : timer.timerTasks (timer.slotOf timer.currentTimestamp) = task :: rest)
    (hearly : task.targetTimestamp ≠ timer.currentTimestamp) :
    Sweep.round ⟨timer, some 0, fired⟩ = .ok (.inl ⟨timer, some 0, fired⟩) := by
  simp only [Sweep.round, h, List.getElem?_cons_zero, if_neg (Ne.symm hearly)]

/-- A round that goes on has called the first task of the slot. -/
theorem called_of_round {s' : Sweep ι}
    (h : timer.timerTasks (timer.slotOf timer.currentTimestamp) = task :: rest)
    (hround : Sweep.round ⟨timer, some 0, fired⟩ = .ok (.inl s'))
    (hmove : s' ≠ ⟨timer, some 0, fired⟩) :
    timer.OnTime task ∧ s' = ⟨timer.called task rest, nodeAt rest 0, fired ++ [task.id]⟩ := by
  by_cases hdue : task.targetTimestamp = timer.currentTimestamp
  · by_cases hfits : timer.Fits task
    · exact ⟨⟨hdue, hfits⟩, Sum.inl.inj (Except.ok.inj (hround.symm.trans (round_due h hdue hfits)))⟩
    · cases (round_overflow h hdue hfits).symm.trans hround
  · exact absurd (Sum.inl.inj (Except.ok.inj (hround.symm.trans (round_early h hdue)))) hmove

@[simp] theorem called_currentTimestamp : (timer.called task rest).currentTimestamp = timer.currentTimestamp := by
  unfold called
  split_ifs <;> rfl

@[simp] theorem called_slotOf (timestamp : ℤ) :
    (timer.called task rest).slotOf timestamp = timer.slotOf timestamp := by
  unfold called
  split_ifs <;> rfl

@[simp] theorem called_again : (timer.called task rest).again = timer.again := by
  funext task'
  rw [again, again, called_currentTimestamp]

theorem onTime_called {task' : TimerTask ι} :
    (timer.called task rest).OnTime task' ↔ timer.OnTime task' := by
  simp only [OnTime, Fits, called_currentTimestamp, called_again]

theorem comesBack_called {task' : TimerTask ι} :
    (timer.called task rest).ComesBack task' ↔ timer.ComesBack task' := by
  simp only [ComesBack, called_currentTimestamp, called_slotOf, called_again]

/-- What a task puts at the end of a list when it is queued again. -/
def comingBack (timer : Timer ι) (j : ℕ) (task : TimerTask ι) : List (TimerTask ι) :=
  if task.isRepeat ∧ timer.slotOf (timer.again task).targetTimestamp = j then [timer.again task]
  else []

theorem called_timerTasks (j : ℕ) : (timer.called task rest).timerTasks j =
    (if j = timer.slotOf timer.currentTimestamp then rest else timer.timerTasks j) ++
      timer.comingBack j task := by
  have hslot : (timer.withSlot rest).timerTasks j =
      if j = timer.slotOf timer.currentTimestamp then rest else timer.timerTasks j := by
    simp only [withSlot, Function.update_apply]
  rw [← hslot, called, comingBack]
  by_cases hrepeat : task.isRepeat
  · by_cases hj : timer.slotOf (timer.again task).targetTimestamp = j
    · subst hj
      rw [if_pos hrepeat, if_pos ⟨hrepeat, rfl⟩]
      exact Function.update_self _ _ _
    · have hnot : ¬ (task.isRepeat ∧ timer.slotOf (timer.again task).targetTimestamp = j) :=
        fun h => hj h.2
      rw [if_pos hrepeat, if_neg hnot, List.append_nil]
      exact Function.update_of_ne (Ne.symm hj) _ _
  · have hnot : ¬ (task.isRepeat ∧ timer.slotOf (timer.again task).targetTimestamp = j) :=
      fun h => hrepeat h.1
    rw [if_neg hrepeat, if_neg hnot, List.append_nil]

theorem called_slot : (timer.called task rest).timerTasks
    ((timer.called task rest).slotOf (timer.called task rest).currentTimestamp) =
      rest ++ timer.comingBack (timer.slotOf timer.currentTimestamp) task := by
  rw [called_currentTimestamp, called_slotOf, called_timerTasks, if_pos rfl]

/-- A sweep that ends has called every task of the slot, and one that has called no more than so
many has met none of them again. -/
theorem punctual_of_delivers {s : Sweep ι} {result : List ι × Timer ι}
    (h : Delivers Sweep.round s result) (hbegin : s.iterator = some 0) :
    let tasks := s.timer.timerTasks (s.timer.slotOf s.timer.currentTimestamp)
    (∀ task ∈ tasks, s.timer.OnTime task) ∧ s.fired.length + tasks.length ≤ result.1.length ∧
      (result.1.length = s.fired.length + tasks.length →
        ∀ task ∈ tasks.dropLast, ¬ s.timer.ComesBack task) := by
  induction h with
  | @done s result hround =>
    obtain ⟨timer, iterator, fired⟩ := s
    obtain rfl : iterator = some 0 := hbegin
    cases hslot : timer.timerTasks (timer.slotOf timer.currentTimestamp) with
    | nil => simp [Sweep.round, hslot] at hround
    | cons first rest =>
      by_cases hdue : first.targetTimestamp = timer.currentTimestamp
      · by_cases hfits : timer.Fits first
        · cases (round_due hslot hdue hfits).symm.trans hround
        · cases (round_overflow hslot hdue hfits).symm.trans hround
      · cases (round_early hslot hdue).symm.trans hround
  | @more s s' result hround hmore ih =>
    obtain ⟨timer, iterator, fired⟩ := s
    obtain rfl : iterator = some 0 := hbegin
    cases hslot : timer.timerTasks (timer.slotOf timer.currentTimestamp) with
    | nil => simp [Sweep.round, hslot] at hround
    | cons first rest =>
      have hmove : s' ≠ ⟨timer, some 0, fired⟩ := by
        rintro rfl
        exact not_delivers_of_stay hround hmore
      obtain ⟨hfirst, rfl⟩ := called_of_round hslot hround hmove
      dsimp only
      cases rest with
      | nil =>
        -- the iterator is at the end, whatever was appended
        obtain rfl : result = (fired ++ [first.id], timer.called first []) := hmore.unique (.done rfl)
        refine ⟨?_, ?_, fun _ task htask => ?_⟩
        · exact fun task htask => List.mem_singleton.mp htask ▸ hfirst
        · simp
        · cases htask
      | cons next rest =>
        obtain ⟨hall, hle, honce⟩ := ih rfl
        dsimp only at hall hle honce
        rw [called_slot] at hall hle honce
        refine ⟨?_, ?_, fun hlength => ?_⟩
        · intro task htask
          rcases List.mem_cons.mp htask with rfl | htask
          · exact hfirst
          · exact onTime_called.mp (hall task (List.mem_append_left _ htask))
        · simp only [List.length_append, List.length_cons, List.length_nil] at hle ⊢
          omega
        · have hback : timer.comingBack (timer.slotOf timer.currentTimestamp) first = [] := by
            rw [← List.length_eq_zero_iff]
            simp only [List.length_append, List.length_cons, List.length_nil] at hle hlength
            omega
          rw [hback, List.append_nil] at honce
          rw [List.dropLast_cons_cons]
          intro task htask
          rcases List.mem_cons.mp htask with rfl | htask
          · intro hcomes
            have hagain : timer.comingBack (timer.slotOf timer.currentTimestamp) task =
                [timer.again task] := if_pos hcomes
            rw [hback] at hagain
            cases hagain
          · refine fun hcomes => honce ?_ task htask (comesBack_called.mpr hcomes)
            simp only [List.length_append, List.length_cons, List.length_nil] at hlength ⊢
            omega

/-- The timer after all of the tasks of the slot were called. -/
def emptied (timer : Timer ι) (tasks : List (TimerTask ι)) : Timer ι :=
  { timer with
    timerTasks := fun j =>
      (if j = timer.slotOf timer.currentTimestamp then [] else timer.timerTasks j) ++
        ((tasks.filter fun task => task.isRepeat).map timer.again).filter fun task =>
          timer.slotOf task.targetTimestamp = j }

theorem filter_again_cons (j : ℕ) :
    (((task :: rest).filter fun task => task.isRepeat).map timer.again).filter
        (fun task => timer.slotOf task.targetTimestamp = j) =
      timer.comingBack j task ++
        ((rest.filter fun task => task.isRepeat).map timer.again).filter
          fun task => timer.slotOf task.targetTimestamp = j := by
  unfold comingBack
  by_cases hrepeat : task.isRepeat
  · rw [List.filter_cons_of_pos hrepeat, List.map_cons]
    by_cases hj : timer.slotOf (timer.again task).targetTimestamp = j
    · rw [List.filter_cons_of_pos (by simpa using hj), if_pos ⟨hrepeat, hj⟩]
      rfl
    · rw [List.filter_cons_of_neg (by simpa using hj), if_neg fun h => hj h.2]
      rfl
  · rw [List.filter_cons_of_neg hrepeat, if_neg fun h => hrepeat h.1]
    rfl

theorem emptied_called (h : ¬ timer.ComesBack task) :
    (timer.called task rest).emptied rest = timer.emptied (task :: rest) := by
  ext : 1
  · unfold emptied called
    split_ifs <;> rfl
  · unfold emptied called
    split_ifs <;> rfl
  · funext j
    simp only [emptied, called_currentTimestamp, called_slotOf, called_again, called_timerTasks,
      filter_again_cons]
    by_cases hj : j = timer.slotOf timer.currentTimestamp
    · have hnone : timer.comingBack j task = [] :=
        if_neg fun hback => h ⟨hback.1, hback.2.trans hj⟩
      rw [if_pos hj, if_pos hj, hnone]
      rfl
    · rw [if_neg hj, if_neg hj, if_neg hj, List.append_assoc]

theorem emptied_singleton : timer.emptied [task] = timer.called task [] := by
  ext : 1
  · unfold emptied called
    split_ifs <;> rfl
  · unfold emptied called
    split_ifs <;> rfl
  · funext j
    simp only [emptied, called_timerTasks, filter_again_cons]
    simp

theorem emptied_nil (h : timer.timerTasks (timer.slotOf timer.currentTimestamp) = []) :
    timer.emptied [] = timer := by
  ext : 1
  · rfl
  · rfl
  · funext j
    simp only [emptied, List.filter_nil, List.map_nil, List.append_nil]
    split_ifs with hj
    · rw [hj, h]
    · rfl

/-- A sweep over tasks that are all due, and of which only the last may come back, calls them one
after the other. -/
theorem delivers_of_onTime (tasks : List (TimerTask ι))
    (hslot : timer.timerTasks (timer.slotOf timer.currentTimestamp) = tasks)
    (h : ∀ task ∈ tasks, timer.OnTime task) (honce : ∀ task ∈ tasks.dropLast, ¬ timer.ComesBack task)
    (fired : List ι) :
    Delivers Sweep.round ⟨timer, nodeAt tasks 0, fired⟩
      (fired ++ tasks.map TimerTask.id, timer.emptied tasks) := by
  induction tasks generalizing timer fired with
  | nil =>
    rw [emptied_nil hslot, List.map_nil, List.append_nil]
    exact .done round_end
  | cons task rest ih =>
    have htask := h task List.mem_cons_self
    cases rest with
    | nil =>
      rw [emptied_singleton]
      exact .more (round_due hslot htask.1 htask.2) (.done round_end)
    | cons next rest =>
      rw [List.dropLast_cons_cons] at honce
      have hback := honce task List.mem_cons_self
      have hnone : timer.comingBack (timer.slotOf timer.currentTimestamp) task = [] := if_neg hback
      have hrest := @ih (timer.called task (next :: rest))
        (by rw [called_slot, hnone, List.append_nil])
        (fun other hother => onTime_called.mpr (h other (List.mem_cons_of_mem task hother)))
        (fun other hother hcomes =>
          honce other (List.mem_cons_of_mem task hother) (comesBack_called.mp hcomes))
        (fired ++ [task.id])
      rw [emptied_called hback, List.append_assoc] at hrest
      exact .more (round_due hslot htask.1 htask.2) hrest

theorem afterTick_eq (h : timer.Placed)
    (hall : ∀ task ∈ timer.timerTasks (timer.slotOf timer.currentTimestamp), timer.OnTime task) :
    timer.due = timer.timerTasks (timer.slotOf timer.currentTimestamp) ∧
      timer.afterTick =
        timer.emptied (timer.timerTasks (timer.slotOf timer.currentTimestamp)) := by
  have hdue : timer.due = timer.timerTasks (timer.slotOf timer.currentTimestamp) := by
    rw [due_eq h, List.filter_eq_self]
    exact fun task htask => by simpa using (hall task htask).1
  refine ⟨hdue, ?_⟩
  ext : 1
  · rfl
  · rfl
  · funext j
    simp only [afterTick, emptied, requeued, hdue]
    congr 1
    split_ifs with hj
    · rw [List.filter_eq_nil_iff]
      intro task htask
      rw [hj] at htask
      simpa using (hall task htask).1
    · rw [List.filter_eq_self]
      intro task htask
      simpa using h.target_ne hj htask

/-- The tick does what it owes if and only if nothing in the slot waits for a later turn of the
wheel and no repeating task but the last one comes back to it. -/
theorem ticks_iff_punctual (h : timer.Placed) : timer.Ticks ↔ timer.Punctual := by
  constructor
  · intro hticks
    by_cases hempty : timer.timerTasks (timer.slotOf timer.currentTimestamp) = []
    · simp [Punctual, hempty]
    · have hbegin : (Sweep.begin timer).iterator = some 0 :=
        if_pos (List.length_pos_of_ne_nil hempty)
      obtain ⟨hall, -, honce⟩ := punctual_of_delivers hticks hbegin
      refine ⟨hall, honce ?_⟩
      rw [List.length_map, (afterTick_eq h hall).1]
      exact (Nat.zero_add _).symm
  · rintro ⟨hall, honce⟩
    obtain ⟨hdue, hafter⟩ := afterTick_eq h hall
    rw [Ticks, hafter, hdue]
    exact delivers_of_onTime _ rfl hall honce []

theorem placed_create (number : ℕ) : (create number : Timer ι).Placed := by
  intro j task htask
  cases htask

theorem placed_emplaceBack (h : timer.Placed) (task : TimerTask ι) :
    (timer.emplaceBack task).Placed := by
  intro j other hother
  change timer.slotOf other.targetTimestamp = j
  simp only [emplaceBack, Function.update_apply] at hother
  split_ifs at hother with hj
  · rcases List.mem_append.mp hother with hother | hother
    · rw [hj]
      exact h _ other hother
    · rw [List.mem_singleton.mp hother, hj]
  · exact h j other hother

theorem placed_sublist (h : timer.Placed) {j : ℕ} {tasks : List (TimerTask ι)}
    (htasks : ∀ task ∈ tasks, task ∈ timer.timerTasks j) :
    ({ timer with timerTasks := Function.update timer.timerTasks j tasks } : Timer ι).Placed := by
  intro k other hother
  change timer.slotOf other.targetTimestamp = k
  simp only [Function.update_apply] at hother
  split_ifs at hother with hk
  · rw [hk]
    exact h j other (htasks other hother)
  · exact h k other hother

theorem placed_of_round {s s' : Sweep ι} (h : s.timer.Placed)
    (hround : s.round = .ok (.inl s')) : s'.timer.Placed := by
  unfold Sweep.round at hround
  cases hiterator : s.iterator with
  | none =>
    simp only [hiterator] at hround
    cases hround
  | some i =>
    cases htask : (s.timer.timerTasks (s.timer.slotOf s.timer.currentTimestamp))[i]? with
    | none =>
      simp only [hiterator, htask] at hround
      cases hround
    | some task =>
      simp only [hiterator, htask] at hround
      split_ifs at hround with hdue hrepeat
      · have herased := placed_sublist h (j := s.timer.slotOf s.timer.currentTimestamp)
          fun task htask => List.mem_of_mem_eraseIdx (i := i) htask
        cases hadd : addTimestamp s.timer.currentTimestamp task.sleepTimestamp with
        | error fault =>
          rw [hadd] at hround
          cases hround
        | ok target =>
          rw [hadd] at hround
          obtain rfl := Sum.inl.inj (Except.ok.inj hround)
          exact placed_emplaceBack herased _
      · obtain rfl := Sum.inl.inj (Except.ok.inj hround)
        exact placed_sublist h fun task htask => List.mem_of_mem_eraseIdx htask
      · obtain rfl := Sum.inl.inj (Except.ok.inj hround)
        exact h

theorem result_of_round {s : Sweep ι} {result : List ι × Timer ι}
    (hround : s.round = .ok (.inr result)) : result = (s.fired, s.timer) := by
  unfold Sweep.round at hround
  cases hiterator : s.iterator with
  | none =>
    simp only [hiterator] at hround
    exact (Sum.inr.inj (Except.ok.inj hround)).symm
  | some i =>
    cases htask : (s.timer.timerTasks (s.timer.slotOf s.timer.currentTimestamp))[i]? with
    | none =>
      simp only [hiterator, htask] at hround
      cases hround
    | some task =>
      simp only [hiterator, htask] at hround
      split_ifs at hround
      · cases hadd : addTimestamp s.timer.currentTimestamp task.sleepTimestamp <;>
          rw [hadd] at hround <;> cases hround
      all_goals cases hround

theorem placed_of_sweeps {timer' : Timer ι} (h : timer.Placed) (hsweeps : Sweeps timer fired timer') :
    timer'.Placed := by
  have hrounds : ∀ s s' : Sweep ι, s.timer.Placed → s.round = .ok (.inl s') → s'.timer.Placed :=
    fun _ _ hs hround => placed_of_round hs hround
  apply Delivers.invariant (P := fun result => result.2.Placed) hrounds _ hsweeps h
  rintro s result hs hround
  rw [result_of_round hround]
  exact hs

theorem sweeps_of_empty (h : timer.timerTasks (timer.slotOf timer.currentTimestamp) = []) :
    Sweeps timer [] timer := by
  have hbegin : Sweep.begin timer = ⟨timer, none, []⟩ := by
    rw [Sweep.begin, h]
    rfl
  rw [Sweeps, hbegin]
  exact .done round_end

theorem placed_of_step [DecidableEq ι] {timer timer' : Timer ι} (h : timer.Placed)
    (hstep : Step timer timer') : timer'.Placed := by
  cases hstep with
  | delay hdelay =>
    simp only [delay, bind, Except.bind] at hdelay
    split at hdelay
    · cases hdelay
    · obtain rfl := Except.ok.inj hdelay
      exact placed_emplaceBack h _
  | cancel task =>
    exact placed_sublist h fun other hother => List.mem_of_mem_filter hother
  | sweep hsweeps => exact placed_of_sweeps h hsweeps
  | tick => exact h

theorem placed_of_steps [DecidableEq ι] {number : ℕ}
    (h : Relation.ReflTransGen Step (create number) timer) : timer.Placed := by
  induction h with
  | refl => exact placed_create number
  | tail _ hstep ih => exact placed_of_step ih hstep

/-- A task whose period is one turn of the wheel, at its target: it goes back to its slot. -/
theorem ticks_iff_punctual_sample :
    ∃ timer : Timer Unit, Relation.ReflTransGen Step (create 5) timer ∧
      timer.timerTasks (timer.slotOf timer.currentTimestamp) = [⟨(), 5, 5, true⟩] ∧
      timer.currentTimestamp = 5 ∧ timer.Ticks := by
  let delayed : Timer Unit := (create 5).emplaceBack ⟨(), 5, 5, true⟩
  have hdelay : (create 5).delay () 5 true = .ok delayed := rfl
  have hdelayed : Relation.ReflTransGen Step (create 5) delayed :=
    (Relation.ReflTransGen.single (.sweep (sweeps_of_empty rfl))).tail (.delay hdelay)
  -- the slots of the next four ticks are empty
  have hturn : ∀ timer : Timer Unit,
      timer.timerTasks (timer.slotOf timer.currentTimestamp) = [] →
      Relation.ReflTransGen Step timer timer.tick := fun timer hempty =>
    (Relation.ReflTransGen.single (.sweep (sweeps_of_empty hempty))).tail (.tick timer)
  have hsteps : Relation.ReflTransGen Step (create 5) delayed.tick.tick.tick.tick.tick :=
    ((((hdelayed.tail (.tick _)).trans (hturn _ rfl)).trans (hturn _ rfl)).trans
      (hturn _ rfl)).trans (hturn _ rfl)
  have hslot : delayed.tick.tick.tick.tick.tick.timerTasks (delayed.tick.tick.tick.tick.tick.slotOf
      delayed.tick.tick.tick.tick.tick.currentTimestamp) = [⟨(), 5, 5, true⟩] := by decide
  have hnow : delayed.tick.tick.tick.tick.tick.currentTimestamp = 5 := by decide
  refine ⟨_, hsteps, hslot, hnow, (ticks_iff_punctual (placed_of_steps hsteps)).mpr ⟨?_, ?_⟩⟩
  · rw [hslot]
    intro task htask
    obtain rfl := List.mem_singleton.mp htask
    exact ⟨hnow.symm, fun _ => by decide⟩
  · rw [hslot]
    exact nofun

/-- A task whose target is one turn of the wheel ahead keeps the first tick from ending. -/
theorem not_ticks_next_turn :
    ∃ timer : Timer Unit, (create 5).delay () 5 false = .ok timer ∧
      ¬ ∃ fired timer', Sweeps timer fired timer' := by
  refine ⟨(create 5).emplaceBack ⟨(), 5, 5, false⟩, rfl, ?_⟩
  rintro ⟨fired, timer', hsweeps⟩
  exact not_delivers_of_stay rfl hsweeps

end Timer
end Sese
