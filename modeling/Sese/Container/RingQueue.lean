import Sese.Foundation.Queues
import Sese.Foundation.Runs

/-!
# A queue in a ring of cells

`RingQueue<T, N>`. The head and the tail go round the cells, and the size is counted apart from
them; none of the three gets beyond `N`, which is an `int`. A call that throws is given back with
the queue that it leaves.
-/
namespace Sese.Container

open Foundation

variable {T : Type} {N : ℕ}

/-- `std::out_of_range`. -/
structure OutOfRange where
  what : String
  deriving DecidableEq

/-- The fields of the class; `data` has `N` elements from the beginning. -/
structure RingQueue (T : Type) (N : ℕ) where
  data : Vector T N
  head : Fin N
  tail : Fin N
  size : ℕ

/-- A call of a method. -/
inductive RingCall (T : Type)
  | push (data : T)
  | pop
  | front
  | size
  | empty
  | full

/-- What a method returns. -/
inductive RingReply (T : Type)
  | done
  | element (data : T)
  | count (n : ℕ)
  | flag (b : Bool)
  deriving DecidableEq

namespace RingQueue

/-- A new queue, whose cells are what `T` makes of them. -/
def new (hN : 0 < N) (data : Vector T N) : RingQueue T N := ⟨data, ⟨0, hN⟩, ⟨0, hN⟩, 0⟩

def empty (q : RingQueue T N) : Bool := q.size == 0

def full (q : RingQueue T N) : Bool := q.size == N

/-- `(i + 1) % N`. -/
def next (i : Fin N) : Fin N := ⟨(i + 1) % N, Nat.mod_lt _ i.pos⟩

/-- A method: it may throw, and the queue is what it is at that moment. -/
abbrev Method (T : Type) (N : ℕ) := ExceptT OutOfRange (StateM (RingQueue T N))

def front : Method T N T := do
  let q ← get
  if q.empty then throw ⟨"queue is empty"⟩
  return q.data[q.head]

def pop : Method T N Unit := do
  let q ← get
  if q.empty then throw ⟨"queue is empty"⟩
  modify fun q => { q with head := next q.head }
  modify fun q => { q with size := q.size - 1 }

def push (data : T) : Method T N Unit := do
  let q ← get
  if q.full then throw ⟨"queue is full"⟩
  modify fun q => { q with data := q.data.set q.tail data }
  modify fun q => { q with tail := next q.tail }
  modify fun q => { q with size := q.size + 1 }

def method : RingCall T → Method T N (RingReply T)
  | .push data => do push data; return .done
  | .pop => do pop; return .done
  | .front => do return .element (← front)
  | .size => do return .count (← get).size
  | .empty => do return .flag (← get).empty
  | .full => do return .flag (← get).full

/-- A call: its result or what it throws, and the queue behind it. -/
def call (q : RingQueue T N) (c : RingCall T) : Except OutOfRange (RingReply T) × RingQueue T N :=
  (method c).run.run q

/-- The results of calls, whether they throw or not, and the queue behind them. -/
def run : RingQueue T N → List (RingCall T) → List (Except OutOfRange (RingReply T)) × RingQueue T N
  | q, [] => ([], q)
  | q, c :: calls =>
    let (result, q) := q.call c
    let (results, q) := run q calls
    (result :: results, q)

/-- The result of a call of a bounded queue. -/
def answer (f : BoundedQueue T N) : RingCall T → Except OutOfRange (RingReply T)
  | .push _ => if f.elements.length = N then .error ⟨"queue is full"⟩ else .ok .done
  | .pop => if f.elements = [] then .error ⟨"queue is empty"⟩ else .ok .done
  | .front =>
    match f.elements with
    | [] => .error ⟨"queue is empty"⟩
    | data :: _ => .ok (.element data)
  | .size => .ok (.count f.elements.length)
  | .empty => .ok (.flag (f.elements.length = 0))
  | .full => .ok (.flag (f.elements.length = N))

/-- The bounded queue behind a call; one that throws changes nothing. -/
def after (f : BoundedQueue T N) : RingCall T → BoundedQueue T N
  | .push data => f.add data
  | .pop => f.tail
  | _ => f

structure Represents (q : RingQueue T N) (f : BoundedQueue T N) : Prop where
  arc_eq : arc q.data q.head q.size = f.elements
  tail_eq : q.tail = around q.head q.size

variable {q : RingQueue T N} {f : BoundedQueue T N}

theorem Represents.size_eq (h : q.Represents f) : q.size = f.elements.length := by
  rw [← h.arc_eq, length_arc]

theorem run_get_bind {α : Type} (m : RingQueue T N → Method T N α) (q : RingQueue T N) :
    (get >>= m).run.run q = (m q).run.run q := rfl

theorem call_push (q : RingQueue T N) (data : T) : q.call (.push data) =
    if q.full then (.error ⟨"queue is full"⟩, q)
    else (.ok .done,
      { q with data := q.data.set q.tail data, tail := next q.tail, size := q.size + 1 }) := by
  simp only [call, method, push, bind_assoc, run_get_bind]
  split_ifs <;> rfl

theorem call_pop (q : RingQueue T N) : q.call .pop =
    if q.empty then (.error ⟨"queue is empty"⟩, q)
    else (.ok .done, { q with head := next q.head, size := q.size - 1 }) := by
  simp only [call, method, pop, bind_assoc, run_get_bind]
  split_ifs <;> rfl

theorem call_front (q : RingQueue T N) : q.call .front =
    if q.empty then (.error ⟨"queue is empty"⟩, q) else (.ok (.element q.data[q.head]), q) := by
  simp only [call, method, front, bind_assoc, run_get_bind]
  split_ifs <;> rfl

theorem full_iff (q : RingQueue T N) : q.full ↔ q.size = N := beq_iff_eq

theorem empty_iff (q : RingQueue T N) : q.empty ↔ q.size = 0 := beq_iff_eq

theorem Represents.push (h : q.Represents f) (data : T) :
    ∃ q', q.call (.push data) = (answer f (.push data), q') ∧ q'.Represents (after f (.push data)) := by
  have hsize := h.size_eq
  simp only [call_push, full_iff]
  by_cases hfull : q.size = N
  · refine ⟨q, ?_, ?_⟩
    · simp [answer, hfull, ← hsize]
    · simpa [after, BoundedQueue.add, hfull, ← hsize] using h
  · have hlt : q.size < N := by
      have hle := f.length_le
      omega
    refine ⟨{ q with data := q.data.set q.tail data, tail := next q.tail, size := q.size + 1 },
      ?_, ?_, ?_⟩
    · simp [answer, hfull, ← hsize]
    · simp only [h.tail_eq, arc_set q.data q.head hlt, h.arc_eq, after, BoundedQueue.add]
      rw [dif_pos (by omega)]
    · change around q.tail 1 = around q.head (q.size + 1)
      rw [h.tail_eq, around_around]

theorem Represents.pop (h : q.Represents f) :
    ∃ q', q.call .pop = (answer f .pop, q') ∧ q'.Represents (after f .pop) := by
  simp only [call_pop, empty_iff]
  have harc := h.arc_eq
  cases hsize : q.size with
  | zero =>
    rw [hsize] at harc
    have hempty : f.elements = [] := harc.symm
    refine ⟨q, by simp [answer, hempty], ?_, h.tail_eq⟩
    simp [after, BoundedQueue.tail, hempty, hsize, arc]
  | succ n =>
    rw [hsize, arc_succ] at harc
    refine ⟨{ q with head := next q.head, size := n }, by simp [answer, ← harc], ?_, ?_⟩
    · simp only [after, BoundedQueue.tail, ← harc]
      rfl
    · change q.tail = around (around q.head 1) n
      rw [h.tail_eq, around_around, hsize, Nat.add_comm]

theorem Represents.front (h : q.Represents f) : q.call .front = (answer f .front, q) := by
  simp only [call_front, empty_iff]
  have harc := h.arc_eq
  cases hsize : q.size with
  | zero =>
    rw [hsize] at harc
    have hempty : f.elements = [] := harc.symm
    simp [answer, hempty]
  | succ n =>
    rw [hsize, arc_succ] at harc
    simp [answer, ← harc]

theorem Represents.call (h : q.Represents f) (c : RingCall T) :
    ∃ q', q.call c = (answer f c, q') ∧ q'.Represents (after f c) := by
  have hsize := h.size_eq
  cases c with
  | push data => exact h.push data
  | pop => exact h.pop
  | front => exact ⟨q, h.front, h⟩
  | size =>
    refine ⟨q, ?_, h⟩
    rw [answer, ← hsize]
    rfl
  | empty =>
    refine ⟨q, ?_, h⟩
    rw [answer, ← hsize]
    rfl
  | full =>
    refine ⟨q, ?_, h⟩
    rw [answer, ← hsize]
    rfl

theorem represents_new (hN : 0 < N) (data : Vector T N) : (new hN data).Represents .empty :=
  ⟨rfl, (around_zero _).symm⟩

theorem Represents.run (h : q.Represents f) (calls : List (RingCall T)) :
    ∃ q', q.run calls = (answers answer after f calls, q') ∧ q'.Represents (calls.foldl after f) := by
  induction calls generalizing q f with
  | nil => exact ⟨q, rfl, h⟩
  | cons c calls ih =>
    obtain ⟨q₁, hcall, h₁⟩ := h.call c
    obtain ⟨q', hrun, h'⟩ := ih h₁
    exact ⟨q', by simp only [RingQueue.run, hcall, hrun, answers], h'⟩

def Throws (q : RingQueue T N) (c : RingCall T) : Prop := ∃ e, (q.call c).1 = .error e

/-- What is asked of a queue at every moment, beside the results. -/
structure Agrees (q : RingQueue T N) (f : BoundedQueue T N) : Prop where
  size : q.size = f.elements.length
  empty : q.empty ↔ f.elements = []
  full : q.full ↔ f.elements.length = N
  front : q.Throws .front ↔ f.elements = []
  pop : q.Throws .pop ↔ f.elements = []
  push : ∀ data, q.Throws (.push data) ↔ f.elements.length = N
  unchanged : ∀ c, q.Throws c → (q.call c).2 = q

theorem call_unchanged {c : RingCall T} (h : q.Throws c) : (q.call c).2 = q := by
  obtain ⟨e, he⟩ := h
  cases c with
  | push data =>
    rw [call_push] at he ⊢
    split_ifs at he ⊢
    rfl
  | pop =>
    rw [call_pop] at he ⊢
    split_ifs at he ⊢
    rfl
  | front =>
    rw [call_front]
    split_ifs <;> rfl
  | size => cases he
  | empty => cases he
  | full => cases he

theorem Represents.throws_iff (h : q.Represents f) (c : RingCall T) :
    q.Throws c ↔ ∃ e, answer f c = .error e := by
  obtain ⟨q', hcall, -⟩ := h.call c
  rw [Throws, hcall]

theorem Represents.agrees (h : q.Represents f) : q.Agrees f where
  size := h.size_eq
  empty := by rw [empty_iff, h.size_eq, List.length_eq_zero_iff]
  full := by rw [full_iff, h.size_eq]
  front := by
    rw [h.throws_iff, answer]
    cases f.elements <;> simp
  pop := by
    rw [h.throws_iff, answer]
    split_ifs with hempty <;> simp [hempty]
  push := by
    intro data
    rw [h.throws_iff, answer]
    split_ifs with hfull <;> simp [hfull]
  unchanged := fun _ => call_unchanged

/-- Calls of a ring queue give what they give on a bounded queue, and the two agree behind them. -/
theorem run_eq_answers (hN : 0 < N) (data : Vector T N) (calls : List (RingCall T)) :
    ((new hN data).run calls).1 = answers answer after (.empty : BoundedQueue T N) calls ∧
      ((new hN data).run calls).2.Agrees (calls.foldl after .empty) := by
  obtain ⟨q, hrun, hq⟩ := (represents_new hN data).run calls
  rw [hrun]
  exact ⟨rfl, hq.agrees⟩

theorem run_eq_answers_two :
    ((new two_pos #v[0, 0]).run [.push 7, .push 8, .push 9, .pop, .front]).1 =
        answers answer after (.empty : BoundedQueue ℕ 2) [.push 7, .push 8, .push 9, .pop, .front] ∧
      ((new two_pos #v[0, 0]).run [.push 7, .push 8, .push 9, .pop, .front]).2.Agrees
        ([.push 7, .push 8, .push 9, .pop, .front].foldl after .empty) :=
  run_eq_answers two_pos #v[0, 0] [.push 7, .push 8, .push 9, .pop, .front]

end RingQueue
end Sese.Container
