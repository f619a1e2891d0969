import Sese.Container.LinkedStack

/-!
# The queue without locks

`sese::concurrent::LinkedQueue` and the threads that use it, in the way of the stack. The node at
`head` holds no element of the queue any more; `tail` is the last node or falls behind it, and
then every thread that sees this helps it forward. `pop` deletes the node that `head` leaves;
`KeepsHeld` are the runs in which no other thread still needs that node.
-/
namespace Sese.Container

open Foundation

universe u v
variable {ι : Type u} {T : Type v}

inductive QueueCall (T : Type v)
  | push (value : T)
  | pop
  deriving DecidableEq

inductive QueueAnswer (T : Type v)
  | pushed
  /-- `none` is the answer `false`. -/
  | popped (value : Option T)
  deriving DecidableEq

def queueAnswer : List T → QueueCall T → QueueAnswer T × List T
  | values, .push value => (.pushed, values ++ [value])
  | [], .pop => (.popped none, [])
  | value :: values, .pop => (.popped (some value), values)

/-- Where a thread is, with what its local variables hold. -/
inductive QueuePlace (T : Type v)
  | outside
  /-- `push`, before `new Node()`. -/
  | pushNew (value : T)
  /-- Before `this->tail.load()`. -/
  | pushTail (node : ℕ)
  /-- Before `tail->next.load()`. -/
  | pushNext (node tail : ℕ)
  /-- Before `tail == this->tail`. -/
  | pushTest (node tail : ℕ) (next : Option ℕ)
  /-- Before `tail->next.compare_exchange_weak(next, node)`, where `next` is null. -/
  | pushLink (node tail : ℕ)
  /-- Before `this->tail.compare_exchange_weak(tail, next)`. -/
  | pushHelp (node tail next : ℕ)
  /-- Before the last `this->tail.compare_exchange_weak(tail, node)`. -/
  | pushSwing (node tail : ℕ)
  | pushReturn
  /-- `pop`, before `this->head.load()`. -/
  | popHead
  /-- Before `this->tail.load()`. -/
  | popTail (head : ℕ)
  /-- Before `head->next.load()`. -/
  | popNext (head tail : ℕ)
  /-- Before `head == this->head`. -/
  | popTest (head tail : ℕ) (next : Option ℕ)
  /-- Before `this->tail.compare_exchange_weak(tail, next)`. -/
  | popHelp (tail next : ℕ)
  /-- Before `value = next->value`. -/
  | popValue (head : ℕ) (next : Option ℕ)
  /-- Before `this->head.compare_exchange_weak(head, next)`. -/
  | popExchange (head next : ℕ) (value : T)
  /-- Before `delete head`. -/
  | popDelete (head : ℕ) (value : T)
  | popReturn (value : Option T)

/-- The queue, the memory, the threads, and what was seen of them so far. -/
structure LinkedQueue (ι : Type u) (T : Type v) where
  head : ℕ
  tail : ℕ
  heap : ℕ → Option (Node T)
  place : ι → QueuePlace T := fun _ => .outside
  history : List (Observation ι (QueueCall T) (QueueAnswer T)) := []

inductive LinkedQueueEvent (ι : Type u) (T : Type v)
  | calls (i : ι) (call : QueueCall T)
  /-- `new` gives an address. -/
  | allocates (i : ι) (address : ℕ)
  /-- The thread takes the next step of the call that it is in. -/
  | advance (i : ι)
  /-- `compare_exchange_weak` fails though it finds what it expects. -/
  | fails (i : ι)

namespace QueuePlace

def start : QueueCall T → QueuePlace T
  | .push value => .pushNew value
  | .pop => .popHead

/-- The node that `push` has not linked yet. -/
def draft : QueuePlace T → Option ℕ
  | .pushTail a | .pushNext a _ | .pushTest a _ _ | .pushLink a _ | .pushHelp a _ _ => some a
  | _ => none

/-- The node that `pop` has taken off and not deleted yet; the next step deletes it. -/
def taken : QueuePlace T → Option ℕ
  | .popDelete a _ => some a
  | _ => none

/-- The nodes that the thread needs though others may take them off. -/
def holds : QueuePlace T → List ℕ
  | .pushNext _ tail | .pushTest _ tail _ | .pushLink _ tail | .pushHelp _ tail _
  | .pushSwing _ tail => [tail]
  | .popTail head | .popNext head _ | .popTest head _ _ => [head]
  | .popHelp tail _ => [tail]
  | .popValue head (some next) | .popExchange head next _ => [head, next]
  | .popValue head none => [head]
  | _ => []

end QueuePlace

namespace LinkedQueue

/-- The constructor; `value` is what `std::atomic<T> value{}` holds. -/
def init (node : ℕ) (value : T) : LinkedQueue ι T where
  head := node
  tail := node
  heap := fun a => if a = node then some ⟨value, none⟩ else none

variable [DecidableEq ι]

def goTo (s : LinkedQueue ι T) (i : ι) (place : QueuePlace T) : LinkedQueue ι T :=
  { s with place := Function.update s.place i place }

def returns (s : LinkedQueue ι T) (i : ι) (answer : QueueAnswer T) : LinkedQueue ι T :=
  { s with history := s.history ++ [Observation.returns i answer] }.goTo i .outside

/-- `this->tail.compare_exchange_weak(tail, next)`. -/
def swing (s : LinkedQueue ι T) (tail next : ℕ) : LinkedQueue ι T :=
  if s.tail = tail then { s with tail := next } else s

def advance (s : LinkedQueue ι T) (i : ι) : Except LinkStop (LinkedQueue ι T) :=
  match s.place i with
  | .outside | .pushNew _ => .error .elsewhere
  | .pushTail node => .ok (s.goTo i (.pushNext node s.tail))
  | .pushNext node tail =>
    match s.heap tail with
    | none => .error .freed
    | some { next, .. } => .ok (s.goTo i (.pushTest node tail next))
  | .pushTest node tail next =>
    if tail = s.tail then
      match next with
      | none => .ok (s.goTo i (.pushLink node tail))
      | some next => .ok (s.goTo i (.pushHelp node tail next))
    else .ok (s.goTo i (.pushTail node))
  | .pushLink node tail =>
    match s.heap tail with
    | none => .error .freed
    | some { value, next := none } =>
      .ok ({ s with heap := Function.update s.heap tail (some ⟨value, some node⟩) }.goTo i
        (.pushSwing node tail))
    | some { next := some _, .. } => .ok (s.goTo i (.pushTail node))
  | .pushHelp node tail next => .ok ((s.swing tail next).goTo i (.pushTail node))
  | .pushSwing node tail => .ok ((s.swing tail node).goTo i .pushReturn)
  | .pushReturn => .ok (s.returns i .pushed)
  | .popHead => .ok (s.goTo i (.popTail s.head))
  | .popTail head => .ok (s.goTo i (.popNext head s.tail))
  | .popNext head tail =>
    match s.heap head with
    | none => .error .freed
    | some { next, .. } => .ok (s.goTo i (.popTest head tail next))
  | .popTest head tail next =>
    if head = s.head then
      if head = tail then
        match next with
        | none => .ok (s.goTo i (.popReturn none))
        | some next => .ok (s.goTo i (.popHelp tail next))
      else .ok (s.goTo i (.popValue head next))
    else .ok (s.goTo i .popHead)
  | .popHelp tail next => .ok ((s.swing tail next).goTo i .popHead)
  | .popValue head next =>
    match next with
    | none => .error .freed
    | some next =>
      match s.heap next with
      | none => .error .freed
      | some { value, .. } => .ok (s.goTo i (.popExchange head next value))
  | .popExchange head next value =>
    if s.head = head then .ok ({ s with head := next }.goTo i (.popDelete head value))
    else .ok (s.goTo i .popHead)
  | .popDelete head value =>
    match s.heap head with
    | none => .error .freed
    | some _ =>
      .ok ({ s with heap := Function.update s.heap head none }.goTo i (.popReturn (some value)))
  | .popReturn value => .ok (s.returns i (.popped value))

def step (s : LinkedQueue ι T) : LinkedQueueEvent ι T → Except LinkStop (LinkedQueue ι T)
  | .calls i call =>
    match s.place i with
    | .outside =>
      .ok ({ s with history := s.history ++ [Observation.calls i call] }.goTo i (.start call))
    | _ => .error .elsewhere
  | .allocates i address =>
    match s.place i, s.heap address with
    | .pushNew value, none =>
      .ok ({ s with heap := Function.update s.heap address (some ⟨value, none⟩) }.goTo i
        (.pushTail address))
    | _, _ => .error .elsewhere
  | .advance i => s.advance i
  | .fails i =>
    match s.place i with
    | .pushLink node _ | .pushHelp node _ _ => .ok (s.goTo i (.pushTail node))
    | .pushSwing _ _ => .ok (s.goTo i .pushReturn)
    | .popHelp _ _ | .popExchange _ _ _ => .ok (s.goTo i .popHead)
    | _ => .error .elsewhere

/-- The destructor, with as much fuel as it may go round. -/
def destroy (heap : ℕ → Option (Node T)) : ℕ → Option ℕ → Except LinkStop (ℕ → Option (Node T))
  | _, none => .ok heap
  | 0, some _ => .error .elsewhere
  | fuel + 1, some node =>
    match heap node with
    | none => .error .freed
    | some { next, .. } =>
      destroy (Function.update heap node none) fuel (if next = some node then none else next)

/-- No node is deleted while another thread still needs it. -/
def KeepsHeld (s : LinkedQueue ι T) : LinkedQueueEvent ι T → Prop
  | .advance i => ∀ j, j ≠ i → ∀ a ∈ (s.place i).taken, a ∉ (s.place j).holds
  | _ => True

end LinkedQueue

namespace QueuePlace

def behind : QueuePlace T → Option (ℕ × ℕ)
  | .pushTest _ a (some next) | .pushHelp _ a next | .pushSwing next a | .popTest a _ (some next)
  | .popHelp a next | .popValue a (some next) | .popExchange a next _ => some (a, next)
  | _ => none

/-- The node that the thread has seen at `head`. -/
def top : QueuePlace T → Option ℕ
  | .popTail a | .popNext a _ | .popTest a _ _ | .popValue a _ | .popExchange a _ _ => some a
  | _ => none

/-- The node at `head`, if the thread has seen `tail` elsewhere. -/
def ahead : QueuePlace T → Option ℕ
  | .popNext a tail | .popTest a tail _ => if a = tail then none else some a
  | .popValue a _ | .popExchange a _ _ => some a
  | _ => none

def seen : QueuePlace T → Option (ℕ × T)
  | .popExchange _ a value => some (a, value)
  | _ => none

/-- Behind the node at `head` there is nothing only if `tail` is there too. -/
def Sound : QueuePlace T → Prop
  | .popTest head tail none => head = tail
  | .popValue _ none => False
  | _ => True

/-- How far the call of a thread is that is at a place. A `pop` that has seen nothing behind the
node at `head` may answer with it, or go round again. -/
def Fits (heap : ℕ → Option (Node T)) : QueuePlace T → Phase (QueueCall T) (QueueAnswer T) → Prop
  | .outside, phase => phase = .idle
  | .pushNew value, phase => phase = .called (.push value)
  | .pushTail a, phase | .pushNext a _, phase | .pushTest a _ _, phase | .pushLink a _, phase
  | .pushHelp a _ _, phase => ∃ node, heap a = some node ∧ phase = .called (.push node.value)
  | .pushSwing _ _, phase | .pushReturn, phase => phase = .answered .pushed
  | .popTest _ _ none, phase => phase = .called .pop ∨ phase = .answered (.popped none)
  | .popHead, phase | .popTail _, phase | .popNext _ _, phase | .popTest _ _ (some _), phase
  | .popHelp _ _, phase | .popValue _ _, phase | .popExchange _ _ _, phase => phase = .called .pop
  | .popDelete _ value, phase => phase = .answered (.popped (some value))
  | .popReturn value, phase => phase = .answered (.popped value)

theorem Fits.congr {heap heap' : ℕ → Option (Node T)} {place : QueuePlace T}
    {phase : Phase (QueueCall T) (QueueAnswer T)} (h : place.Fits heap' phase)
    (heq : ∀ a, place.draft = some a → heap' a = heap a) : place.Fits heap phase := by
  cases place with
  | pushTail a | pushNext a tail | pushTest a tail next | pushLink a tail | pushHelp a tail next =>
    rwa [Fits, ← heq a rfl]
  | popTest head tail next => cases next <;> exact h
  | _ => exact h

theorem mem_holds_of_behind {place : QueuePlace T} {a next : ℕ} (h : place.behind = some (a, next)) :
    a ∈ place.holds := by
  cases place with
  | pushTest node tail next | popTest node tail next | popValue node next =>
    cases next
    · cases h
    · cases h
      simp [holds]
  | _ => cases h <;> simp [holds]

theorem mem_holds_of_top {place : QueuePlace T} {a : ℕ} (h : place.top = some a) : a ∈ place.holds := by
  cases place with
  | popValue node next =>
    cases h
    cases next <;> simp [holds]
  | _ => cases h <;> simp [holds]

theorem mem_holds_of_seen {place : QueuePlace T} {a : ℕ} {value : T} (h : place.seen = some (a, value)) :
    a ∈ place.holds := by
  cases place <;> cases h
  simp [holds]

theorem top_of_ahead {place : QueuePlace T} {a : ℕ} (h : place.ahead = some a) : place.top = some a := by
  cases place with
  | popNext head tail | popTest head tail next =>
    rw [ahead] at h
    split_ifs at h
    exact h
  | popValue head next | popExchange head next value => exact h
  | _ => cases h

end QueuePlace

namespace LinkedQueue

/-- What a thread that is at a place knows of the queue. -/
structure Knows (s : LinkedQueue ι T) (nodes : List ℕ) (place : QueuePlace T) : Prop where
  fresh : ∀ a, place.draft = some a → ∃ value, s.heap a = some ⟨value, none⟩
  gone : ∀ a, place.taken = some a → ∃ value next, s.heap a = some ⟨value, some next⟩
  behind : ∀ a next, place.behind = some (a, next) → ∃ value, s.heap a = some ⟨value, some next⟩
  seen : ∀ a value, place.seen = some (a, value) → ∃ next, s.heap a = some ⟨value, next⟩
  top : ∀ a, place.top = some a → a ∈ nodes → a = s.head
  ahead : ∀ a, place.ahead = some a → a = s.head → s.tail ≠ a
  sound : place.Sound

/-- What a step of another thread leaves as it is. -/
structure Keeps (s : LinkedQueue ι T) (nodes : List ℕ) (s' : LinkedQueue ι T) (nodes' : List ℕ)
    (place : QueuePlace T) : Prop where
  own : ∀ a, place.draft = some a ∨ place.taken = some a → s'.heap a = s.heap a
  value : ∀ a ∈ place.holds, ∀ value next, s.heap a = some ⟨value, next⟩ →
    ∃ next', s'.heap a = some ⟨value, next'⟩ ∧ (next ≠ none → next' = next)
  top : ∀ a ∈ place.holds, a ∈ nodes' → a ∈ nodes ∧ (a = s.head → a = s'.head)
  ahead : ∀ a, (a ∈ nodes → a = s.head) → (a = s.head → s.tail ≠ a) → a = s'.head → s'.tail ≠ a

variable {s s' : LinkedQueue ι T} {nodes nodes' : List ℕ} {place : QueuePlace T}

theorem Knows.keep (h : s.Knows nodes place) (hkeeps : s.Keeps nodes s' nodes' place) :
    s'.Knows nodes' place where
  fresh := by
    intro a ha
    rw [hkeeps.own a (.inl ha)]
    exact h.fresh a ha
  gone := by
    intro a ha
    rw [hkeeps.own a (.inr ha)]
    exact h.gone a ha
  behind := by
    intro a next ha
    obtain ⟨value, hnode⟩ := h.behind a next ha
    obtain ⟨next', hnode', hnext⟩ := hkeeps.value a (QueuePlace.mem_holds_of_behind ha) value _ hnode
    obtain rfl := hnext nofun
    exact ⟨value, hnode'⟩
  seen := by
    intro a value ha
    obtain ⟨next, hnode⟩ := h.seen a value ha
    obtain ⟨next', hnode', -⟩ := hkeeps.value a (QueuePlace.mem_holds_of_seen ha) value _ hnode
    exact ⟨next', hnode'⟩
  top := by
    intro a ha hmem
    obtain ⟨hbefore, hhead⟩ := hkeeps.top a (QueuePlace.mem_holds_of_top ha) hmem
    exact hhead (h.top a ha hbefore)
  ahead := by
    intro a ha
    exact hkeeps.ahead a (h.top a (QueuePlace.top_of_ahead ha)) (h.ahead a ha)
  sound := h.sound

/-- What holds between the steps: every address is in one hand, and the values behind the first
node are what an atomic queue holds that has the same history. -/
structure Coherent [DecidableEq ι] (s : LinkedQueue ι T) (nodes : List ℕ) (values : List T)
    (hand : ℕ → Hand ι) : Prop where
  chain : ∃ dummy, Chain s.heap (some s.head) nodes (dummy :: values)
  tail : s.tail ∈ nodes
  free : ∀ a, hand a = .free ↔ s.heap a = none
  linked : ∀ a, hand a = .linked ↔ a ∈ nodes
  push : ∀ i a, hand a = .push i ↔ (s.place i).draft = some a
  pop : ∀ i a, hand a = .pop i ↔ (s.place i).taken = some a
  held : ∀ i, ∀ a ∈ (s.place i).holds, hand a = .linked ∨ ∃ j, hand a = .pop j
  knows : ∀ i, s.Knows nodes (s.place i)
  explained : Explained queueAnswer [] (fun i => (s.place i).Fits s.heap) s.history values

section Steps

variable [DecidableEq ι] {values values' : List T} {hand : ℕ → Hand ι} {i : ι}

omit [DecidableEq ι] in
theorem Knows.of_idle (hdraft : place.draft = none) (htaken : place.taken = none)
    (hholds : place.holds = []) (hsound : place.Sound) : s.Knows nodes place where
  fresh := fun a ha => by rw [hdraft] at ha; cases ha
  gone := fun a ha => by rw [htaken] at ha; cases ha
  behind := fun a next ha => absurd (QueuePlace.mem_holds_of_behind ha) (by simp [hholds])
  seen := fun a value ha => absurd (QueuePlace.mem_holds_of_seen ha) (by simp [hholds])
  top := fun a ha => absurd (QueuePlace.mem_holds_of_top ha) (by simp [hholds])
  ahead := fun a ha =>
    absurd (QueuePlace.mem_holds_of_top (QueuePlace.top_of_ahead ha)) (by simp [hholds])
  sound := hsound

theorem coherent_init (node : ℕ) (value : T) :
    (init node value : LinkedQueue ι T).Coherent [node] [] fun a => if a = node then .linked else .free where
  chain := ⟨value, .cons (if_pos rfl) .nil⟩
  tail := List.mem_singleton_self node
  free := by
    intro a
    by_cases ha : a = node <;> simp [init, ha]
  linked := by
    intro a
    by_cases ha : a = node <;> simp [ha]
  push := by
    intro i a
    by_cases ha : a = node <;> simp [init, ha, QueuePlace.draft]
  pop := by
    intro i a
    by_cases ha : a = node <;> simp [init, ha, QueuePlace.taken]
  held := fun i a ha => by cases ha
  knows := fun i => Knows.of_idle rfl rfl rfl trivial
  explained := by
    intro phase hphase
    obtain rfl : phase = fun _ => .idle := funext hphase
    exact .start

theorem Coherent.head_mem (h : s.Coherent nodes values hand) : s.head ∈ nodes := by
  obtain ⟨dummy, hchain⟩ := h.chain
  cases hchain
  exact List.mem_cons_self

theorem Coherent.head_not_mem_tail (h : s.Coherent nodes values hand) : s.head ∉ nodes.tail := by
  obtain ⟨dummy, hchain⟩ := h.chain
  have hnodup := hchain.nodup
  cases hchain
  exact (List.nodup_cons.mp hnodup).1

theorem Coherent.move (h : s.Coherent nodes values hand)
    (hplace : s'.place = Function.update s.place i place) (hheap : s'.heap = s.heap)
    (hhead : s'.head = s.head) (htail : s'.tail = s.tail ∨ s'.tail ∈ nodes.tail)
    (hdraft : place.draft = (s.place i).draft) (htaken : place.taken = (s.place i).taken)
    (hholds : ∀ a ∈ place.holds, hand a = .linked ∨ ∃ j, hand a = .pop j)
    (hknows : s'.Knows nodes place)
    (hexpl : Explained queueAnswer [] (fun j => (s'.place j).Fits s'.heap) s'.history values) :
    s'.Coherent nodes values hand where
  chain := by
    rw [hheap, hhead]
    exact h.chain
  tail := by
    rcases htail with htail | htail
    · rw [htail]
      exact h.tail
    · exact List.mem_of_mem_tail htail
  free := by
    rw [hheap]
    exact h.free
  linked := h.linked
  push := by
    intro j a
    rw [hplace, h.push]
    by_cases hj : j = i
    · subst hj
      rw [Function.update_self, hdraft]
    · rw [Function.update_of_ne hj]
  pop := by
    intro j a
    rw [hplace, h.pop]
    by_cases hj : j = i
    · subst hj
      rw [Function.update_self, htaken]
    · rw [Function.update_of_ne hj]
  held := by
    intro j
    rw [hplace]
    by_cases hj : j = i
    · subst hj
      rw [Function.update_self]
      exact hholds
    · rw [Function.update_of_ne hj]
      exact h.held j
  knows := by
    intro j
    rw [hplace]
    by_cases hj : j = i
    · subst hj
      rw [Function.update_self]
      exact hknows
    · rw [Function.update_of_ne hj]
      refine (h.knows j).keep (?_ : s.Keeps nodes s' nodes (s.place j))
      constructor
      · intro a _
        rw [hheap]
      · intro a _ value next hnode
        rw [hheap]
        exact ⟨next, hnode, fun _ => rfl⟩
      · intro a _ hmem
        rw [hhead]
        exact ⟨hmem, id⟩
      · intro a _ hahead ha
        rw [hhead] at ha
        rcases htail with htail | htail
        · rw [htail]
          exact hahead ha
        · rintro rfl
          rw [ha] at htail
          exact h.head_not_mem_tail htail
  explained := hexpl

theorem Coherent.change (h : s.Coherent nodes values hand) {b : ℕ} {new : Hand ι}
    (hplace : s'.place = Function.update s.place i place) (hold : (hand b).Near i) (hnew : new.Near i)
    (hchain : ∃ dummy, Chain s'.heap (some s'.head) nodes' (dummy :: values'))
    (htail : s'.tail ∈ nodes') (hfree : ∀ a, Function.update hand b new a = .free ↔ s'.heap a = none)
    (hlinked : ∀ a, Function.update hand b new a = .linked ↔ a ∈ nodes')
    (hpush : ∀ a, Function.update hand b new a = .push i ↔ place.draft = some a)
    (hpop : ∀ a, Function.update hand b new a = .pop i ↔ place.taken = some a)
    (hholds : ∀ a ∈ place.holds,
      Function.update hand b new a = .linked ∨ ∃ j, Function.update hand b new a = .pop j)
    (hknows : s'.Knows nodes' place)
    (hothers : ∀ j, j ≠ i → s.Keeps nodes s' nodes' (s.place j) ∧
      (b ∈ (s.place j).holds → new = .linked ∨ ∃ k, new = .pop k))
    (hexpl : Explained queueAnswer [] (fun j => (s'.place j).Fits s'.heap) s'.history values') :
    s'.Coherent nodes' values' (Function.update hand b new) where
  chain := hchain
  tail := htail
  free := hfree
  linked := hlinked
  push := by
    intro j a
    rw [hplace]
    by_cases hj : j = i
    · subst hj
      rw [Function.update_self]
      exact hpush a
    · rw [Function.update_of_ne hj, ← h.push]
      by_cases ha : a = b
      · subst ha
        rw [Function.update_self]
        exact ⟨fun hp => absurd (hnew j (.inl hp)) hj, fun hp => absurd (hold j (.inl hp)) hj⟩
      · rw [Function.update_of_ne ha]
  pop := by
    intro j a
    rw [hplace]
    by_cases hj : j = i
    · subst hj
      rw [Function.update_self]
      exact hpop a
    · rw [Function.update_of_ne hj, ← h.pop]
      by_cases ha : a = b
      · subst ha
        rw [Function.update_self]
        exact ⟨fun hp => absurd (hnew j (.inr hp)) hj, fun hp => absurd (hold j (.inr hp)) hj⟩
      · rw [Function.update_of_ne ha]
  held := by
    intro j a ha
    rw [hplace] at ha
    by_cases hj : j = i
    · subst hj
      rw [Function.update_self] at ha
      exact hholds a ha
    · rw [Function.update_of_ne hj] at ha
      by_cases hab : a = b
      · subst hab
        rw [Function.update_self]
        exact (hothers j hj).2 ha
      · rw [Function.update_of_ne hab]
        exact h.held j a ha
  knows := by
    intro j
    rw [hplace]
    by_cases hj : j = i
    · subst hj
      rw [Function.update_self]
      exact hknows
    · rw [Function.update_of_ne hj]
      exact (h.knows j).keep (hothers j hj).1
  explained := hexpl

theorem goTo_self (s : LinkedQueue ι T) (i : ι) (place : QueuePlace T) :
    (s.goTo i place).place i = place := by
  simp [LinkedQueue.goTo]

theorem fits_of_ne {heap heap' : ℕ → Option (Node T)}
    (hown : ∀ j, j ≠ i → ∀ a, (s.place j).draft = some a → heap' a = heap a) (j : ι) (hj : j ≠ i)
    (phase : Phase (QueueCall T) (QueueAnswer T)) (hfits : ((s.goTo i place).place j).Fits heap' phase) :
    (s.place j).Fits heap phase := by
  have hplace : (s.goTo i place).place j = s.place j := by simp [LinkedQueue.goTo, hj]
  rw [hplace] at hfits
  exact hfits.congr (hown j hj)

omit [DecidableEq ι] in
theorem Knows.congr (h : s.Knows nodes place) (hheap : s'.heap = s.heap) (hhead : s'.head = s.head)
    (htail : s'.tail = s.tail) : s'.Knows nodes place := by
  obtain ⟨head, tail, heap, place', history⟩ := s'
  obtain rfl : heap = s.heap := hheap
  obtain rfl : head = s.head := hhead
  obtain rfl : tail = s.tail := htail
  exact ⟨h.fresh, h.gone, h.behind, h.seen, h.top, h.ahead, h.sound⟩

theorem Coherent.goTo (h : s.Coherent nodes values hand) {s₁ : LinkedQueue ι T}
    (hs : s₁ = s ∨ ∃ tail ∈ nodes.tail, s₁ = { s with tail := tail })
    (hdraft : place.draft = (s.place i).draft) (htaken : place.taken = (s.place i).taken)
    (hholds : ∀ a ∈ place.holds, hand a = .linked ∨ ∃ j, hand a = .pop j)
    (hknows : s₁.Knows nodes place)
    (hsame : ∀ phase, place.Fits s.heap phase → (s.place i).Fits s.heap phase) :
    (s₁.goTo i place).Coherent nodes values hand := by
  have hexpl : Explained queueAnswer [] (fun j => ((s.goTo i place).place j).Fits s.heap) s.history
      values := by
    apply h.explained.narrow
    intro j phase hfits
    by_cases hj : j = i
    · subst hj
      rw [goTo_self] at hfits
      exact hsame phase hfits
    · exact fits_of_ne (fun _ _ _ _ => rfl) j hj phase hfits
  have hknows' : (s₁.goTo i place).Knows nodes place := hknows.congr rfl rfl rfl
  rcases hs with rfl | ⟨tail, htail, rfl⟩
  · exact h.move rfl rfl rfl (.inl rfl) hdraft htaken hholds hknows' hexpl
  · exact h.move rfl rfl rfl (.inr htail) hdraft htaken hholds hknows' hexpl

/-- A node that is still linked leads to one that is linked too. -/
theorem Coherent.next_mem (h : s.Coherent nodes values hand) {a next : ℕ} {value : T} (ha : a ∈ nodes)
    (hnode : s.heap a = some ⟨value, some next⟩) : next ∈ nodes.tail := by
  obtain ⟨dummy, hchain⟩ := h.chain
  exact hchain.mem_tail ha hnode

theorem Coherent.swing (h : s.Coherent nodes values hand) {a next : ℕ} {value : T}
    (hnode : s.heap a = some ⟨value, some next⟩) :
    s.swing a next = s ∨ ∃ tail ∈ nodes.tail, s.swing a next = { s with tail := tail } := by
  unfold LinkedQueue.swing
  split_ifs with htail
  · subst htail
    exact .inr ⟨next, h.next_mem h.tail hnode, rfl⟩
  · exact .inl rfl

theorem Coherent.linked_of_last (h : s.Coherent nodes values hand) {a : ℕ} {value : T}
    (ha : a ∈ (s.place i).holds) (hnode : s.heap a = some ⟨value, none⟩) : hand a = .linked := by
  rcases h.held i a ha with hlinked | ⟨j, hpop⟩
  · exact hlinked
  · obtain ⟨value', next, hgone⟩ := (h.knows j).gone a ((h.pop j a).mp hpop)
    rw [hnode] at hgone
    cases hgone

/-- A `pop` that sees nothing behind the node at `head` has seen an empty queue. -/
theorem Coherent.empty_of_top (h : s.Coherent nodes values hand) {a : ℕ} {value : T}
    (ha : (s.place i).top = some a) (hnode : s.heap a = some ⟨value, none⟩) :
    a = s.head ∧ s.tail = a ∧ values = [] := by
  have hlinked := h.linked_of_last (QueuePlace.mem_holds_of_top ha) hnode
  have hhead := (h.knows i).top a ha ((h.linked a).mp hlinked)
  subst hhead
  obtain ⟨dummy, hchain⟩ := h.chain
  have htail := h.tail
  cases hchain with
  | cons hfirst hrest =>
    rw [hnode] at hfirst
    cases hfirst
    cases hrest
    exact ⟨rfl, List.mem_singleton.mp htail, rfl⟩

theorem Coherent.not_mem (h : s.Coherent nodes values hand) {a : ℕ} (ha : hand a ≠ .linked) :
    a ∉ nodes :=
  fun hmem => ha ((h.linked a).mpr hmem)

/-- What a thread needs is in no hand from which it could be linked or given out. -/
theorem Coherent.ne_of_holds (h : s.Coherent nodes values hand) {j : ι} {a b : ℕ}
    (ha : a ∈ (s.place j).holds) (hb : hand b = .free ∨ hand b = .push i) : a ≠ b := by
  rintro rfl
  rcases h.held j a ha with hlinked | ⟨k, hpop⟩
  · rcases hb with hb | hb <;> rw [hb] at hlinked <;> cases hlinked
  · rcases hb with hb | hb <;> rw [hb] at hpop <;> cases hpop

theorem Coherent.ne_of_own (h : s.Coherent nodes values hand) {j : ι} (hj : j ≠ i) {a b : ℕ}
    (hnear : (hand b).Near i) (ha : (s.place j).draft = some a ∨ (s.place j).taken = some a) :
    a ≠ b := by
  rintro rfl
  rcases ha with ha | ha
  · exact hj (hnear j (.inl ((h.push j a).mpr ha)))
  · exact hj (hnear j (.inr ((h.pop j a).mpr ha)))

theorem Coherent.allocate (h : s.Coherent nodes values hand) {value : T} {b : ℕ}
    (hplace : s.place i = .pushNew value) (hnone : s.heap b = none) :
    ({ s with heap := Function.update s.heap b (some ⟨value, none⟩) }.goTo i (.pushTail b)).Coherent
      nodes values (Function.update hand b (.push i)) := by
  have hfree : hand b = .free := (h.free b).mpr hnone
  have hnew : b ∉ nodes := h.not_mem (by rw [hfree]; nofun)
  have hnear : (hand b).Near i := hfree ▸ Hand.near_free
  have hmine : ∀ a, hand a ≠ .push i ∧ hand a ≠ .pop i := by
    intro a
    rw [Ne, Ne, h.push, h.pop, hplace]
    exact ⟨nofun, nofun⟩
  have hheap : ∀ a, a ≠ b → Function.update s.heap b (some ⟨value, none⟩) a = s.heap a :=
    fun a ha => Function.update_of_ne ha _ _
  obtain ⟨dummy, hchain⟩ := h.chain
  refine h.change rfl hnear Hand.near_push ⟨dummy, hchain.update hnew _⟩ h.tail ?_ ?_ ?_ ?_
    (fun _ => nofun) ?_ ?_ ?_
  · refine update_eq_iff (iff_of_false nofun (by simp [LinkedQueue.goTo])) fun a ha => ?_
    rw [h.free, ← hheap a ha]
    rfl
  · exact update_eq_iff (iff_of_false nofun hnew) fun a _ => h.linked a
  · refine update_eq_iff (iff_of_true rfl rfl) fun a ha => iff_of_false (hmine a).1 ?_
    exact fun hab => ha (Option.some.inj hab).symm
  · exact update_eq_iff (iff_of_false nofun nofun) fun a _ => iff_of_false (hmine a).2 nofun
  · constructor
    · rintro a ⟨⟩
      exact ⟨value, Function.update_self ..⟩
    · exact fun _ => nofun
    · exact fun _ _ => nofun
    · exact fun _ _ => nofun
    · exact fun _ => nofun
    · exact fun _ => nofun
    · trivial
  · intro j hj
    refine ⟨⟨?_, ?_, ?_, ?_⟩, fun hb => absurd rfl (h.ne_of_holds (i := i) hb (.inl hfree))⟩
    · exact fun a ha => hheap a (h.ne_of_own hj hnear ha)
    · intro a ha v next hnode
      exact ⟨next, (hheap a (h.ne_of_holds (i := i) ha (.inl hfree))).trans hnode, fun _ => rfl⟩
    · exact fun a _ hmem => ⟨hmem, id⟩
    · exact fun a _ hahead => hahead
  · apply h.explained.narrow
    intro j phase hfits
    by_cases hj : j = i
    · subst hj
      rw [goTo_self] at hfits
      obtain ⟨node, hnode, rfl⟩ := hfits
      rw [hplace]
      obtain rfl : ⟨value, none⟩ = node := by simpa [LinkedQueue.goTo] using hnode
      rfl
    · exact fits_of_ne (fun k hk a ha => hheap a (h.ne_of_own hk hnear (.inl ha))) j hj phase hfits

/-- The exchange of `push` links its node. -/
theorem Coherent.link (h : s.Coherent nodes values hand) {b tail : ℕ} {value : T}
    (hplace : s.place i = .pushLink b tail) (hlast : s.heap tail = some ⟨value, none⟩) :
    ∃ values, ({ s with heap := Function.update s.heap tail (some ⟨value, some b⟩) }.goTo i
      (.pushSwing b tail)).Coherent (nodes ++ [b]) values (Function.update hand b .linked) := by
  have hmine : hand b = .push i := (h.push i b).mpr (by rw [hplace]; rfl)
  have hnear : (hand b).Near i := hmine ▸ Hand.near_push
  have hnew : b ∉ nodes := h.not_mem (by rw [hmine]; nofun)
  obtain ⟨pushed, hnode⟩ := (h.knows i).fresh b (by rw [hplace]; rfl)
  have hlinked := h.linked_of_last (i := i) (by rw [hplace]; exact List.mem_singleton_self tail) hlast
  have hmem : tail ∈ nodes := (h.linked tail).mp hlinked
  have hne : b ≠ tail := fun hbt => hnew (hbt ▸ hmem)
  have hheap : ∀ a, a ≠ tail → Function.update s.heap tail (some ⟨value, some b⟩) a = s.heap a :=
    fun a ha => Function.update_of_ne ha _ _
  have hown : ∀ j, ∀ a, (s.place j).draft = some a ∨ (s.place j).taken = some a → a ≠ tail := by
    rintro j a ha rfl
    rcases ha with ha | ha
    · rw [← h.push, hlinked] at ha
      cases ha
    · rw [← h.pop, hlinked] at ha
      cases ha
  obtain ⟨dummy, hchain⟩ := h.chain
  refine ⟨values ++ [pushed], h.change rfl hnear Hand.near_linked
    ⟨dummy, hchain.snoc hmem hlast hnode hnew⟩ (List.mem_append_left _ h.tail) ?_ ?_ ?_ ?_ ?_ ?_ ?_ ?_⟩
  · refine update_eq_iff (iff_of_false nofun ?_) fun a _ => ?_
    · simp [LinkedQueue.goTo, hne, hnode]
    · by_cases ha : a = tail
      · subst ha
        simp [LinkedQueue.goTo, hlinked]
      · rw [h.free, ← hheap a ha]
        rfl
  · refine update_eq_iff (iff_of_true rfl (by simp)) fun a ha => ?_
    rw [h.linked, List.mem_append, List.mem_singleton, or_iff_left ha]
  · refine update_eq_iff (iff_of_false nofun nofun) fun a ha => ?_
    rw [h.push, hplace]
    exact iff_of_false (fun hab => ha (Option.some.inj hab).symm) nofun
  · refine update_eq_iff (iff_of_false nofun nofun) fun a _ => ?_
    rw [h.pop, hplace]
    rfl
  · intro a ha
    obtain rfl := List.mem_singleton.mp ha
    rw [Function.update_of_ne (Ne.symm hne)]
    exact .inl hlinked
  · constructor
    · exact fun _ => nofun
    · exact fun _ => nofun
    · rintro a next ⟨⟩
      exact ⟨value, Function.update_self ..⟩
    · exact fun _ _ => nofun
    · exact fun _ => nofun
    · exact fun _ => nofun
    · trivial
  · intro j hj
    refine ⟨⟨?_, ?_, ?_, ?_⟩, fun _ => .inl rfl⟩
    · exact fun a ha => hheap a (hown j a ha)
    · intro a _ v next hbefore
      by_cases ha : a = tail
      · subst ha
        rw [hlast] at hbefore
        cases hbefore
        exact ⟨some b, Function.update_self .., fun hnone => absurd rfl hnone⟩
      · exact ⟨next, (hheap a ha).trans hbefore, fun _ => rfl⟩
    · intro a ha hafter
      refine ⟨?_, id⟩
      rcases List.mem_append.mp hafter with hbefore | hbefore
      · exact hbefore
      · exact absurd (List.mem_singleton.mp hbefore) (h.ne_of_holds (i := i) ha (.inr hmine))
    · exact fun a _ hahead => hahead
  · have hcalled : (s.place i).Fits s.heap (.called (.push pushed)) := by
      rw [hplace]
      exact ⟨_, hnode, rfl⟩
    refine h.explained.effect hcalled
      (fits_of_ne fun j _ a ha => hheap a (hown j a (.inl ha))) ?_ rfl
    rw [goTo_self]
    exact fun _ hphase => hphase

/-- The exchange of `pop` moves `head` to the node whose value it has read. -/
theorem Coherent.take (h : s.Coherent nodes values hand) {head next : ℕ} {value : T}
    (hplace : s.place i = .popExchange head next value) (hhead : s.head = head) :
    ∃ nodes values, ({ s with head := next }.goTo i (.popDelete head value)).Coherent nodes values
      (Function.update hand head (.pop i)) := by
  have hknows := h.knows i
  rw [hplace] at hknows
  subst hhead
  obtain ⟨old, hnode⟩ := hknows.behind s.head next rfl
  obtain ⟨after, hseen⟩ := hknows.seen next value rfl
  have hahead : s.tail ≠ s.head := hknows.ahead s.head rfl rfl
  have hlinked : hand s.head = .linked := (h.linked _).mpr h.head_mem
  have hnear : (hand s.head).Near i := hlinked ▸ Hand.near_linked
  have hmine : ∀ a, hand a ≠ .push i ∧ hand a ≠ .pop i := by
    intro a
    rw [Ne, Ne, h.push, h.pop, hplace]
    exact ⟨nofun, nofun⟩
  have htail := h.tail
  obtain ⟨dummy, hchain⟩ := h.chain
  have hnodup := hchain.nodup
  have hlinks := h.linked
  have hexpl := h.explained
  cases hchain with
  | @cons _ _ next' rest _ hfirst hrest =>
    rw [hnode] at hfirst
    obtain ⟨-, rfl⟩ : old = dummy ∧ some next = next' := by simpa using hfirst
    cases hrest with
    | @cons _ w _ rest values hsecond hrest =>
      rw [hseen] at hsecond
      cases hsecond
      have hout := (List.nodup_cons.mp hnodup).1
      refine ⟨next :: rest, values, h.change rfl hnear Hand.near_pop ⟨value, .cons hseen hrest⟩
        ((List.mem_cons.mp htail).resolve_left hahead) ?_ ?_ ?_ ?_ (fun _ => nofun) ?_ ?_ ?_⟩
      · refine update_eq_iff (iff_of_false nofun (by simp [LinkedQueue.goTo, hnode])) fun a _ => ?_
        exact h.free a
      · refine update_eq_iff (iff_of_false nofun hout) fun a ha => ?_
        rw [hlinks, List.mem_cons, or_iff_right ha]
      · exact update_eq_iff (iff_of_false nofun nofun) fun a _ => iff_of_false (hmine a).1 nofun
      · refine update_eq_iff (iff_of_true rfl rfl) fun a ha => iff_of_false (hmine a).2 ?_
        exact fun hab => ha (Option.some.inj hab).symm
      · constructor
        · exact fun _ => nofun
        · rintro a ⟨⟩
          exact ⟨old, next, hnode⟩
        · exact fun _ _ => nofun
        · exact fun _ _ => nofun
        · exact fun _ => nofun
        · exact fun _ => nofun
        · trivial
      · intro j _
        refine ⟨⟨fun _ _ => rfl, ?_, ?_, ?_⟩, fun _ => .inr ⟨i, rfl⟩⟩
        · exact fun a _ v next hbefore => ⟨next, hbefore, fun _ => rfl⟩
        · intro a _ hafter
          refine ⟨List.mem_cons_of_mem _ hafter, ?_⟩
          rintro rfl
          exact absurd hafter hout
        · rintro a htop _ rfl
          -- no other thread takes for the head what only now has become it
          have hold := htop (List.mem_cons_of_mem _ List.mem_cons_self)
          exact absurd (hold ▸ List.mem_cons_self) hout
      · have hcalled : (s.place i).Fits s.heap (.called .pop) := by
          rw [hplace]
          rfl
        refine hexpl.effect hcalled (fits_of_ne fun _ _ _ _ => rfl) ?_ rfl
        rw [goTo_self]
        exact fun _ hphase => hphase

/-- `pop` deletes what it took off, while no other thread needs it. -/
theorem Coherent.delete (h : s.Coherent nodes values hand) {b : ℕ} {value : T}
    (hplace : s.place i = .popDelete b value) (hkeeps : ∀ j, j ≠ i → b ∉ (s.place j).holds) :
    ({ s with heap := Function.update s.heap b none }.goTo i (.popReturn (some value))).Coherent
      nodes values (Function.update hand b .free) := by
  have hmine : hand b = .pop i := (h.pop i b).mpr (by rw [hplace]; rfl)
  have hnear : (hand b).Near i := hmine ▸ Hand.near_pop
  have hgone : b ∉ nodes := h.not_mem (by rw [hmine]; nofun)
  have hheap : ∀ a, a ≠ b → Function.update s.heap b none a = s.heap a :=
    fun a ha => Function.update_of_ne ha _ _
  obtain ⟨dummy, hchain⟩ := h.chain
  refine h.change rfl hnear Hand.near_free ⟨dummy, hchain.update hgone _⟩ h.tail ?_ ?_ ?_ ?_
    (fun _ => nofun) (Knows.of_idle rfl rfl rfl trivial) ?_ ?_
  · refine update_eq_iff (iff_of_true rfl (Function.update_self ..)) fun a ha => ?_
    rw [h.free, ← hheap a ha]
    rfl
  · exact update_eq_iff (iff_of_false nofun hgone) fun a _ => h.linked a
  · refine update_eq_iff (iff_of_false nofun nofun) fun a _ => ?_
    rw [h.push, hplace]
    rfl
  · refine update_eq_iff (iff_of_false nofun nofun) fun a ha => ?_
    rw [h.pop, hplace]
    exact iff_of_false (fun hab => ha (Option.some.inj hab).symm) nofun
  · intro j hj
    refine ⟨⟨?_, ?_, ?_, ?_⟩, fun hb => absurd hb (hkeeps j hj)⟩
    · exact fun a ha => hheap a (h.ne_of_own hj hnear ha)
    · intro a ha v next hnode
      have hab : a ≠ b := by
        rintro rfl
        exact hkeeps j hj ha
      exact ⟨next, (hheap a hab).trans hnode, fun _ => rfl⟩
    · exact fun a _ hmem => ⟨hmem, id⟩
    · exact fun a _ hahead => hahead
  · apply h.explained.narrow
    intro j phase hfits
    by_cases hj : j = i
    · subst hj
      rw [goTo_self] at hfits
      rw [hplace]
      exact hfits
    · exact fits_of_ne (fun k hk a ha => hheap a (h.ne_of_own hk hnear (.inl ha))) j hj phase hfits

theorem Coherent.returns (h : s.Coherent nodes values hand) {answer : QueueAnswer T}
    (hdraft : (s.place i).draft = none) (htaken : (s.place i).taken = none)
    (hfits : (s.place i).Fits s.heap (.answered answer)) :
    (s.returns i answer).Coherent nodes values hand := by
  refine h.move rfl rfl rfl (.inl rfl) hdraft.symm htaken.symm (fun _ => nofun)
    (Knows.of_idle rfl rfl rfl trivial) ?_
  apply h.explained.returns hfits
  · exact fun j hj phase hphase => fits_of_ne (fun _ _ _ _ => rfl) j hj phase hphase
  · intro phase hphase
    simpa [LinkedQueue.returns, LinkedQueue.goTo, QueuePlace.Fits] using hphase

omit [DecidableEq ι] in
theorem Knows.of_push (hfresh : ∀ a, place.draft = some a → ∃ value, s.heap a = some ⟨value, none⟩)
    (hbehind : ∀ a next, place.behind = some (a, next) → ∃ value, s.heap a = some ⟨value, some next⟩)
    (htaken : place.taken = none) (hseen : place.seen = none) (htop : place.top = none)
    (hsound : place.Sound) : s.Knows nodes place where
  fresh := hfresh
  gone := fun a ha => by rw [htaken] at ha; cases ha
  behind := hbehind
  seen := fun a value ha => by rw [hseen] at ha; cases ha
  top := fun a ha => by rw [htop] at ha; cases ha
  ahead := fun a ha => by rw [QueuePlace.top_of_ahead ha] at htop; cases htop
  sound := hsound

omit [DecidableEq ι] in
theorem Knows.of_pop
    (hbehind : ∀ a next, place.behind = some (a, next) → ∃ value, s.heap a = some ⟨value, some next⟩)
    (htop : ∀ a, place.top = some a → a ∈ nodes → a = s.head)
    (hahead : ∀ a, place.ahead = some a → a = s.head → s.tail ≠ a) (hdraft : place.draft = none)
    (htaken : place.taken = none) (hseen : place.seen = none) (hsound : place.Sound) :
    s.Knows nodes place where
  fresh := fun a ha => by rw [hdraft] at ha; cases ha
  gone := fun a ha => by rw [htaken] at ha; cases ha
  behind := hbehind
  seen := fun a value ha => by rw [hseen] at ha; cases ha
  top := htop
  ahead := hahead
  sound := hsound

theorem Coherent.retryPush (h : s.Coherent nodes values hand) {node : ℕ} {s₁ : LinkedQueue ι T}
    (hs : s₁ = s ∨ ∃ tail ∈ nodes.tail, s₁ = { s with tail := tail })
    (hdraft : (s.place i).draft = some node) (htaken : (s.place i).taken = none)
    (hsame : ∀ phase, (QueuePlace.pushTail node).Fits s.heap phase → (s.place i).Fits s.heap phase) :
    (s₁.goTo i (.pushTail node)).Coherent nodes values hand := by
  refine h.goTo hs hdraft.symm htaken.symm (fun _ => nofun) ?_ hsame
  refine Knows.of_push ?_ (fun _ _ => nofun) rfl rfl rfl trivial
  rintro a ⟨⟩
  have hfresh := (h.knows i).fresh node hdraft
  rcases hs with rfl | ⟨tail, -, rfl⟩ <;> exact hfresh

theorem Coherent.retryPop (h : s.Coherent nodes values hand) {s₁ : LinkedQueue ι T}
    (hs : s₁ = s ∨ ∃ tail ∈ nodes.tail, s₁ = { s with tail := tail })
    (hdraft : (s.place i).draft = none) (htaken : (s.place i).taken = none)
    (hfits : (s.place i).Fits s.heap (.called .pop)) :
    (s₁.goTo i .popHead).Coherent nodes values hand := by
  refine h.goTo hs hdraft.symm htaken.symm (fun _ => nofun) (Knows.of_idle rfl rfl rfl trivial) ?_
  rintro phase rfl
  exact hfits

theorem Coherent.lookPush (h : s.Coherent nodes values hand) {node : ℕ}
    (hdraft : place.draft = some node) (hbefore : (s.place i).draft = some node)
    (htaken : place.taken = none) (htaken' : (s.place i).taken = none)
    (hholds : ∀ a ∈ place.holds, hand a = .linked ∨ ∃ j, hand a = .pop j)
    (hbehind : ∀ a next, place.behind = some (a, next) → ∃ value, s.heap a = some ⟨value, some next⟩)
    (hseen : place.seen = none) (htop : place.top = none) (hsound : place.Sound)
    (hsame : ∀ phase, place.Fits s.heap phase → (s.place i).Fits s.heap phase) :
    (s.goTo i place).Coherent nodes values hand := by
  refine h.goTo (.inl rfl) (hdraft.trans hbefore.symm) (htaken.trans htaken'.symm) hholds ?_ hsame
  refine Knows.of_push ?_ hbehind htaken hseen htop hsound
  intro a ha
  exact (h.knows i).fresh a (by rw [hbefore, ← hdraft, ha])

theorem Coherent.tail_linked (h : s.Coherent nodes values hand) :
    ∀ a ∈ [s.tail], hand a = .linked ∨ ∃ j, hand a = .pop j := by
  intro a ha
  obtain rfl := List.mem_singleton.mp ha
  exact .inl ((h.linked _).mpr h.tail)

theorem Coherent.advancePush (h : s.Coherent nodes values hand) (hstep : s.advance i = .ok s')
    (hplace : (∃ node, (s.place i).draft = some node) ∨ (∃ node tail, s.place i = .pushSwing node tail)) :
    ∃ nodes values hand, s'.Coherent nodes values hand := by
  unfold LinkedQueue.advance at hstep
  have hholds := h.held i
  have hbehind := (h.knows i).behind
  cases hi : s.place i with
  | pushTail node =>
    simp only [hi] at hstep
    obtain rfl := Except.ok.inj hstep
    refine ⟨_, _, _, h.lookPush rfl ?_ rfl ?_ h.tail_linked (fun _ _ => nofun) rfl rfl trivial ?_⟩ <;>
      rw [hi]
    · rfl
    · rfl
    · exact fun _ hphase => hphase
  | pushNext node tail =>
    rw [hi] at hholds
    simp only [hi] at hstep
    cases hnode : s.heap tail with
    | none => simp [hnode] at hstep
    | some found =>
      simp only [hnode] at hstep
      obtain rfl := Except.ok.inj hstep
      refine ⟨_, _, _, h.lookPush rfl ?_ rfl ?_ hholds ?_ rfl rfl trivial ?_⟩
      · rw [hi]
        rfl
      · rw [hi]
        rfl
      · intro a next ha
        obtain ⟨value, next'⟩ := found
        cases next' <;> cases ha
        exact ⟨value, hnode⟩
      · rw [hi]
        exact fun _ hphase => hphase
  | pushTest node tail next =>
    rw [hi] at hholds hbehind
    simp only [hi] at hstep
    split_ifs at hstep with htail
    · cases next with
      | none =>
        obtain rfl := Except.ok.inj hstep
        refine ⟨_, _, _, h.lookPush rfl ?_ rfl ?_ hholds (fun _ _ => nofun) rfl rfl trivial ?_⟩ <;>
          rw [hi]
        · rfl
        · rfl
        · exact fun _ hphase => hphase
      | some next =>
        obtain rfl := Except.ok.inj hstep
        refine ⟨_, _, _, h.lookPush rfl ?_ rfl ?_ hholds hbehind rfl rfl trivial ?_⟩ <;> rw [hi]
        · rfl
        · rfl
        · exact fun _ hphase => hphase
    · obtain rfl := Except.ok.inj hstep
      refine ⟨_, _, _, h.retryPush (.inl rfl) ?_ ?_ ?_⟩ <;> rw [hi]
      · rfl
      · rfl
      · exact fun _ hphase => hphase
  | pushLink node tail =>
    simp only [hi] at hstep
    cases hnode : s.heap tail with
    | none => simp [hnode] at hstep
    | some found =>
      obtain ⟨value, next⟩ := found
      cases next with
      | none =>
        simp only [hnode] at hstep
        obtain rfl := Except.ok.inj hstep
        obtain ⟨values, hcoherent⟩ := h.link hi hnode
        exact ⟨_, _, _, hcoherent⟩
      | some next =>
        simp only [hnode] at hstep
        obtain rfl := Except.ok.inj hstep
        refine ⟨_, _, _, h.retryPush (.inl rfl) ?_ ?_ ?_⟩ <;> rw [hi]
        · rfl
        · rfl
        · exact fun _ hphase => hphase
  | pushHelp node tail next =>
    simp only [hi] at hstep
    obtain rfl := Except.ok.inj hstep
    obtain ⟨value, hnode⟩ := hbehind tail next (by rw [hi]; rfl)
    refine ⟨_, _, _, h.retryPush (h.swing hnode) ?_ ?_ ?_⟩ <;> rw [hi]
    · rfl
    · rfl
    · exact fun _ hphase => hphase
  | pushSwing node tail =>
    simp only [hi] at hstep
    obtain rfl := Except.ok.inj hstep
    obtain ⟨value, hnode⟩ := hbehind tail node (by rw [hi]; rfl)
    refine ⟨_, _, _, h.goTo (h.swing hnode) ?_ ?_ (fun _ => nofun) (Knows.of_idle rfl rfl rfl trivial)
      ?_⟩ <;> rw [hi]
    · rfl
    · rfl
    · exact fun _ hphase => hphase
  | _ =>
    rw [hi] at hplace
    rcases hplace with ⟨node, hdraft⟩ | ⟨node, tail, hswing⟩
    · cases hdraft
    · cases hswing

theorem Coherent.lookPop (h : s.Coherent nodes values hand) (hdraft : place.draft = none)
    (hbefore : (s.place i).draft = none) (htaken : place.taken = none)
    (htaken' : (s.place i).taken = none)
    (hholds : ∀ a ∈ place.holds, hand a = .linked ∨ ∃ j, hand a = .pop j)
    (hbehind : ∀ a next, place.behind = some (a, next) → ∃ value, s.heap a = some ⟨value, some next⟩)
    (htop : ∀ a, place.top = some a → a ∈ nodes → a = s.head)
    (hahead : ∀ a, place.ahead = some a → a = s.head → s.tail ≠ a) (hseen : place.seen = none)
    (hsound : place.Sound)
    (hsame : ∀ phase, place.Fits s.heap phase → (s.place i).Fits s.heap phase) :
    (s.goTo i place).Coherent nodes values hand := by
  refine h.goTo (.inl rfl) (hdraft.trans hbefore.symm) (htaken.trans htaken'.symm) hholds ?_ hsame
  exact Knows.of_pop hbehind htop hahead hdraft htaken hseen hsound

theorem Coherent.readNext (h : s.Coherent nodes values hand) {head tail : ℕ} {found : Node T}
    (hi : s.place i = .popNext head tail) (hnode : s.heap head = some found) :
    (s.goTo i (.popTest head tail found.next)).Coherent nodes values hand := by
  have hholds := h.held i
  have htop := (h.knows i).top
  have hahead := (h.knows i).ahead
  rw [hi] at hholds htop hahead
  obtain ⟨value, next⟩ := found
  cases next with
  | some next =>
    refine h.lookPop rfl ?_ rfl ?_ hholds ?_ htop hahead rfl trivial ?_
    · rw [hi]
      rfl
    · rw [hi]
      rfl
    · rintro a next' ⟨⟩
      exact ⟨value, hnode⟩
    · rw [hi]
      exact fun _ hphase => hphase
  | none =>
    -- the queue is empty now, whether `pop` will say so or go round again
    obtain ⟨rfl, htail, rfl⟩ := h.empty_of_top (i := i) (by rw [hi]; rfl) hnode
    have hsound : s.head = tail := by
      by_contra hne
      exact hahead s.head (if_neg hne) rfl htail
    have hknows : s.Knows nodes (.popTest s.head tail none) :=
      Knows.of_pop (fun _ _ => nofun) htop hahead rfl rfl rfl hsound
    refine h.move rfl rfl rfl (.inl rfl) ?_ ?_ hholds ?_ ?_
    · rw [hi]
      rfl
    · rw [hi]
      rfl
    · exact hknows.congr rfl rfl rfl
    · refine h.explained.glance (c := .pop) (r := .popped none) ?_ (fits_of_ne fun _ _ _ _ => rfl) ?_ rfl
      · rw [hi]
        rfl
      · rw [goTo_self]
        exact fun _ hphase => hphase

theorem Coherent.testHead (h : s.Coherent nodes values hand) {head tail : ℕ} {next : Option ℕ}
    (hi : s.place i = .popTest head tail next) (hstep : s.advance i = .ok s') :
    s'.Coherent nodes values hand := by
  have hknows := h.knows i
  have hholds := h.held i
  rw [hi] at hknows hholds
  simp only [LinkedQueue.advance, hi] at hstep
  split_ifs at hstep with hhead htail
  · subst htail
    cases next with
    | none =>
      obtain rfl := Except.ok.inj hstep
      refine h.goTo (.inl rfl) ?_ ?_ (fun _ => nofun) (Knows.of_idle rfl rfl rfl trivial) ?_ <;> rw [hi]
      · rfl
      · rfl
      · exact fun _ hphase => .inr hphase
    | some next =>
      obtain rfl := Except.ok.inj hstep
      refine h.lookPop rfl ?_ rfl ?_ hholds hknows.behind (fun _ => nofun) (fun _ => nofun) rfl trivial
        ?_ <;> rw [hi]
      · rfl
      · rfl
      · exact fun _ hphase => hphase
  · obtain rfl := Except.ok.inj hstep
    cases next with
    | none => exact absurd hknows.sound htail
    | some next =>
      obtain ⟨value, hnode⟩ := hknows.behind head next rfl
      have hnext : next ∈ nodes := List.mem_of_mem_tail (h.next_mem (hhead ▸ h.head_mem) hnode)
      refine h.lookPop rfl ?_ rfl ?_ ?_ hknows.behind hknows.top ?_ rfl trivial ?_
      · rw [hi]
        rfl
      · rw [hi]
        rfl
      · intro a ha
        rcases List.mem_cons.mp ha with rfl | ha
        · exact hholds a (List.mem_singleton_self a)
        · obtain rfl := List.mem_singleton.mp ha
          exact .inl ((h.linked a).mpr hnext)
      · rintro a ⟨⟩
        exact hknows.ahead head (if_neg htail)
      · rw [hi]
        exact fun _ hphase => hphase
  · obtain rfl := Except.ok.inj hstep
    refine h.retryPop (.inl rfl) ?_ ?_ ?_ <;> rw [hi]
    · rfl
    · rfl
    · cases next
      · exact .inl rfl
      · rfl

theorem Coherent.readValue (h : s.Coherent nodes values hand) {head next : ℕ} {found : Node T}
    (hi : s.place i = .popValue head (some next)) (hnode : s.heap next = some found) :
    (s.goTo i (.popExchange head next found.value)).Coherent nodes values hand := by
  have hknows := h.knows i
  have hholds := h.held i
  rw [hi] at hknows hholds
  refine h.goTo (.inl rfl) ?_ ?_ hholds ?_ ?_
  · rw [hi]
    rfl
  · rw [hi]
    rfl
  · refine ⟨fun _ => nofun, fun _ => nofun, hknows.behind, ?_, hknows.top, hknows.ahead, trivial⟩
    rintro a value ⟨⟩
    exact ⟨found.next, hnode⟩
  · rw [hi]
    exact fun _ hphase => hphase

theorem Coherent.advance (h : s.Coherent nodes values hand) (hkeeps : s.KeepsHeld (.advance i))
    (hstep : s.advance i = .ok s') : ∃ nodes values hand, s'.Coherent nodes values hand := by
  have hstep' := hstep
  unfold LinkedQueue.advance at hstep
  cases hi : s.place i with
  | outside => simp [hi] at hstep
  | pushNew value => simp [hi] at hstep
  | pushTail node | pushNext node tail | pushTest node tail next | pushLink node tail
  | pushHelp node tail next => exact h.advancePush hstep' (.inl ⟨node, by rw [hi]; rfl⟩)
  | pushSwing node tail => exact h.advancePush hstep' (.inr ⟨node, tail, hi⟩)
  | pushReturn =>
    simp only [hi] at hstep
    obtain rfl := Except.ok.inj hstep
    refine ⟨_, _, _, h.returns ?_ ?_ ?_⟩ <;> rw [hi] <;> rfl
  | popHead =>
    simp only [hi] at hstep
    obtain rfl := Except.ok.inj hstep
    refine ⟨_, _, _, h.lookPop rfl ?_ rfl ?_ ?_ (fun _ _ => nofun) ?_ (fun _ => nofun) rfl trivial ?_⟩
    · rw [hi]
      rfl
    · rw [hi]
      rfl
    · intro a ha
      obtain rfl := List.mem_singleton.mp ha
      exact .inl ((h.linked _).mpr h.head_mem)
    · rintro a ⟨⟩ _
      rfl
    · rw [hi]
      exact fun _ hphase => hphase
  | popTail head =>
    have hknows := h.knows i
    have hholds := h.held i
    rw [hi] at hknows hholds
    simp only [hi] at hstep
    obtain rfl := Except.ok.inj hstep
    refine ⟨_, _, _, h.lookPop rfl ?_ rfl ?_ hholds (fun _ _ => nofun) hknows.top ?_ rfl trivial ?_⟩
    · rw [hi]
      rfl
    · rw [hi]
      rfl
    · intro a ha _ htail
      rw [QueuePlace.ahead] at ha
      split_ifs at ha with hne
      cases ha
      exact hne htail.symm
    · rw [hi]
      exact fun _ hphase => hphase
  | popNext head tail =>
    simp only [hi] at hstep
    cases hnode : s.heap head with
    | none => simp [hnode] at hstep
    | some found =>
      simp only [hnode] at hstep
      obtain rfl := Except.ok.inj hstep
      exact ⟨_, _, _, h.readNext hi hnode⟩
  | popTest head tail next => exact ⟨_, _, _, h.testHead hi hstep'⟩
  | popHelp tail next =>
    simp only [hi] at hstep
    obtain rfl := Except.ok.inj hstep
    obtain ⟨value, hnode⟩ := (h.knows i).behind tail next (by rw [hi]; rfl)
    refine ⟨_, _, _, h.retryPop (h.swing hnode) ?_ ?_ ?_⟩ <;> rw [hi] <;> rfl
  | popValue head next =>
    simp only [hi] at hstep
    cases next with
    | none => cases hstep
    | some next =>
      cases hnode : s.heap next with
      | none => simp [hnode] at hstep
      | some found =>
        simp only [hnode] at hstep
        obtain rfl := Except.ok.inj hstep
        exact ⟨_, _, _, h.readValue hi hnode⟩
  | popExchange head next value =>
    simp only [hi] at hstep
    split_ifs at hstep with hhead
    · obtain rfl := Except.ok.inj hstep
      obtain ⟨nodes, values, hcoherent⟩ := h.take hi hhead
      exact ⟨_, _, _, hcoherent⟩
    · obtain rfl := Except.ok.inj hstep
      refine ⟨_, _, _, h.retryPop (.inl rfl) ?_ ?_ ?_⟩ <;> rw [hi] <;> rfl
  | popDelete head value =>
    simp only [hi] at hstep
    cases hnode : s.heap head with
    | none => simp [hnode] at hstep
    | some node =>
      simp only [hnode] at hstep
      obtain rfl := Except.ok.inj hstep
      refine ⟨_, _, _, h.delete hi fun j hj => hkeeps j hj head ?_⟩
      rw [hi]
      rfl
  | popReturn value =>
    simp only [hi] at hstep
    obtain rfl := Except.ok.inj hstep
    refine ⟨_, _, _, h.returns ?_ ?_ ?_⟩ <;> rw [hi] <;> rfl

theorem Coherent.step {e : LinkedQueueEvent ι T} (h : s.Coherent nodes values hand)
    (hkeeps : s.KeepsHeld e) (hstep : s.step e = .ok s') :
    ∃ nodes values hand, s'.Coherent nodes values hand := by
  cases e with
  | calls i call =>
    simp only [LinkedQueue.step] at hstep
    cases hi : s.place i <;> simp only [hi] at hstep
    case outside =>
      obtain rfl := Except.ok.inj hstep
      refine ⟨nodes, values, hand, h.move rfl rfl rfl (.inl rfl) ?_ ?_ ?_ ?_ ?_⟩
      · rw [hi]
        cases call <;> rfl
      · rw [hi]
        cases call <;> rfl
      · cases call <;> exact fun _ => nofun
      · cases call <;> exact Knows.of_idle rfl rfl rfl trivial
      · refine h.explained.calls (c := call) ?_ (fits_of_ne fun _ _ _ _ => rfl) ?_
        · rw [hi]
          rfl
        · rw [goTo_self]
          cases call <;> exact fun _ hphase => hphase
    all_goals cases hstep
  | allocates i address =>
    simp only [LinkedQueue.step] at hstep
    cases hi : s.place i <;> simp only [hi] at hstep
    case pushNew value =>
      cases hnone : s.heap address <;> simp only [hnone] at hstep
      case none =>
        obtain rfl := Except.ok.inj hstep
        exact ⟨_, _, _, h.allocate hi hnone⟩
      case some node => cases hstep
    all_goals cases hstep
  | advance i => exact h.advance hkeeps hstep
  | fails i =>
    simp only [LinkedQueue.step] at hstep
    cases hi : s.place i <;> simp only [hi] at hstep
    case pushLink node tail | pushHelp node tail next =>
      obtain rfl := Except.ok.inj hstep
      refine ⟨_, _, _, h.retryPush (.inl rfl) ?_ ?_ ?_⟩ <;> rw [hi]
      · rfl
      · rfl
      · exact fun _ hphase => hphase
    case pushSwing node tail =>
      obtain rfl := Except.ok.inj hstep
      refine ⟨_, _, _, h.goTo (.inl rfl) ?_ ?_ (fun _ => nofun) (Knows.of_idle rfl rfl rfl trivial) ?_⟩ <;>
        rw [hi]
      · rfl
      · rfl
      · exact fun _ hphase => hphase
    case popHelp tail next | popExchange head next value =>
      obtain rfl := Except.ok.inj hstep
      refine ⟨_, _, _, h.retryPop (.inl rfl) ?_ ?_ ?_⟩ <;> rw [hi] <;> rfl
    all_goals cases hstep

theorem Coherent.exists_node (h : s.Coherent nodes values hand) {a : ℕ} (ha : hand a ≠ .free) :
    ∃ node, s.heap a = some node :=
  Option.ne_none_iff_exists'.mp fun hnone => ha ((h.free a).mpr hnone)

theorem Coherent.exists_held (h : s.Coherent nodes values hand) {a : ℕ} (ha : a ∈ (s.place i).holds) :
    ∃ node, s.heap a = some node := by
  apply h.exists_node
  rcases h.held i a ha with hlinked | ⟨j, hpop⟩
  · rw [hlinked]
    nofun
  · rw [hpop]
    nofun

/-- No step touches a node that is not there. -/
theorem Coherent.advance_ne_freed (h : s.Coherent nodes values hand) (i : ι) :
    s.advance i ≠ .error .freed := by
  intro hstep
  have hholds := fun a => h.exists_held (i := i) (a := a)
  have hknows := h.knows i
  unfold LinkedQueue.advance at hstep
  cases hi : s.place i <;> rw [hi] at hholds hknows <;> simp only [hi] at hstep
  case pushNext node tail =>
    obtain ⟨found, hnode⟩ := hholds tail (List.mem_singleton_self tail)
    simp [hnode] at hstep
  case pushLink node tail =>
    obtain ⟨⟨value, next⟩, hnode⟩ := hholds tail (List.mem_singleton_self tail)
    cases next <;> simp [hnode] at hstep
  case popNext head tail =>
    obtain ⟨found, hnode⟩ := hholds head (List.mem_singleton_self head)
    simp [hnode] at hstep
  case popValue head next =>
    cases next with
    | none => exact hknows.sound
    | some next =>
      obtain ⟨found, hnode⟩ := hholds next (by simp [QueuePlace.holds])
      simp [hnode] at hstep
  case popDelete head value =>
    obtain ⟨value, next, hnode⟩ := hknows.gone head rfl
    simp [hnode] at hstep
  case pushTest node tail next => cases next <;> split_ifs at hstep
  case popTest head tail next => cases next <;> split_ifs at hstep
  case popExchange => split_ifs at hstep
  all_goals cases hstep

theorem Coherent.exists_fits (h : s.Coherent nodes values hand) (i : ι) :
    ∃ phase, (s.place i).Fits s.heap phase := by
  have hfresh := (h.knows i).fresh
  cases hi : s.place i with
  | pushTail a | pushNext a tail | pushTest a tail next | pushLink a tail | pushHelp a tail next =>
    rw [hi] at hfresh
    obtain ⟨value, hnode⟩ := hfresh a rfl
    exact ⟨_, _, hnode, rfl⟩
  | popTest head tail next =>
    cases next with
    | none => exact ⟨_, .inl rfl⟩
    | some next => exact ⟨_, rfl⟩
  | _ => exact ⟨_, rfl⟩

omit [DecidableEq ι] in
/-- The destructor deletes the nodes of the queue, each once. -/
theorem destroy_of_chain {heap : ℕ → Option (Node T)} {head : Option ℕ} (h : Chain heap head nodes values)
    {fuel : ℕ} (hfuel : nodes.length ≤ fuel) :
    destroy heap fuel head = .ok fun a => if a ∈ nodes then none else heap a := by
  induction fuel generalizing heap head nodes values with
  | zero =>
    obtain rfl := List.length_eq_zero_iff.mp (Nat.le_zero.mp hfuel)
    cases h
    simp [destroy]
  | succ fuel ih =>
    cases h with
    | nil => simp [destroy]
    | @cons b value next nodes values hnode hrest =>
      have hnodup := (Chain.cons hnode hrest).nodup
      have hnext : next ≠ some b := by
        rintro rfl
        cases hrest
        simp at hnodup
      simp only [destroy, hnode, if_neg hnext]
      rw [ih (hrest.update (List.nodup_cons.mp hnodup).1 none) (Nat.le_of_succ_le_succ hfuel)]
      congr 1
      funext a
      by_cases ha : a = b
      · subst ha
        simp
      · simp [ha]

/-- The nodes that are left when no thread is in a call are those of the queue, and the destructor
deletes all of them. -/
theorem Coherent.destroy (h : s.Coherent nodes values hand) (hquiet : ∀ i, s.place i = .outside)
    {fuel : ℕ} (hfuel : nodes.length ≤ fuel) :
    LinkedQueue.destroy s.heap fuel (some s.head) = .ok fun _ => none := by
  obtain ⟨dummy, hchain⟩ := h.chain
  rw [destroy_of_chain hchain hfuel]
  congr 1
  funext a
  split_ifs with hmem
  · rfl
  · rw [← h.free]
    cases hhand : hand a with
    | free => rfl
    | linked => exact absurd ((h.linked a).mp hhand) hmem
    | push i =>
      have hdraft := (h.push i a).mp hhand
      rw [hquiet] at hdraft
      cases hdraft
    | pop i =>
      have htaken := (h.pop i a).mp hhand
      rw [hquiet] at htaken
      cases htaken

end Steps

variable [DecidableEq ι]

instance [Fintype ι] (s : LinkedQueue ι T) (e : LinkedQueueEvent ι T) : Decidable (s.KeepsHeld e) :=
  match e with
  | .advance i => inferInstanceAs (Decidable (∀ j, j ≠ i → ∀ a ∈ (s.place i).taken, a ∉ (s.place j).holds))
  | .calls _ _ | .allocates _ _ | .fails _ => isTrue trivial

/-- Whatever the threads do at the same time, as long as no node is deleted that another thread
still needs: what is seen of the queue can be seen of one whose calls take effect one after
another, no step touches a node that was deleted or never was, and once all calls have returned,
the destructor deletes every node that is left. -/
theorem linearizable_and_clean (node : ℕ) (value : T) (es : List (LinkedQueueEvent ι T))
    (s : LinkedQueue ι T) (hrun : RunWhere step KeepsHeld (init node value) es s) :
    Linearizable queueAnswer [] s.history ∧ (∀ i, s.advance i ≠ .error .freed) ∧
      ((∀ i, s.place i = .outside) →
        ∃ rounds, ∀ fuel, rounds ≤ fuel → destroy s.heap fuel (some s.head) = .ok fun _ => none) := by
  obtain ⟨nodes, values, hand, h⟩ : ∃ nodes values hand, s.Coherent nodes values hand := by
    apply hrun.invariant fun s => ∃ nodes values hand, s.Coherent nodes values hand
    · rintro s e t ⟨nodes, values, hand, h⟩ hkeeps hstep
      exact h.step hkeeps hstep
    · exact ⟨[node], [], _, coherent_init node value⟩
  refine ⟨h.explained.linearizable h.exists_fits, h.advance_ne_freed, ?_⟩
  exact fun hquiet => ⟨nodes.length, fun fuel hfuel => h.destroy hquiet hfuel⟩

/-- A `push` goes on while a `pop` that has found the old tail begins again. -/
theorem linearizable_and_clean_sample :
    ∃ (es : List (LinkedQueueEvent Bool ℕ)) (s : LinkedQueue Bool ℕ),
      RunWhere step KeepsHeld (init 0 0) es s ∧
      s.history = [.calls true (.push 7), .calls false .pop, .returns true .pushed,
        .returns false (.popped (some 7))] ∧
      Linearizable queueAnswer [] s.history ∧ (∀ i, s.advance i ≠ .error .freed) ∧
      (∀ i, s.place i = .outside) ∧
      ∃ rounds, ∀ fuel, rounds ≤ fuel → destroy s.heap fuel (some s.head) = .ok fun _ => none := by
  let es : List (LinkedQueueEvent Bool ℕ) :=
    [.calls true (.push 7), .allocates true 4, .advance true, .calls false .pop, .advance true,
      .advance false, .advance true, .advance false, .advance true, .advance false,
      .advance false, .advance false, .fails true, .advance true, .advance false, .advance false,
      .advance false, .advance false, .advance false, .advance false, .advance false, .advance false]
  obtain ⟨s, hrun, hstate⟩ := exists_run_of_any step KeepsHeld (init 0 0) es
    (fun s => decide (∀ i, (s.place i) matches .outside) && decide (s.history =
      [.calls true (.push 7), .calls false .pop, .returns true .pushed,
        .returns false (.popped (some 7))])) (by decide)
  obtain ⟨hplace, hhistory⟩ := (Bool.and_eq_true _ _).mp hstate
  have hquiet : ∀ i, s.place i = .outside := by
    intro i
    have hi := of_decide_eq_true hplace i
    cases hat : s.place i <;> simp_all
  obtain ⟨hlinearizable, hsafe, hclean⟩ := linearizable_and_clean 0 0 es s hrun
  exact ⟨es, s, hrun, of_decide_eq_true hhistory, hlinearizable, hsafe, hquiet, hclean hquiet⟩

/-- A `push` that is slow to look behind `tail` asks a node that a `pop` has deleted. -/
example : ([.calls true (.push 7), .allocates true 4, .advance true, .advance true, .advance true,
    .advance true, .calls false (.push 8), .allocates false 5, .advance false, .advance true, .advance true,
    .calls true .pop, .advance true, .advance true, .advance true, .advance true, .advance true,
    .advance true, .advance true, .advance false] : List (LinkedQueueEvent Bool ℕ)).foldlM
      step (init 0 0) = .error .freed :=
  rfl

end LinkedQueue
end Sese.Container
