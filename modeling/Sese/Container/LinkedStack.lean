import Sese.Foundation.LinkedCells
import Sese.Foundation.Runs
import Sese.Foundation.Threads

/-!
# The stack without locks

`sese::concurrent::LinkedStack` and the threads that use it. Every step of a thread is one atomic
operation or one access to a node, and a run is any interleaving of such steps. The allocator
gives any address that is not in use, so an address comes back after its node was deleted; a
step that needs a node which is not there is an error. `compare_exchange_weak` may fail for no
reason.

`pop` deletes what it took off while another `pop` may still look at it. `KeepsHeld` are the
runs in which that does not happen, and `Alone` those in which no two calls of `pop` overlap.
-/
namespace Sese.Container

open Foundation

universe u v
variable {ι : Type u} {T : Type v}

inductive StackCall (T : Type v)
  | push (value : T)
  | pop
  | empty

inductive StackAnswer (T : Type v)
  | pushed
  /-- `none` is the answer `false`, where `value` is left alone. -/
  | popped (value : Option T)
  | empty (answer : Bool)

/-- What a stack is for; its top comes first. -/
def stackAnswer : List T → StackCall T → StackAnswer T × List T
  | values, .push value => (.pushed, value :: values)
  | [], .pop => (.popped none, [])
  | value :: values, .pop => (.popped (some value), values)
  | values, .empty => (.empty values.isEmpty, values)

/-- Where a thread is, with what its local variables hold. -/
inductive StackPlace (T : Type v)
  | outside
  /-- `push`, before `new Node`. -/
  | pushNew (value : T)
  /-- Before `root.load()`. -/
  | pushLoad (newNode : ℕ)
  /-- Before `new_node->next.store(current_root)`. -/
  | pushStore (newNode : ℕ) (currentRoot : Option ℕ)
  /-- Before `root.compare_exchange_weak(current_root, new_node)`. -/
  | pushExchange (newNode : ℕ) (currentRoot : Option ℕ)
  | pushReturn
  /-- `pop`, before `root.load()`. -/
  | popLoad
  /-- Before `old_root->next.load()`. -/
  | popNext (oldRoot : ℕ)
  /-- Before `root.compare_exchange_weak(old_root, new_root)`. -/
  | popExchange (oldRoot : ℕ) (newRoot : Option ℕ)
  /-- Before `value = old_root->value`. -/
  | popValue (oldRoot : ℕ)
  /-- Before `delete old_root`. -/
  | popDelete (oldRoot : ℕ) (value : T)
  | popReturn (value : Option T)
  /-- `empty`, before `root.load()`. -/
  | emptyLoad
  | emptyReturn (answer : Bool)

/-- The stack, the memory, the threads, and what was seen of them so far. -/
structure LinkedStack (ι : Type u) (T : Type v) where
  root : Option ℕ := none
  heap : ℕ → Option (Node T) := fun _ => none
  place : ι → StackPlace T := fun _ => .outside
  history : List (Observation ι (StackCall T) (StackAnswer T)) := []

inductive StackEvent (ι : Type u) (T : Type v)
  | calls (i : ι) (call : StackCall T)
  /-- `new` gives an address. -/
  | allocates (i : ι) (address : ℕ)
  /-- The thread takes the next step of the call that it is in. -/
  | advance (i : ι)
  /-- `compare_exchange_weak` fails though it finds what it expects. -/
  | fails (i : ι)

/-- Why a step cannot be taken. -/
inductive LinkStop
  | elsewhere
  | freed
  deriving DecidableEq

namespace StackPlace

def start : StackCall T → StackPlace T
  | .push value => .pushNew value
  | .pop => .popLoad
  | .empty => .emptyLoad

/-- The node that `push` has not linked yet. -/
def draft : StackPlace T → Option ℕ
  | .pushLoad a | .pushStore a _ | .pushExchange a _ => some a
  | _ => none

/-- The node that `pop` has taken off and not deleted yet. -/
def taken : StackPlace T → Option ℕ
  | .popValue a | .popDelete a _ => some a
  | _ => none

/-- The node that `pop` has seen on top. -/
def held : StackPlace T → Option ℕ
  | .popNext a | .popExchange a _ => some a
  | _ => none

def deletes : StackPlace T → Option ℕ
  | .popDelete a _ => some a
  | _ => none

/-- The thread is in `pop`. -/
def Popping : StackPlace T → Prop
  | .popLoad | .popNext _ | .popExchange _ _ | .popValue _ | .popDelete _ _ | .popReturn _ => True
  | _ => False

def behind : StackPlace T → Option (ℕ × Option ℕ)
  | .pushExchange a next | .popExchange a next => some (a, next)
  | _ => none

end StackPlace

namespace LinkedStack

variable [DecidableEq ι]

def goTo (s : LinkedStack ι T) (i : ι) (place : StackPlace T) : LinkedStack ι T :=
  { s with place := Function.update s.place i place }

def returns (s : LinkedStack ι T) (i : ι) (answer : StackAnswer T) : LinkedStack ι T :=
  { s with history := s.history ++ [Observation.returns i answer] }.goTo i .outside

def advance (s : LinkedStack ι T) (i : ι) : Except LinkStop (LinkedStack ι T) :=
  match s.place i with
  | .outside | .pushNew _ => .error .elsewhere
  | .pushLoad newNode => .ok (s.goTo i (.pushStore newNode s.root))
  | .pushStore newNode currentRoot =>
    match s.heap newNode with
    | none => .error .freed
    | some node =>
      .ok ({ s with heap := Function.update s.heap newNode (some { node with next := currentRoot }) }.goTo
        i (.pushExchange newNode currentRoot))
  | .pushExchange newNode currentRoot =>
    if s.root = currentRoot then .ok ({ s with root := some newNode }.goTo i .pushReturn)
    else .ok (s.goTo i (.pushLoad newNode))
  | .pushReturn => .ok (s.returns i .pushed)
  | .popLoad =>
    match s.root with
    | none => .ok (s.goTo i (.popReturn none))
    | some oldRoot => .ok (s.goTo i (.popNext oldRoot))
  | .popNext oldRoot =>
    match s.heap oldRoot with
    | none => .error .freed
    | some node => .ok (s.goTo i (.popExchange oldRoot node.next))
  | .popExchange oldRoot newRoot =>
    if s.root = some oldRoot then .ok ({ s with root := newRoot }.goTo i (.popValue oldRoot))
    else .ok (s.goTo i .popLoad)
  | .popValue oldRoot =>
    match s.heap oldRoot with
    | none => .error .freed
    | some node => .ok (s.goTo i (.popDelete oldRoot node.value))
  | .popDelete oldRoot value =>
    match s.heap oldRoot with
    | none => .error .freed
    | some _ =>
      .ok ({ s with heap := Function.update s.heap oldRoot none }.goTo i (.popReturn (some value)))
  | .popReturn value => .ok (s.returns i (.popped value))
  | .emptyLoad => .ok (s.goTo i (.emptyReturn s.root.isNone))
  | .emptyReturn answer => .ok (s.returns i (.empty answer))

def step (s : LinkedStack ι T) : StackEvent ι T → Except LinkStop (LinkedStack ι T)
  | .calls i call =>
    match s.place i with
    | .outside =>
      .ok ({ s with history := s.history ++ [Observation.calls i call] }.goTo i (.start call))
    | _ => .error .elsewhere
  | .allocates i address =>
    match s.place i, s.heap address with
    | .pushNew value, none =>
      .ok ({ s with heap := Function.update s.heap address (some ⟨value, none⟩) }.goTo i
        (.pushLoad address))
    | _, _ => .error .elsewhere
  | .advance i => s.advance i
  | .fails i =>
    match s.place i with
    | .pushExchange newNode _ => .ok (s.goTo i (.pushLoad newNode))
    | .popExchange _ _ => .ok (s.goTo i .popLoad)
    | _ => .error .elsewhere

/-- The destructor, with as much fuel as it may go round. -/
def destroy (heap : ℕ → Option (Node T)) : ℕ → Option ℕ → Except LinkStop (ℕ → Option (Node T))
  | _, none => .ok heap
  | 0, some _ => .error .elsewhere
  | fuel + 1, some node =>
    match heap node with
    | none => .error .freed
    | some { next, .. } => destroy (Function.update heap node none) fuel next

end LinkedStack

/-- In whose hand an address is. -/
inductive Hand (ι : Type u)
  | free
  | linked
  /-- `push` of the thread has it, and has not linked it yet. -/
  | push (i : ι)
  /-- `pop` of the thread has taken it off. -/
  | pop (i : ι)

def Hand.Near (i : ι) (hand : Hand ι) : Prop := ∀ j, hand = .push j ∨ hand = .pop j → j = i

/-- How far the call of a thread is that is at a place. -/
def StackPlace.Fits (heap : ℕ → Option (Node T)) :
    StackPlace T → Phase (StackCall T) (StackAnswer T) → Prop
  | .outside, phase => phase = .idle
  | .pushNew value, phase => phase = .called (.push value)
  | .pushLoad a, phase | .pushStore a _, phase | .pushExchange a _, phase =>
    ∃ node, heap a = some node ∧ phase = .called (.push node.value)
  | .pushReturn, phase => phase = .answered .pushed
  | .popLoad, phase | .popNext _, phase | .popExchange _ _, phase => phase = .called .pop
  | .popValue a, phase => ∃ node, heap a = some node ∧ phase = .answered (.popped (some node.value))
  | .popDelete _ value, phase => phase = .answered (.popped (some value))
  | .popReturn value, phase => phase = .answered (.popped value)
  | .emptyLoad, phase => phase = .called .empty
  | .emptyReturn answer, phase => phase = .answered (.empty answer)

theorem StackPlace.Fits.congr {heap heap' : ℕ → Option (Node T)} {place : StackPlace T}
    {phase : Phase (StackCall T) (StackAnswer T)} (h : place.Fits heap' phase)
    (heq : ∀ a, place.draft = some a ∨ place.taken = some a → heap' a = heap a) :
    place.Fits heap phase := by
  cases place with
  | pushLoad a => rwa [Fits, ← heq a (.inl rfl)]
  | pushStore a next => rwa [Fits, ← heq a (.inl rfl)]
  | pushExchange a next => rwa [Fits, ← heq a (.inl rfl)]
  | popValue a => rwa [Fits, ← heq a (.inr rfl)]
  | _ => exact h

namespace Hand

variable {i : ι}

theorem near_free : (.free : Hand ι).Near i := by
  rintro j (h | h) <;> cases h

theorem near_linked : (.linked : Hand ι).Near i := by
  rintro j (h | h) <;> cases h

theorem near_push : (.push i : Hand ι).Near i := by
  rintro j (h | h) <;> cases h
  rfl

theorem near_pop : (.pop i : Hand ι).Near i := by
  rintro j (h | h) <;> cases h
  rfl

end Hand

namespace LinkedStack

/-- What holds between the steps: every address is in one hand, and the values along the chain
are what an atomic stack holds that has the same history. -/
structure Coherent [DecidableEq ι] (s : LinkedStack ι T) (nodes : List ℕ) (values : List T)
    (hand : ℕ → Hand ι) : Prop where
  chain : Chain s.heap s.root nodes values
  free : ∀ a, hand a = .free ↔ s.heap a = none
  linked : ∀ a, hand a = .linked ↔ a ∈ nodes
  push : ∀ i a, hand a = .push i ↔ (s.place i).draft = some a
  pop : ∀ i a, hand a = .pop i ↔ (s.place i).taken = some a
  held : ∀ i a, (s.place i).held = some a → hand a = .linked ∨ ∃ j, hand a = .pop j
  behind : ∀ i a next, (s.place i).behind = some (a, next) → ∃ value, s.heap a = some ⟨value, next⟩
  explained : Explained stackAnswer [] (fun i => (s.place i).Fits s.heap) s.history values

/-- No node is deleted while another `pop` still looks at it. -/
def KeepsHeld (s : LinkedStack ι T) : StackEvent ι T → Prop
  | .advance i => ∀ j, j ≠ i → ∀ a ∈ (s.place i).deletes, (s.place j).held ≠ some a
  | _ => True

/-- `pop` is called only while no other thread is in `pop`. -/
def Alone (s : LinkedStack ι T) : StackEvent ι T → Prop
  | .calls i .pop => ∀ j, j ≠ i → ¬ (s.place j).Popping
  | _ => True

section Steps

variable [DecidableEq ι] {s s' : LinkedStack ι T} {nodes nodes' : List ℕ} {values values' : List T}
  {hand : ℕ → Hand ι} {i : ι} {place : StackPlace T}

theorem coherent_init : ({} : LinkedStack ι T).Coherent [] [] fun _ => .free where
  chain := .nil
  free := fun _ => ⟨fun _ => rfl, fun _ => rfl⟩
  linked := fun _ => iff_of_false nofun List.not_mem_nil
  push := fun _ _ => iff_of_false nofun nofun
  pop := fun _ _ => iff_of_false nofun nofun
  held := fun _ _ => nofun
  behind := fun _ _ _ => nofun
  explained := by
    intro phase hphase
    obtain rfl : phase = fun _ => .idle := funext hphase
    exact .start

theorem Coherent.fits_of_ne (h : s.Coherent nodes values hand)
    (hplace : s'.place = Function.update s.place i place) {b : ℕ}
    (hheap : ∀ a, a ≠ b → s'.heap a = s.heap a) (hold : (hand b).Near i) (j : ι) (hj : j ≠ i)
    (phase : Phase (StackCall T) (StackAnswer T)) (hfits : (s'.place j).Fits s'.heap phase) :
    (s.place j).Fits s.heap phase := by
  rw [hplace, Function.update_of_ne hj] at hfits
  apply hfits.congr
  intro a ha
  apply hheap
  rintro rfl
  apply hj
  rcases ha with ha | ha
  · exact hold j (.inl ((h.push j a).mpr ha))
  · exact hold j (.inr ((h.pop j a).mpr ha))

theorem Coherent.move (h : s.Coherent nodes values hand)
    (hplace : s'.place = Function.update s.place i place) (hheap : s'.heap = s.heap)
    (hroot : s'.root = s.root) (hdraft : place.draft = (s.place i).draft)
    (htaken : place.taken = (s.place i).taken)
    (hheld : ∀ a, place.held = some a → hand a = .linked ∨ ∃ j, hand a = .pop j)
    (hbehind : ∀ a next, place.behind = some (a, next) → ∃ value, s.heap a = some ⟨value, next⟩)
    (hexpl : Explained stackAnswer [] (fun j => (s'.place j).Fits s'.heap) s'.history values) :
    s'.Coherent nodes values hand where
  chain := by
    rw [hheap, hroot]
    exact h.chain
  free := by
    rw [hheap]
    exact h.free
  linked := h.linked
  push := by
    intro j a
    rw [hplace, h.push]
    by_cases hj : j = i
    · subst hj
      rw [Function.update_self, hdraft]
    · rw [Function.update_of_ne hj]
  pop := by
    intro j a
    rw [hplace, h.pop]
    by_cases hj : j = i
    · subst hj
      rw [Function.update_self, htaken]
    · rw [Function.update_of_ne hj]
  held := by
    intro j a
    rw [hplace]
    by_cases hj : j = i
    · subst hj
      rw [Function.update_self]
      exact hheld a
    · rw [Function.update_of_ne hj]
      exact h.held j a
  behind := by
    intro j a next
    rw [hplace, hheap]
    by_cases hj : j = i
    · subst hj
      rw [Function.update_self]
      exact hbehind a next
    · rw [Function.update_of_ne hj]
      exact h.behind j a next
  explained := hexpl

theorem Coherent.change (h : s.Coherent nodes values hand) {b : ℕ} {new : Hand ι}
    (hplace : s'.place = Function.update s.place i place)
    (hheap : ∀ a, a ≠ b → s'.heap a = s.heap a) (hold : (hand b).Near i) (hnew : new.Near i)
    (hchain : Chain s'.heap s'.root nodes' values') (hfree : new = .free ↔ s'.heap b = none)
    (hlinked : ∀ a, Function.update hand b new a = .linked ↔ a ∈ nodes')
    (hpush : ∀ a, Function.update hand b new a = .push i ↔ place.draft = some a)
    (hpop : ∀ a, Function.update hand b new a = .pop i ↔ place.taken = some a)
    (hheld : place.held = none)
    (hbehind : ∀ a next, place.behind = some (a, next) → ∃ value, s'.heap a = some ⟨value, next⟩)
    (hothers : ∀ j, j ≠ i → (s.place j).held = some b →
      (new = .linked ∨ ∃ k, new = .pop k) ∧ s'.heap b = s.heap b)
    (hexpl : Explained stackAnswer [] (fun j => (s'.place j).Fits s'.heap) s'.history values') :
    s'.Coherent nodes' values' (Function.update hand b new) where
  chain := hchain
  free := by
    intro a
    by_cases ha : a = b
    · subst ha
      rw [Function.update_self]
      exact hfree
    · rw [Function.update_of_ne ha, hheap a ha]
      exact h.free a
  linked := hlinked
  push := by
    intro j a
    rw [hplace]
    by_cases hj : j = i
    · subst hj
      rw [Function.update_self]
      exact hpush a
    · rw [Function.update_of_ne hj, ← h.push]
      by_cases ha : a = b
      · subst ha
        rw [Function.update_self]
        exact ⟨fun hp => absurd (hnew j (.inl hp)) hj, fun hp => absurd (hold j (.inl hp)) hj⟩
      · rw [Function.update_of_ne ha]
  pop := by
    intro j a
    rw [hplace]
    by_cases hj : j = i
    · subst hj
      rw [Function.update_self]
      exact hpop a
    · rw [Function.update_of_ne hj, ← h.pop]
      by_cases ha : a = b
      · subst ha
        rw [Function.update_self]
        exact ⟨fun hp => absurd (hnew j (.inr hp)) hj, fun hp => absurd (hold j (.inr hp)) hj⟩
      · rw [Function.update_of_ne ha]
  held := by
    intro j a hja
    rw [hplace] at hja
    by_cases hj : j = i
    · subst hj
      rw [Function.update_self, hheld] at hja
      cases hja
    · rw [Function.update_of_ne hj] at hja
      by_cases ha : a = b
      · subst ha
        rw [Function.update_self]
        exact (hothers j hj hja).1
      · rw [Function.update_of_ne ha]
        exact h.held j a hja
  behind := by
    intro j a next hja
    rw [hplace] at hja
    by_cases hj : j = i
    · subst hj
      rw [Function.update_self] at hja
      exact hbehind a next hja
    · rw [Function.update_of_ne hj] at hja
      have hbefore := h.behind j a next hja
      by_cases ha : a = b
      · subst ha
        -- a node behind which another `push` knows what stands is in the hand of that thread
        have hheldj : (s.place j).held = some a := by
          cases hpj : s.place j <;> rw [hpj] at hja <;> cases hja
          · have hmine : hand a = .push j := (h.push j a).mpr (by rw [hpj]; rfl)
            exact absurd (hold j (.inl hmine)) hj
          · rfl
        rwa [(hothers j hj hheldj).2]
      · rwa [hheap a ha]
  explained := hexpl

theorem fits_goTo_of_ne {heap : ℕ → Option (Node T)} (j : ι) (hj : j ≠ i)
    (phase : Phase (StackCall T) (StackAnswer T)) (hfits : ((s.goTo i place).place j).Fits heap phase) :
    (s.place j).Fits heap phase := by
  simpa [LinkedStack.goTo, hj] using hfits

theorem goTo_self (s : LinkedStack ι T) (i : ι) (place : StackPlace T) :
    (s.goTo i place).place i = place := by
  simp [LinkedStack.goTo]

theorem Coherent.goTo (h : s.Coherent nodes values hand) (hdraft : place.draft = (s.place i).draft)
    (htaken : place.taken = (s.place i).taken)
    (hheld : ∀ a, place.held = some a → hand a = .linked ∨ ∃ j, hand a = .pop j)
    (hbehind : ∀ a next, place.behind = some (a, next) → ∃ value, s.heap a = some ⟨value, next⟩)
    (hsame : ∀ phase, place.Fits s.heap phase → (s.place i).Fits s.heap phase) :
    (s.goTo i place).Coherent nodes values hand := by
  refine h.move rfl rfl rfl hdraft htaken hheld hbehind ?_
  apply h.explained.narrow
  intro j phase hfits
  by_cases hj : j = i
  · subst hj
    rw [goTo_self] at hfits
    exact hsame phase hfits
  · exact fits_goTo_of_ne j hj phase hfits

theorem Coherent.returns (h : s.Coherent nodes values hand) {answer : StackAnswer T}
    (hdraft : (s.place i).draft = none) (htaken : (s.place i).taken = none)
    (hfits : (s.place i).Fits s.heap (.answered answer)) :
    (s.returns i answer).Coherent nodes values hand := by
  refine h.move rfl rfl rfl hdraft.symm htaken.symm (fun _ => nofun) (fun _ _ => nofun) ?_
  apply h.explained.returns hfits
  · exact fun j hj phase hphase => fits_goTo_of_ne j hj phase hphase
  · intro phase hphase
    simpa [LinkedStack.returns, LinkedStack.goTo, StackPlace.Fits] using hphase

theorem Coherent.look (h : s.Coherent nodes values hand) (call : StackCall T) {answer : StackAnswer T}
    (hdraft : place.draft = (s.place i).draft) (htaken : place.taken = (s.place i).taken)
    (hheld : place.held = none) (hbehind : place.behind = none)
    (hcalled : (s.place i).Fits s.heap (.called call))
    (hanswered : ∀ phase, place.Fits s.heap phase → phase = .answered answer)
    (hanswer : stackAnswer values call = (answer, values)) :
    (s.goTo i place).Coherent nodes values hand := by
  refine h.move rfl rfl rfl hdraft htaken ?_ ?_ ?_
  · rw [hheld]
    exact fun _ => nofun
  · rw [hbehind]
    exact fun _ _ => nofun
  · apply h.explained.effect hcalled fits_goTo_of_ne _ hanswer
    rw [goTo_self]
    exact hanswered

theorem Coherent.not_mem (h : s.Coherent nodes values hand) {a : ℕ} (ha : hand a ≠ .linked) :
    a ∉ nodes :=
  fun hmem => ha ((h.linked a).mpr hmem)

theorem Coherent.allocate (h : s.Coherent nodes values hand) {value : T} {b : ℕ}
    (hplace : s.place i = .pushNew value) (hnone : s.heap b = none) :
    ({ s with heap := Function.update s.heap b (some ⟨value, none⟩) }.goTo i (.pushLoad b)).Coherent
      nodes values (Function.update hand b (.push i)) := by
  have hfree : hand b = .free := (h.free b).mpr hnone
  have hnode : b ∉ nodes := h.not_mem (by rw [hfree]; nofun)
  have hmine : ∀ a, hand a ≠ .push i ∧ hand a ≠ .pop i := by
    intro a
    rw [Ne, Ne, h.push, h.pop, hplace]
    exact ⟨nofun, nofun⟩
  have hheap : ∀ a, a ≠ b → Function.update s.heap b (some ⟨value, none⟩) a = s.heap a :=
    fun a ha => Function.update_of_ne ha _ _
  refine h.change rfl hheap (hfree ▸ Hand.near_free) Hand.near_push (h.chain.update hnode _) ?_ ?_ ?_ ?_
    rfl (fun _ _ => nofun) ?_ ?_
  · exact iff_of_false nofun (by simp [LinkedStack.goTo])
  · exact update_eq_iff (iff_of_false nofun hnode) fun a _ => h.linked a
  · refine update_eq_iff (iff_of_true rfl rfl) fun a ha => iff_of_false (hmine a).1 ?_
    exact fun hab => ha (Option.some.inj hab).symm
  · exact update_eq_iff (iff_of_false nofun nofun) fun a _ => iff_of_false (hmine a).2 nofun
  · intro j _ hheld
    rcases h.held j b hheld with hb | ⟨k, hb⟩ <;> rw [hfree] at hb <;> cases hb
  · apply h.explained.narrow
    intro j phase hfits
    by_cases hj : j = i
    · subst hj
      rw [goTo_self] at hfits
      obtain ⟨node, hnew, rfl⟩ := hfits
      rw [hplace]
      obtain rfl : ⟨value, none⟩ = node := by simpa [LinkedStack.goTo] using hnew
      rfl
    · exact h.fits_of_ne rfl hheap (hfree ▸ Hand.near_free) j hj phase hfits

theorem Coherent.store (h : s.Coherent nodes values hand) {b : ℕ} {currentRoot : Option ℕ}
    {node : Node T} (hplace : s.place i = .pushStore b currentRoot) (hnode : s.heap b = some node) :
    ({ s with heap := Function.update s.heap b (some { node with next := currentRoot }) }.goTo i
      (.pushExchange b currentRoot)).Coherent nodes values (Function.update hand b (.push i)) := by
  have hmine : hand b = .push i := (h.push i b).mpr (by rw [hplace]; rfl)
  have hnew : b ∉ nodes := h.not_mem (by rw [hmine]; nofun)
  have hheap : ∀ a, a ≠ b →
      Function.update s.heap b (some { node with next := currentRoot }) a = s.heap a :=
    fun a ha => Function.update_of_ne ha _ _
  have hnear : (hand b).Near i := hmine ▸ Hand.near_push
  refine h.change rfl hheap hnear Hand.near_push (h.chain.update hnew _) ?_ ?_ ?_ ?_ rfl ?_ ?_ ?_
  · exact iff_of_false nofun (by simp [LinkedStack.goTo])
  · exact update_eq_iff (iff_of_false nofun hnew) fun a _ => h.linked a
  · refine update_eq_iff (iff_of_true rfl rfl) fun a _ => ?_
    rw [h.push, hplace]
    rfl
  · refine update_eq_iff (iff_of_false nofun nofun) fun a _ => ?_
    rw [h.pop, hplace]
    rfl
  · rintro a next ⟨⟩
    exact ⟨node.value, Function.update_self ..⟩
  · intro j _ hheld
    rcases h.held j b hheld with hb | ⟨k, hb⟩ <;> rw [hmine] at hb <;> cases hb
  · apply h.explained.narrow
    intro j phase hfits
    by_cases hj : j = i
    · subst hj
      rw [goTo_self] at hfits
      obtain ⟨node', hnode', rfl⟩ := hfits
      rw [hplace]
      obtain rfl : { node with next := currentRoot } = node' := by
        simpa [LinkedStack.goTo] using hnode'
      exact ⟨node, hnode, rfl⟩
    · exact h.fits_of_ne rfl hheap hnear j hj phase hfits

theorem Coherent.link (h : s.Coherent nodes values hand) {b : ℕ} {currentRoot : Option ℕ}
    (hplace : s.place i = .pushExchange b currentRoot) (hroot : s.root = currentRoot) :
    ∃ value, ({ s with root := some b }.goTo i .pushReturn).Coherent (b :: nodes) (value :: values)
      (Function.update hand b .linked) := by
  have hmine : hand b = .push i := (h.push i b).mpr (by rw [hplace]; rfl)
  have hnear : (hand b).Near i := hmine ▸ Hand.near_push
  obtain ⟨value, hnode⟩ := h.behind i b currentRoot (by rw [hplace]; rfl)
  refine ⟨value, h.change rfl (fun _ _ => rfl) hnear Hand.near_linked ?_ ?_ ?_ ?_ ?_ rfl
    (fun _ _ => nofun) ?_ ?_⟩
  · exact .cons hnode (hroot ▸ h.chain)
  · exact iff_of_false nofun (by simp [LinkedStack.goTo, hnode])
  · refine update_eq_iff (iff_of_true rfl List.mem_cons_self) fun a ha => ?_
    rw [h.linked, List.mem_cons, or_iff_right ha]
  · refine update_eq_iff (iff_of_false nofun nofun) fun a ha => ?_
    rw [h.push, hplace]
    exact iff_of_false (fun hab => ha (Option.some.inj hab).symm) nofun
  · refine update_eq_iff (iff_of_false nofun nofun) fun a _ => ?_
    rw [h.pop, hplace]
    rfl
  · exact fun _ _ _ => ⟨.inl rfl, rfl⟩
  · have hcalled : (s.place i).Fits s.heap (.called (.push value)) := by
      rw [hplace]
      exact ⟨_, hnode, rfl⟩
    refine h.explained.effect hcalled (h.fits_of_ne rfl (fun _ _ => rfl) hnear) ?_ rfl
    rw [goTo_self]
    exact fun _ hphase => hphase

theorem Coherent.take (h : s.Coherent nodes values hand) {b : ℕ} {newRoot : Option ℕ}
    (hplace : s.place i = .popExchange b newRoot) (hroot : s.root = some b) :
    ∃ nodes values, ({ s with root := newRoot }.goTo i (.popValue b)).Coherent nodes values
      (Function.update hand b (.pop i)) := by
  obtain ⟨value, hnode⟩ := h.behind i b newRoot (by rw [hplace]; rfl)
  have hchain := h.chain
  have hnodup := hchain.nodup
  rw [hroot] at hchain
  -- what `pop` knows to be behind the top is still there, for the node was not deleted
  cases hchain with
  | @cons _ value' next rest values hnode' hrest =>
    rw [hnode] at hnode'
    cases hnode'
    have hlinked : hand b = .linked := (h.linked b).mpr List.mem_cons_self
    have hnear : (hand b).Near i := hlinked ▸ Hand.near_linked
    have hmine : ∀ a, hand a ≠ .push i ∧ hand a ≠ .pop i := by
      intro a
      rw [Ne, Ne, h.push, h.pop, hplace]
      exact ⟨nofun, nofun⟩
    refine ⟨rest, values, h.change rfl (fun _ _ => rfl) hnear Hand.near_pop hrest ?_ ?_ ?_ ?_ rfl
      (fun _ _ => nofun) ?_ ?_⟩
    · exact iff_of_false nofun (by simp [LinkedStack.goTo, hnode])
    · refine update_eq_iff (iff_of_false nofun (List.nodup_cons.mp hnodup).1) fun a ha => ?_
      rw [h.linked, List.mem_cons, or_iff_right ha]
    · exact update_eq_iff (iff_of_false nofun nofun) fun a _ => iff_of_false (hmine a).1 nofun
    · refine update_eq_iff (iff_of_true rfl rfl) fun a ha => iff_of_false (hmine a).2 ?_
      exact fun hab => ha (Option.some.inj hab).symm
    · exact fun _ _ _ => ⟨.inr ⟨i, rfl⟩, rfl⟩
    · have hcalled : (s.place i).Fits s.heap (.called .pop) := by
        rw [hplace]
        rfl
      refine h.explained.effect hcalled (h.fits_of_ne rfl (fun _ _ => rfl) hnear) ?_ rfl
      rw [goTo_self]
      rintro phase ⟨node, hnode', rfl⟩
      obtain rfl := Option.some.inj (hnode.symm.trans hnode')
      rfl

/-- `pop` deletes what it took off, while no other thread holds it. -/
theorem Coherent.delete (h : s.Coherent nodes values hand) {b : ℕ} {value : T}
    (hplace : s.place i = .popDelete b value) (hkeeps : ∀ j, j ≠ i → (s.place j).held ≠ some b) :
    ({ s with heap := Function.update s.heap b none }.goTo i (.popReturn (some value))).Coherent
      nodes values (Function.update hand b .free) := by
  have hmine : hand b = .pop i := (h.pop i b).mpr (by rw [hplace]; rfl)
  have hnear : (hand b).Near i := hmine ▸ Hand.near_pop
  have hnode : b ∉ nodes := h.not_mem (by rw [hmine]; nofun)
  have hheap : ∀ a, a ≠ b → Function.update s.heap b none a = s.heap a :=
    fun a ha => Function.update_of_ne ha _ _
  refine h.change rfl hheap hnear Hand.near_free (h.chain.update hnode _) ?_ ?_ ?_ ?_ rfl
    (fun _ _ => nofun) ?_ ?_
  · exact iff_of_true rfl (Function.update_self ..)
  · exact update_eq_iff (iff_of_false nofun hnode) fun a _ => h.linked a
  · refine update_eq_iff (iff_of_false nofun nofun) fun a _ => ?_
    rw [h.push, hplace]
    rfl
  · refine update_eq_iff (iff_of_false nofun nofun) fun a ha => ?_
    rw [h.pop, hplace]
    exact iff_of_false (fun hab => ha (Option.some.inj hab).symm) nofun
  · exact fun j hj hheld => absurd hheld (hkeeps j hj)
  · apply h.explained.narrow
    intro j phase hfits
    by_cases hj : j = i
    · subst hj
      rw [goTo_self] at hfits
      rw [hplace]
      exact hfits
    · exact h.fits_of_ne rfl hheap hnear j hj phase hfits

theorem Coherent.retryPush (h : s.Coherent nodes values hand) {newNode : ℕ} {currentRoot : Option ℕ}
    (hplace : s.place i = .pushExchange newNode currentRoot) :
    (s.goTo i (.pushLoad newNode)).Coherent nodes values hand := by
  refine h.goTo ?_ ?_ (fun _ => nofun) (fun _ _ => nofun) ?_ <;> rw [hplace]
  · rfl
  · rfl
  · exact fun _ hphase => hphase

theorem Coherent.retryPop (h : s.Coherent nodes values hand) {oldRoot : ℕ} {newRoot : Option ℕ}
    (hplace : s.place i = .popExchange oldRoot newRoot) :
    (s.goTo i .popLoad).Coherent nodes values hand := by
  refine h.goTo ?_ ?_ (fun _ => nofun) (fun _ _ => nofun) ?_ <;> rw [hplace]
  · rfl
  · rfl
  · exact fun _ hphase => hphase

theorem Coherent.advance (h : s.Coherent nodes values hand) (hkeeps : s.KeepsHeld (.advance i))
    (hstep : s.advance i = .ok s') : ∃ nodes values hand, s'.Coherent nodes values hand := by
  unfold LinkedStack.advance at hstep
  cases hplace : s.place i with
  | outside => simp [hplace] at hstep
  | pushNew value => simp [hplace] at hstep
  | pushLoad newNode =>
    simp only [hplace] at hstep
    obtain rfl := Except.ok.inj hstep
    refine ⟨nodes, values, hand, h.goTo ?_ ?_ (fun _ => nofun) (fun _ _ => nofun) ?_⟩ <;> rw [hplace]
    · rfl
    · rfl
    · exact fun _ hphase => hphase
  | pushStore newNode currentRoot =>
    simp only [hplace] at hstep
    cases hnode : s.heap newNode with
    | none => simp [hnode] at hstep
    | some node =>
      simp only [hnode] at hstep
      obtain rfl := Except.ok.inj hstep
      exact ⟨_, _, _, h.store hplace hnode⟩
  | pushExchange newNode currentRoot =>
    simp only [hplace] at hstep
    split_ifs at hstep with hroot
    · obtain rfl := Except.ok.inj hstep
      obtain ⟨value, hcoherent⟩ := h.link hplace hroot
      exact ⟨_, _, _, hcoherent⟩
    · obtain rfl := Except.ok.inj hstep
      exact ⟨_, _, _, h.retryPush hplace⟩
  | pushReturn =>
    simp only [hplace] at hstep
    obtain rfl := Except.ok.inj hstep
    refine ⟨_, _, _, h.returns ?_ ?_ ?_⟩ <;> rw [hplace] <;> rfl
  | popLoad =>
    simp only [hplace] at hstep
    cases hroot : s.root with
    | none =>
      simp only [hroot] at hstep
      obtain rfl := Except.ok.inj hstep
      have hchain := h.chain
      rw [hroot] at hchain
      cases hchain
      refine ⟨_, _, _, h.look .pop ?_ ?_ rfl rfl ?_ (fun _ hphase => hphase) rfl⟩ <;>
        rw [hplace] <;> rfl
    | some oldRoot =>
      simp only [hroot] at hstep
      obtain rfl := Except.ok.inj hstep
      refine ⟨nodes, values, hand, h.goTo ?_ ?_ ?_ (fun _ _ => nofun) ?_⟩
      · rw [hplace]
        rfl
      · rw [hplace]
        rfl
      · rintro a ⟨⟩
        have hchain := h.chain
        rw [hroot] at hchain
        cases hchain
        exact .inl ((h.linked _).mpr List.mem_cons_self)
      · rw [hplace]
        exact fun _ hphase => hphase
  | popNext oldRoot =>
    simp only [hplace] at hstep
    cases hnode : s.heap oldRoot with
    | none => simp [hnode] at hstep
    | some node =>
      simp only [hnode] at hstep
      obtain rfl := Except.ok.inj hstep
      refine ⟨nodes, values, hand, h.goTo ?_ ?_ ?_ ?_ ?_⟩
      · rw [hplace]
        rfl
      · rw [hplace]
        rfl
      · rintro a ⟨⟩
        exact h.held i oldRoot (by rw [hplace]; rfl)
      · rintro a next ⟨⟩
        exact ⟨_, hnode⟩
      · rw [hplace]
        exact fun _ hphase => hphase
  | popExchange oldRoot newRoot =>
    simp only [hplace] at hstep
    split_ifs at hstep with hroot
    · obtain rfl := Except.ok.inj hstep
      obtain ⟨nodes, values, hcoherent⟩ := h.take hplace hroot
      exact ⟨_, _, _, hcoherent⟩
    · obtain rfl := Except.ok.inj hstep
      exact ⟨_, _, _, h.retryPop hplace⟩
  | popValue oldRoot =>
    simp only [hplace] at hstep
    cases hnode : s.heap oldRoot with
    | none => simp [hnode] at hstep
    | some node =>
      simp only [hnode] at hstep
      obtain rfl := Except.ok.inj hstep
      refine ⟨nodes, values, hand, h.goTo ?_ ?_ (fun _ => nofun) (fun _ _ => nofun) ?_⟩ <;> rw [hplace]
      · rfl
      · rfl
      · exact fun _ hphase => ⟨node, hnode, hphase⟩
  | popDelete oldRoot value =>
    simp only [hplace] at hstep
    cases hnode : s.heap oldRoot with
    | none => simp [hnode] at hstep
    | some node =>
      simp only [hnode] at hstep
      obtain rfl := Except.ok.inj hstep
      refine ⟨_, _, _, h.delete hplace fun j hj => hkeeps j hj oldRoot ?_⟩
      rw [hplace]
      rfl
  | popReturn value =>
    simp only [hplace] at hstep
    obtain rfl := Except.ok.inj hstep
    refine ⟨_, _, _, h.returns ?_ ?_ ?_⟩ <;> rw [hplace] <;> rfl
  | emptyLoad =>
    simp only [hplace] at hstep
    obtain rfl := Except.ok.inj hstep
    refine ⟨_, _, _, h.look .empty ?_ ?_ rfl rfl ?_ (fun _ hphase => hphase) ?_⟩
    · rw [hplace]
      rfl
    · rw [hplace]
      rfl
    · rw [hplace]
      rfl
    · rw [h.chain.isNone_eq_isEmpty]
      rfl
  | emptyReturn answer =>
    simp only [hplace] at hstep
    obtain rfl := Except.ok.inj hstep
    refine ⟨_, _, _, h.returns ?_ ?_ ?_⟩ <;> rw [hplace] <;> rfl

theorem Coherent.step {e : StackEvent ι T} (h : s.Coherent nodes values hand) (hkeeps : s.KeepsHeld e)
    (hstep : s.step e = .ok s') : ∃ nodes values hand, s'.Coherent nodes values hand := by
  cases e with
  | calls i call =>
    simp only [LinkedStack.step] at hstep
    cases hplace : s.place i <;> simp only [hplace] at hstep
    case outside =>
      obtain rfl := Except.ok.inj hstep
      refine ⟨nodes, values, hand, h.move rfl rfl rfl ?_ ?_ ?_ ?_ ?_⟩
      · rw [hplace]
        cases call <;> rfl
      · rw [hplace]
        cases call <;> rfl
      · cases call <;> exact fun _ => nofun
      · cases call <;> exact fun _ _ => nofun
      · refine h.explained.calls (c := call) ?_ fits_goTo_of_ne ?_
        · rw [hplace]
          rfl
        · rw [goTo_self]
          cases call <;> exact fun _ hphase => hphase
    all_goals cases hstep
  | allocates i address =>
    simp only [LinkedStack.step] at hstep
    cases hplace : s.place i <;> simp only [hplace] at hstep
    case pushNew value =>
      cases hnone : s.heap address <;> simp only [hnone] at hstep
      case none =>
        obtain rfl := Except.ok.inj hstep
        exact ⟨_, _, _, h.allocate hplace hnone⟩
      case some node => cases hstep
    all_goals cases hstep
  | advance i => exact h.advance hkeeps hstep
  | fails i =>
    simp only [LinkedStack.step] at hstep
    cases hplace : s.place i <;> simp only [hplace] at hstep
    case pushExchange newNode currentRoot =>
      obtain rfl := Except.ok.inj hstep
      exact ⟨_, _, _, h.retryPush hplace⟩
    case popExchange oldRoot newRoot =>
      obtain rfl := Except.ok.inj hstep
      exact ⟨_, _, _, h.retryPop hplace⟩
    all_goals cases hstep

theorem Coherent.exists_node (h : s.Coherent nodes values hand) {a : ℕ} (ha : hand a ≠ .free) :
    ∃ node, s.heap a = some node :=
  Option.ne_none_iff_exists'.mp fun hnone => ha ((h.free a).mpr hnone)

theorem Coherent.exists_draft (h : s.Coherent nodes values hand) {a : ℕ}
    (ha : (s.place i).draft = some a) : ∃ node, s.heap a = some node :=
  h.exists_node (by rw [(h.push i a).mpr ha]; nofun)

theorem Coherent.exists_taken (h : s.Coherent nodes values hand) {a : ℕ}
    (ha : (s.place i).taken = some a) : ∃ node, s.heap a = some node :=
  h.exists_node (by rw [(h.pop i a).mpr ha]; nofun)

theorem Coherent.exists_held (h : s.Coherent nodes values hand) {a : ℕ}
    (ha : (s.place i).held = some a) : ∃ node, s.heap a = some node := by
  apply h.exists_node
  rcases h.held i a ha with hlinked | ⟨j, hpop⟩
  · rw [hlinked]
    nofun
  · rw [hpop]
    nofun

/-- No step touches a node that is not there. -/
theorem Coherent.advance_ne_freed (h : s.Coherent nodes values hand) (i : ι) :
    s.advance i ≠ .error .freed := by
  intro hstep
  unfold LinkedStack.advance at hstep
  cases hplace : s.place i <;> simp only [hplace] at hstep
  case pushStore newNode currentRoot =>
    obtain ⟨node, hnode⟩ := h.exists_draft (i := i) (a := newNode) (by rw [hplace]; rfl)
    simp [hnode] at hstep
  case popNext oldRoot =>
    obtain ⟨node, hnode⟩ := h.exists_held (i := i) (a := oldRoot) (by rw [hplace]; rfl)
    simp [hnode] at hstep
  case popValue oldRoot =>
    obtain ⟨node, hnode⟩ := h.exists_taken (i := i) (a := oldRoot) (by rw [hplace]; rfl)
    simp [hnode] at hstep
  case popDelete oldRoot value =>
    obtain ⟨node, hnode⟩ := h.exists_taken (i := i) (a := oldRoot) (by rw [hplace]; rfl)
    simp [hnode] at hstep
  case pushExchange => split_ifs at hstep
  case popLoad => cases hroot : s.root <;> simp [hroot] at hstep
  case popExchange => split_ifs at hstep
  all_goals cases hstep

theorem Coherent.exists_fits (h : s.Coherent nodes values hand) (i : ι) :
    ∃ phase, (s.place i).Fits s.heap phase := by
  cases hplace : s.place i with
  | pushLoad a | pushStore a next | pushExchange a next =>
    obtain ⟨node, hnode⟩ := h.exists_draft (i := i) (a := a) (by rw [hplace]; rfl)
    exact ⟨_, node, hnode, rfl⟩
  | popValue a =>
    obtain ⟨node, hnode⟩ := h.exists_taken (i := i) (a := a) (by rw [hplace]; rfl)
    exact ⟨_, node, hnode, rfl⟩
  | _ => exact ⟨_, rfl⟩

end Steps

variable [DecidableEq ι]

theorem exists_coherent {es : List (StackEvent ι T)} {s : LinkedStack ι T}
    (hrun : RunWhere step KeepsHeld {} es s) : ∃ nodes values hand, s.Coherent nodes values hand := by
  apply hrun.invariant fun s => ∃ nodes values hand, s.Coherent nodes values hand
  · rintro s e t ⟨nodes, values, hand, h⟩ hkeeps hstep
    exact h.step hkeeps hstep
  · exact ⟨[], [], _, coherent_init⟩

instance [Fintype ι] (s : LinkedStack ι T) (e : StackEvent ι T) : Decidable (s.KeepsHeld e) :=
  match e with
  | .advance i =>
    inferInstanceAs (Decidable (∀ j, j ≠ i → ∀ a ∈ (s.place i).deletes, (s.place j).held ≠ some a))
  | .calls _ _ | .allocates _ _ | .fails _ => isTrue trivial

/-- Whatever the threads do at the same time, as long as no node is deleted under another `pop`:
what is seen of the stack can be seen of one whose calls take effect one after another, and no
step touches a node that was deleted. -/
theorem linearizable_and_safe (es : List (StackEvent ι T)) (s : LinkedStack ι T)
    (hrun : RunWhere step KeepsHeld {} es s) :
    Linearizable stackAnswer [] s.history ∧ ∀ i, s.advance i ≠ .error .freed := by
  obtain ⟨nodes, values, hand, h⟩ := exists_coherent hrun
  exact ⟨h.explained.linearizable h.exists_fits, h.advance_ne_freed⟩

theorem linearizable_and_safe_sample :
    ∃ s, RunWhere step KeepsHeld ({} : LinkedStack Bool ℕ)
        [.calls true (.push 7), .allocates true 4, .advance true, .calls false .pop, .advance true,
          .fails true, .advance true, .advance true, .advance true, .advance false, .advance true] s ∧
      Linearizable stackAnswer [] s.history ∧ ∀ i, s.advance i ≠ .error .freed := by
  obtain ⟨s, hrun, -⟩ := exists_run_of_any step KeepsHeld ({} : LinkedStack Bool ℕ)
    [.calls true (.push 7), .allocates true 4, .advance true, .calls false .pop, .advance true,
      .fails true, .advance true, .advance true, .advance true, .advance false, .advance true]
    (fun s => s.root == some 4) (by decide)
  exact ⟨s, hrun, linearizable_and_safe _ s hrun⟩

/-- Two calls of `pop` that see the same top: the slower one asks a deleted node what is behind it. -/
example : ([.calls true (.push 7), .allocates true 4, .advance true, .advance true, .advance true,
    .advance true, .calls true .pop, .calls false .pop, .advance true, .advance false, .advance true,
    .advance true, .advance true, .advance true, .advance false] : List (StackEvent Bool ℕ)).foldlM
      step {} = .error .freed :=
  rfl

/-- At most one thread is in `pop`. -/
def OnePops (s : LinkedStack ι T) : Prop :=
  ∀ i j, (s.place i).Popping → (s.place j).Popping → i = j

theorem advance_place {s s' : LinkedStack ι T} {i : ι} (hstep : s.advance i = .ok s') :
    ∃ place, s'.place = Function.update s.place i place ∧ (place.Popping → (s.place i).Popping) := by
  unfold advance at hstep
  cases hplace : s.place i <;> simp only [hplace] at hstep
  case pushStore newNode currentRoot =>
    cases hnode : s.heap newNode <;> simp only [hnode] at hstep
    · cases hstep
    · obtain rfl := Except.ok.inj hstep
      exact ⟨_, rfl, id⟩
  case pushExchange =>
    split_ifs at hstep <;> obtain rfl := Except.ok.inj hstep <;> exact ⟨_, rfl, id⟩
  case popLoad =>
    cases hroot : s.root <;> simp only [hroot] at hstep <;> obtain rfl := Except.ok.inj hstep <;>
      exact ⟨_, rfl, id⟩
  case popExchange =>
    split_ifs at hstep <;> obtain rfl := Except.ok.inj hstep <;> exact ⟨_, rfl, id⟩
  case popNext oldRoot | popValue oldRoot | popDelete oldRoot _ =>
    cases hnode : s.heap oldRoot <;> simp only [hnode] at hstep
    · cases hstep
    · obtain rfl := Except.ok.inj hstep
      exact ⟨_, rfl, id⟩
  case outside => cases hstep
  case pushNew => cases hstep
  all_goals
    obtain rfl := Except.ok.inj hstep
    exact ⟨_, rfl, fun h => by trivial⟩

theorem OnePops.move {s s' : LinkedStack ι T} {i : ι} {place : StackPlace T} (h : s.OnePops)
    (hplace : s'.place = Function.update s.place i place)
    (hpopping : place.Popping → ∀ j, j ≠ i → ¬ (s.place j).Popping) : s'.OnePops := by
  intro j k hj hk
  rw [hplace] at hj hk
  by_cases hji : j = i
  · subst hji
    by_contra hjk
    rw [Function.update_self] at hj
    rw [Function.update_of_ne (Ne.symm hjk)] at hk
    exact hpopping hj k (Ne.symm hjk) hk
  · rw [Function.update_of_ne hji] at hj
    by_cases hki : k = i
    · subst hki
      rw [Function.update_self] at hk
      exact absurd hj (hpopping hk j hji)
    · rw [Function.update_of_ne hki] at hk
      exact h j k hj hk

theorem OnePops.step {s s' : LinkedStack ι T} {e : StackEvent ι T} (h : s.OnePops) (halone : s.Alone e)
    (hstep : s.step e = .ok s') : s'.OnePops := by
  cases e with
  | calls i call =>
    simp only [LinkedStack.step] at hstep
    cases hplace : s.place i <;> simp only [hplace] at hstep
    case outside =>
      obtain rfl := Except.ok.inj hstep
      apply h.move rfl
      cases call with
      | pop => exact fun _ => halone
      | push value => exact False.elim
      | empty => exact False.elim
    all_goals cases hstep
  | allocates i address =>
    simp only [LinkedStack.step] at hstep
    cases hplace : s.place i <;> simp only [hplace] at hstep
    case pushNew value =>
      cases hnone : s.heap address <;> simp only [hnone] at hstep
      · obtain rfl := Except.ok.inj hstep
        exact h.move rfl False.elim
      · cases hstep
    all_goals cases hstep
  | advance i =>
    obtain ⟨place, hplace, hpopping⟩ := advance_place hstep
    apply h.move hplace
    intro hpop j hj hother
    exact hj (h j i hother (hpopping hpop))
  | fails i =>
    simp only [LinkedStack.step] at hstep
    cases hplace : s.place i <;> simp only [hplace] at hstep
    case pushExchange newNode currentRoot =>
      obtain rfl := Except.ok.inj hstep
      exact h.move rfl False.elim
    case popExchange oldRoot newRoot =>
      obtain rfl := Except.ok.inj hstep
      apply h.move rfl
      intro _ j hj hother
      exact hj (h j i hother (by rw [hplace]; trivial))
    all_goals cases hstep

omit [DecidableEq ι] in
/-- While only one thread is in `pop`, no other one holds the node that it deletes. -/
theorem OnePops.keepsHeld {s : LinkedStack ι T} (h : s.OnePops) (e : StackEvent ι T) : s.KeepsHeld e := by
  cases e with
  | advance i =>
    intro j hj a hdeletes hheld
    apply hj
    apply h j i
    · cases hplace : s.place j <;> rw [hplace] at hheld <;> trivial
    · cases hplace : s.place i <;> rw [hplace] at hdeletes <;> trivial
  | _ => trivial

theorem keepsHeld_of_alone {es : List (StackEvent ι T)} {s : LinkedStack ι T}
    (hrun : RunWhere step Alone {} es s) : RunWhere step KeepsHeld {} es s := by
  apply hrun.strengthen OnePops (fun _ _ _ h halone hstep => h.step halone hstep)
    fun _ e h _ => h.keepsHeld e
  intro _ _ h
  cases h

omit [DecidableEq ι] in
/-- The destructor deletes the nodes of the stack, each once. -/
theorem destroy_of_chain {heap : ℕ → Option (Node T)} {root : Option ℕ} {nodes : List ℕ}
    {values : List T} (h : Chain heap root nodes values) {fuel : ℕ} (hfuel : nodes.length ≤ fuel) :
    destroy heap fuel root = .ok fun a => if a ∈ nodes then none else heap a := by
  induction fuel generalizing heap root nodes values with
  | zero =>
    obtain rfl := List.length_eq_zero_iff.mp (Nat.le_zero.mp hfuel)
    cases h
    simp [destroy]
  | succ fuel ih =>
    cases h with
    | nil => simp [destroy]
    | @cons b value next nodes values hnode hrest =>
      have hnodup := (Chain.cons hnode hrest).nodup
      simp only [destroy, hnode]
      rw [ih (hrest.update (List.nodup_cons.mp hnodup).1 none) (Nat.le_of_succ_le_succ hfuel)]
      congr 1
      funext a
      by_cases ha : a = b
      · subst ha
        simp
      · simp [ha]

/-- The nodes that are left when no thread is in a call are those of the stack, and the
destructor deletes all of them. -/
theorem Coherent.destroy {s : LinkedStack ι T} {nodes : List ℕ} {values : List T} {hand : ℕ → Hand ι}
    (h : s.Coherent nodes values hand) (hquiet : ∀ i, s.place i = .outside) {fuel : ℕ}
    (hfuel : nodes.length ≤ fuel) : LinkedStack.destroy s.heap fuel s.root = .ok fun _ => none := by
  rw [destroy_of_chain h.chain hfuel]
  congr 1
  funext a
  split_ifs with hmem
  · rfl
  · rw [← h.free]
    cases hhand : hand a with
    | free => rfl
    | linked => exact absurd ((h.linked a).mp hhand) hmem
    | push i =>
      have hdraft := (h.push i a).mp hhand
      rw [hquiet] at hdraft
      cases hdraft
    | pop i =>
      have htaken := (h.pop i a).mp hhand
      rw [hquiet] at htaken
      cases htaken

/-- If no two calls of `pop` overlap, whatever calls of `push` and `empty` do at the same time:
no node is deleted under a thread that looks at it, and once all calls have returned, the
destructor deletes every node that is left. -/
theorem nothing_left (es : List (StackEvent ι T)) (s : LinkedStack ι T)
    (hrun : RunWhere step Alone {} es s) :
    RunWhere step KeepsHeld {} es s ∧ ((∀ i, s.place i = .outside) →
      ∃ rounds, ∀ fuel, rounds ≤ fuel → destroy s.heap fuel s.root = .ok fun _ => none) := by
  have hkeeps := keepsHeld_of_alone hrun
  obtain ⟨nodes, values, hand, h⟩ := exists_coherent hkeeps
  exact ⟨hkeeps, fun hquiet => ⟨nodes.length, fun fuel hfuel => h.destroy hquiet hfuel⟩⟩

instance (place : StackPlace T) : Decidable place.Popping :=
  match place with
  | .popLoad | .popNext _ | .popExchange _ _ | .popValue _ | .popDelete _ _ | .popReturn _ =>
    isTrue trivial
  | .outside | .pushNew _ | .pushLoad _ | .pushStore _ _ | .pushExchange _ _ | .pushReturn
  | .emptyLoad | .emptyReturn _ => isFalse id

instance [Fintype ι] (s : LinkedStack ι T) (e : StackEvent ι T) : Decidable (s.Alone e) :=
  match e with
  | .calls i .pop => inferInstanceAs (Decidable (∀ j, j ≠ i → ¬ (s.place j).Popping))
  | .calls _ (.push _) | .calls _ .empty | .allocates _ _ | .advance _ | .fails _ => isTrue trivial

theorem nothing_left_sample :
    ∃ s, RunWhere step Alone ({} : LinkedStack Bool ℕ)
        [.calls true (.push 7), .allocates true 4, .advance true, .advance true, .advance true,
          .advance true] s ∧
      ∃ rounds, ∀ fuel, rounds ≤ fuel → destroy s.heap fuel s.root = .ok fun _ => none := by
  obtain ⟨s, hrun, hquiet⟩ := exists_run_of_any step Alone ({} : LinkedStack Bool ℕ)
    [.calls true (.push 7), .allocates true 4, .advance true, .advance true, .advance true,
      .advance true] (fun s => decide (∀ i, (s.place i) matches .outside)) (by decide)
  refine ⟨s, hrun, (nothing_left _ s hrun).2 ?_⟩
  intro i
  have hi := of_decide_eq_true hquiet i
  cases hplace : s.place i <;> simp_all

end LinkedStack
end Sese.Container
