import Sese.Util.Timer

/-!
# The time wheel

`sese::TimeWheel`, sixty lists of events that are linked to a ring, over a clock that is read
again and again. The callbacks do not touch the wheel; what is known of them is the log of the
calls and of the cancellations. For a clock that does not go back, in every state that calls lead
to, the pending events are in the slots of their targets and no target is before the last check.
-/
namespace Sese

open Foundation

/-- `Range<int>`. -/
structure Range where
  beginNumber : ℤ
  endNumber : ℤ

namespace Range

def make (first last : ℤ) : Range := if first > last then ⟨last, first⟩ else ⟨first, last⟩

/-- What `ReverseIterator` runs through, up to the number `stop`. -/
def downTo (stop : ℤ) : ℕ → ℤ → List ℤ
  | 0, _ => []
  | fuel + 1, curNumber => if curNumber = stop then [] else curNumber :: downTo stop fuel (curNumber - 1)

/-- The numbers from `rbegin()` to `rend()`. -/
def reversed (range : Range) : List ℤ :=
  downTo (range.beginNumber - 1) (range.endNumber - range.beginNumber + 2).toNat range.endNumber

end Range

/-- An event; `id` stands for the object and its callback, and `repeats` is the field `repeat`. -/
structure TimeoutEvent where
  id : ℕ
  range : ℤ
  target : ℤ
  repeats : Bool
  deriving DecidableEq

/-- A callback that `check` called, with the target that the event had and the time of the check. -/
structure Firing where
  id : ℕ
  repeats : Bool
  target : ℤ
  current : ℤ
  deriving DecidableEq

inductive LogEntry
  | fired (firing : Firing)
  | cancelled (id : ℕ)
  deriving DecidableEq

/-- The wheel, with the number of events that were made, the readings of the clock so far, and
the log. -/
structure TimeWheel where
  startTime : ℤ
  lastCheckTime : ℤ
  events : ℕ → List TimeoutEvent := fun _ => []
  made : ℕ := 0
  readings : ℕ := 0
  log : List LogEntry := []

namespace TimeWheel

/-- One round of the loop of the constructor: the links so far and `pre_address`. -/
def link (state : (ℕ → Option ℕ) × Option ℕ) (number : ℤ) : (ℕ → Option ℕ) × Option ℕ :=
  (Function.update state.1 number.toNat state.2, some number.toNat)

/-- The field `next` of every slot. -/
def next : ℕ → Option ℕ :=
  Function.update ((Range.make 0 59).reversed.foldl link (fun _ => none, none)).1 59 (some 0)

/-- A new wheel, for which the clock is read for the first time. -/
def new (clock : ℕ → ℤ) : TimeWheel :=
  { startTime := clock 0, lastCheckTime := clock 0, readings := 1 }

/-- `(timestamp - startTime) % 60`, as the index of a slot. -/
def slotOf (w : TimeWheel) (timestamp : ℤ) : Except Fault ℕ := do
  let distance ← Timer.addTimestamp timestamp (-w.startTime)
  if distance.tmod 60 < 0 then .error .overread else return (distance.tmod 60).toNat

def emplaceBack (w : TimeWheel) (index : ℕ) (event : TimeoutEvent) : TimeWheel :=
  { w with events := Function.update w.events index (w.events index ++ [event]) }

def getTimestamp (clock : ℕ → ℤ) (w : TimeWheel) : ℤ × TimeWheel :=
  (clock w.readings, { w with readings := w.readings + 1 })

def delay (clock : ℕ → ℤ) (w : TimeWheel) (seconds : ℤ) (repeats : Bool) : Except Fault TimeWheel := do
  let (current, w) := w.getTimestamp clock
  let target ← Timer.addTimestamp current seconds
  let index ← w.slotOf target
  return { w.emplaceBack index ⟨w.made, seconds, target, repeats⟩ with made := w.made + 1 }

def cancel (w : TimeWheel) (event : TimeoutEvent) : Except Fault TimeWheel := do
  let index ← w.slotOf event.target
  return { w with
    events := Function.update w.events index
      ((w.events index).filter fun other => other.id ≠ event.id)
    log := w.log ++ [LogEntry.cancelled event.id] }

/-- The two loops of `check`: the rounds that are left of the outer one, `p_slot`, and the place
of the iterator in the list of the slot. -/
structure Check where
  wheel : TimeWheel
  current : ℤ
  left : ℕ
  slot : ℕ
  iterator : ℕ := 0

/-- The callback is called, and the event is erased, or moved to the slot of its new target. -/
def fire (clock : ℕ → ℤ) (w : TimeWheel) (current : ℤ) (slot iterator : ℕ) (event : TimeoutEvent) :
    Except Fault TimeWheel := do
  let w := { w with log := w.log ++ [LogEntry.fired ⟨event.id, event.repeats, event.target, current⟩] }
  if event.repeats then
    let (now, w) := w.getTimestamp clock
    let target ← Timer.addTimestamp now event.range
    let index ← w.slotOf target
    let w := w.emplaceBack index { event with target := target }
    return { w with events := Function.update w.events slot ((w.events slot).eraseIdx iterator) }
  else return { w with events := Function.update w.events slot ((w.events slot).eraseIdx iterator) }

/-- One round of the loops. -/
def Check.round (clock : ℕ → ℤ) (s : Check) : Except Fault (Check ⊕ TimeWheel) :=
  if s.left = 0 then .ok (.inr { s.wheel with lastCheckTime := s.current })
  else
    match (s.wheel.events s.slot)[s.iterator]? with
    | none =>
      match next s.slot with
      | none => .error .nullPointer
      | some slot => .ok (.inl { s with left := s.left - 1, slot := slot, iterator := 0 })
    | some event =>
      if event.target > s.current then .ok (.inl { s with iterator := s.iterator + 1 })
      else do
        let w ← s.wheel.fire clock s.current s.slot s.iterator event
        return .inl { s with wheel := w }

/-- `check` before its loops. -/
def startCheck (clock : ℕ → ℤ) (w : TimeWheel) : Except Fault Check := do
  let (current, w) := w.getTimestamp clock
  let number_of_slots ← Timer.addTimestamp current (-w.lastCheckTime)
  let index ← w.slotOf w.lastCheckTime
  return { wheel := w, current := current, left := (min number_of_slots 60).toNat, slot := index }

/-- What happens to a wheel. A delay is not negative, and positive if the event repeats; only a
pending event is cancelled. -/
inductive Step (clock : ℕ → ℤ) : TimeWheel → TimeWheel → Prop
  | delay {w w' : TimeWheel} {seconds : ℤ} {repeats : Bool} :
      0 ≤ seconds → (repeats → 1 ≤ seconds) → w.delay clock seconds repeats = .ok w' → Step clock w w'
  | cancel {w w' : TimeWheel} {j : ℕ} {event : TimeoutEvent} :
      event ∈ w.events j → w.cancel event = .ok w' → Step clock w w'
  | check {w w' : TimeWheel} {s : Check} :
      w.startCheck clock = .ok s → Delivers (Check.round clock) s w' → Step clock w w'

end TimeWheel

namespace LogEntry

@[simp] def id : LogEntry → ℕ
  | fired firing => firing.id
  | cancelled id => id

@[simp] def closes : LogEntry → Bool
  | fired firing => !firing.repeats
  | cancelled _ => true

end LogEntry

namespace TimeWheel

/-- What is known of a pending event in the slot `j`. -/
structure Fits (w : TimeWheel) (j : ℕ) (event : TimeoutEvent) : Prop where
  slot : w.slotOf event.target = .ok j
  target : w.lastCheckTime ≤ event.target
  range : event.repeats → 1 ≤ event.range
  made : event.id < w.made
  opened : ∀ a ∈ w.log, a.closes → event.id ≠ a.id

structure Distinct (events : ℕ → List TimeoutEvent) : Prop where
  slot : ∀ j, ((events j).map TimeoutEvent.id).Nodup
  slots : ∀ i j, ∀ e ∈ events i, ∀ e' ∈ events j, e.id = e'.id → i = j

structure Sound (clock : ℕ → ℤ) (w : TimeWheel) : Prop where
  start : w.startTime ≤ w.lastCheckTime
  last : w.lastCheckTime ≤ clock w.readings
  fits : ∀ j, ∀ event ∈ w.events j, w.Fits j event
  distinct : Distinct w.events
  made : ∀ a ∈ w.log, a.id < w.made
  closed : w.log.Pairwise fun a b => a.closes → b.id ≠ a.id
  due : ∀ firing, .fired firing ∈ w.log → firing.target ≤ firing.current

/-- Every event that was made is pending, or it was cancelled, or it was fired and does not
repeat. -/
def Accounted (w : TimeWheel) : Prop :=
  ∀ i < w.made, (∃ j, ∃ event ∈ w.events j, event.id = i) ∨ ∃ a ∈ w.log, a.closes ∧ a.id = i

variable {events events' : ℕ → List TimeoutEvent}

theorem mem_place {index j : ℕ} {event e : TimeoutEvent} :
    e ∈ Function.update events index (events index ++ [event]) j ↔
      e ∈ events j ∨ j = index ∧ e = event := by
  rw [Function.update_apply]
  split_ifs with hj
  · simp [hj]
  · simp [hj]

namespace Distinct

theorem sublist (h : Distinct events) (hsub : ∀ j, (events' j).Sublist (events j)) :
    Distinct events' where
  slot j := (h.slot j).sublist ((hsub j).map _)
  slots i j e he e' he' := h.slots i j e ((hsub i).subset he) e' ((hsub j).subset he')

theorem place (h : Distinct events) (index : ℕ) {event : TimeoutEvent}
    (hfresh : ∀ j, ∀ e ∈ events j, e.id ≠ event.id) :
    Distinct (Function.update events index (events index ++ [event])) where
  slot j := by
    rw [Function.update_apply]
    split_ifs with hj
    · rw [List.map_append, List.nodup_append]
      refine ⟨h.slot index, by simp, ?_⟩
      intro i hi k hk
      obtain ⟨e, he, rfl⟩ := List.mem_map.mp hi
      obtain rfl : k = event.id := by simpa using hk
      exact hfresh index e he
    · exact h.slot j
  slots i j e he e' he' hid := by
    rcases mem_place.mp he with hold | ⟨hi, rfl⟩
    · rcases mem_place.mp he' with hold' | ⟨hj, rfl⟩
      · exact h.slots i j e hold e' hold' hid
      · exact absurd hid (hfresh i e hold)
    · rcases mem_place.mp he' with hold' | ⟨hj, rfl⟩
      · exact absurd hid.symm (hfresh j e' hold')
      · exact hi.trans hj.symm

theorem eraseIdx_ne (h : Distinct events) {slot iterator : ℕ} {event : TimeoutEvent}
    (hevent : (events slot)[iterator]? = some event) (j : ℕ) :
    ∀ e ∈ Function.update events slot ((events slot).eraseIdx iterator) j, e.id ≠ event.id := by
  have hmem := List.mem_of_getElem? hevent
  intro e he hid
  rw [Function.update_apply] at he
  split_ifs at he with hj
  · subst hj
    obtain ⟨k, hk, hget⟩ := List.mem_eraseIdx_iff_getElem?.mp he
    have hmap := h.slot j
    have hk' : ((events j).map TimeoutEvent.id)[k]? = some event.id := by simp [hget, hid]
    have hi' : ((events j).map TimeoutEvent.id)[iterator]? = some event.id := by simp [hevent]
    exact hk ((List.getElem?_inj (List.getElem?_eq_some_iff.mp hk').1 hmap).mp
      (hk'.trans hi'.symm))
  · exact hj (h.slots j slot e he event hmem hid)

end Distinct

def slotNumber (w : TimeWheel) (timestamp : ℤ) : ℕ := ((timestamp - w.startTime) % 60).toNat

theorem addTimestamp_cases (a b : ℤ) :
    Timer.addTimestamp a b = .error .intOverflow ∨ Timer.addTimestamp a b = .ok (a + b) := by
  unfold Timer.addTimestamp
  split_ifs
  · exact .inr rfl
  · exact .inl rfl

theorem slotOf_cases {w : TimeWheel} {timestamp : ℤ} (h : w.startTime ≤ timestamp) :
    w.slotOf timestamp = .error .intOverflow ∨
      w.slotOf timestamp = .ok (w.slotNumber timestamp) := by
  rcases addTimestamp_cases timestamp (-w.startTime) with hsum | hsum
  · exact .inl (by rw [slotOf, hsum]; rfl)
  · have hmod : (timestamp + -w.startTime).tmod 60 = (timestamp - w.startTime) % 60 :=
      Int.tmod_eq_emod_of_nonneg (by omega)
    have hpos : ¬ (timestamp - w.startTime) % 60 < 0 := by omega
    apply Or.inr
    rw [slotOf, hsum]
    change (if (timestamp + -w.startTime).tmod 60 < 0 then Except.error Fault.overread
      else .ok ((timestamp + -w.startTime).tmod 60).toNat) = _
    rw [hmod, if_neg hpos]
    rfl

theorem eq_slotNumber {w : TimeWheel} {timestamp : ℤ} {j : ℕ} (h : w.startTime ≤ timestamp)
    (hslot : w.slotOf timestamp = .ok j) : j = w.slotNumber timestamp := by
  rcases slotOf_cases h with hbad | hgood
  · cases hslot.symm.trans hbad
  · exact Except.ok.inj (hslot.symm.trans hgood)

theorem slotNumber_lt (w : TimeWheel) (timestamp : ℤ) : w.slotNumber timestamp < 60 := by
  unfold slotNumber
  omega

theorem slotNumber_eq_iff {w : TimeWheel} {s t : ℤ} :
    w.slotNumber s = w.slotNumber t ↔ (t - s) % 60 = 0 := by
  unfold slotNumber
  omega

theorem next_eq {number : ℕ} (h : number < 60) : next number = some ((number + 1) % 60) := by
  have hring : ∀ k : Fin 60, next k = some ((k + 1 : ℕ) % 60) := by decide +kernel
  exact hring ⟨number, h⟩

theorem next_slotNumber (w : TimeWheel) (timestamp : ℤ) :
    next (w.slotNumber timestamp) = some (w.slotNumber (timestamp + 1)) := by
  rw [next_eq (w.slotNumber_lt timestamp)]
  congr 1
  unfold slotNumber
  omega

namespace Sound

variable {clock : ℕ → ℤ} {w : TimeWheel}

theorem startTime_le_target (h : Sound clock w) {j : ℕ} {event : TimeoutEvent}
    (hevent : event ∈ w.events j) : w.startTime ≤ event.target :=
  h.start.trans (h.fits j event hevent).target

theorem eq_slotNumber (h : Sound clock w) {j : ℕ} {event : TimeoutEvent}
    (hevent : event ∈ w.events j) : j = w.slotNumber event.target :=
  TimeWheel.eq_slotNumber (h.startTime_le_target hevent) (h.fits j event hevent).slot

theorem getTimestamp (hclock : Monotone clock) (h : Sound clock w) :
    Sound clock (w.getTimestamp clock).2 where
  start := h.start
  last := h.last.trans (hclock (Nat.le_succ _))
  fits j event hevent :=
    ⟨(h.fits j event hevent).slot, (h.fits j event hevent).target, (h.fits j event hevent).range,
      (h.fits j event hevent).made, (h.fits j event hevent).opened⟩
  distinct := h.distinct
  made := h.made
  closed := h.closed
  due := h.due

theorem more (h : Sound clock w) : Sound clock { w with made := w.made + 1 } where
  start := h.start
  last := h.last
  fits j event hevent :=
    ⟨(h.fits j event hevent).slot, (h.fits j event hevent).target, (h.fits j event hevent).range,
      (h.fits j event hevent).made.trans (Nat.lt_succ_self _), (h.fits j event hevent).opened⟩
  distinct := h.distinct
  made a ha := (h.made a ha).trans (Nat.lt_succ_self _)
  closed := h.closed
  due := h.due

theorem emplaceBack (h : Sound clock w) {index : ℕ} {event : TimeoutEvent}
    (hfits : w.Fits index event) (hfresh : ∀ j, ∀ e ∈ w.events j, e.id ≠ event.id) :
    Sound clock (w.emplaceBack index event) where
  start := h.start
  last := h.last
  fits j e he := by
    have hw : w.Fits j e := by
      rcases mem_place.mp he with hold | ⟨rfl, rfl⟩
      · exact h.fits j e hold
      · exact hfits
    exact ⟨hw.slot, hw.target, hw.range, hw.made, hw.opened⟩
  distinct := h.distinct.place index hfresh
  made := h.made
  closed := h.closed
  due := h.due

theorem record (h : Sound clock w) {events : ℕ → List TimeoutEvent} {a : LogEntry}
    (hsub : ∀ j, (events j).Sublist (w.events j)) {slot : ℕ} {event : TimeoutEvent}
    (hevent : event ∈ w.events slot) (hid : a.id = event.id)
    (hgone : a.closes → ∀ j, ∀ e ∈ events j, e.id ≠ a.id)
    (hdue : ∀ firing, a = .fired firing → firing.target ≤ firing.current) :
    Sound clock { w with events := events, log := w.log ++ [a] } where
  start := h.start
  last := h.last
  fits j e he := by
    have hw := h.fits j e ((hsub j).subset he)
    refine ⟨hw.slot, hw.target, hw.range, hw.made, ?_⟩
    intro b hb hcloses
    rcases List.mem_append.mp hb with hold | hnew
    · exact hw.opened b hold hcloses
    · rw [List.mem_singleton.mp hnew] at hcloses ⊢
      exact hgone hcloses j e he
  distinct := h.distinct.sublist hsub
  made b hb := by
    rcases List.mem_append.mp hb with hold | hnew
    · exact h.made b hold
    · rw [List.mem_singleton.mp hnew, hid]
      exact (h.fits slot event hevent).made
  closed := by
    rw [List.pairwise_append]
    refine ⟨h.closed, List.pairwise_singleton _ a, ?_⟩
    intro b hb c hc hcloses
    rw [List.mem_singleton.mp hc, hid]
    exact (h.fits slot event hevent).opened b hb hcloses
  due firing hfiring := by
    rcases List.mem_append.mp hfiring with hold | hnew
    · exact h.due firing hold
    · exact hdue firing (List.mem_singleton.mp hnew).symm

end Sound

/-- A callback is called, and the event leaves its place. -/
def called (w : TimeWheel) (current : ℤ) (slot iterator : ℕ) (event : TimeoutEvent) : TimeWheel :=
  { w with
    events := Function.update w.events slot ((w.events slot).eraseIdx iterator)
    log := w.log ++ [.fired ⟨event.id, event.repeats, event.target, current⟩] }

@[simp] theorem called_events (w : TimeWheel) (current : ℤ) (slot iterator : ℕ)
    (event : TimeoutEvent) : (w.called current slot iterator event).events =
      Function.update w.events slot ((w.events slot).eraseIdx iterator) := rfl

/-- The event is made again for the timestamp that is read now. -/
def again (clock : ℕ → ℤ) (w : TimeWheel) (event : TimeoutEvent) : TimeoutEvent :=
  { event with target := clock w.readings + event.range }

theorem erase_place {slot iterator : ℕ} (h : iterator < (events slot).length) (index : ℕ)
    (event : TimeoutEvent) :
    Function.update (Function.update events index (events index ++ [event])) slot
        ((Function.update events index (events index ++ [event]) slot).eraseIdx iterator) =
      Function.update (Function.update events slot ((events slot).eraseIdx iterator)) index
        (Function.update events slot ((events slot).eraseIdx iterator) index ++ [event]) := by
  by_cases hsame : slot = index
  · subst hsame
    simp [List.eraseIdx_append_of_lt_length h]
  · rw [Function.update_of_ne hsame, Function.update_of_ne (Ne.symm hsame),
      Function.update_comm hsame]

theorem fire_cases {clock : ℕ → ℤ} {w : TimeWheel} (current : ℤ) {slot iterator : ℕ}
    {event : TimeoutEvent} (hevent : (w.events slot)[iterator]? = some event)
    (hstart : event.repeats → w.startTime ≤ clock w.readings + event.range) :
    w.fire clock current slot iterator event = .error .intOverflow ∨
    (event.repeats = false ∧
      w.fire clock current slot iterator event = .ok (w.called current slot iterator event)) ∨
    (event.repeats = true ∧ ∃ index, w.slotOf (w.again clock event).target = .ok index ∧
      w.fire clock current slot iterator event =
        .ok (((w.called current slot iterator event).getTimestamp clock).2.emplaceBack index
          (w.again clock event))) := by
  have hlt : iterator < (w.events slot).length := (List.getElem?_eq_some_iff.mp hevent).1
  cases hrepeats : event.repeats with
  | false =>
    apply Or.inr
    apply Or.inl
    constructor
    · rfl
    · simp only [fire, called, hrepeats]
      rfl
  | true =>
    rcases addTimestamp_cases (clock w.readings) event.range with hsum | hsum
    · apply Or.inl
      simp only [fire, TimeWheel.getTimestamp, hrepeats, if_true, hsum]
      rfl
    · rcases slotOf_cases (hstart hrepeats) with hslot | hslot
      · apply Or.inl
        simp only [fire, TimeWheel.getTimestamp, hrepeats, if_true, hsum]
        change (do
          let index ← w.slotOf (clock w.readings + event.range)
          _) = _
        rw [hslot]
        rfl
      · apply Or.inr
        apply Or.inr
        refine ⟨rfl, _, hslot, ?_⟩
        simp only [fire, TimeWheel.getTimestamp, hrepeats, if_true, hsum]
        change (do
          let index ← w.slotOf (clock w.readings + event.range)
          _) = _
        rw [hslot]
        simp only [called, TimeWheel.emplaceBack, again, hrepeats, ← erase_place hlt]
        rfl

theorem delay_eq {clock : ℕ → ℤ} {w : TimeWheel} {seconds target : ℤ} {index : ℕ}
    (hsum : Timer.addTimestamp (clock w.readings) seconds = .ok target)
    (hslot : w.slotOf target = .ok index) (repeats : Bool) :
    w.delay clock seconds repeats =
      .ok ({ (w.getTimestamp clock).2 with made := w.made + 1 }.emplaceBack index
        ⟨w.made, seconds, target, repeats⟩) := by
  simp only [delay, TimeWheel.getTimestamp, hsum]
  change (w.slotOf target >>= _) = _
  rw [hslot]
  rfl

theorem delay_cases {clock : ℕ → ℤ} {w w' : TimeWheel} {seconds : ℤ} {repeats : Bool}
    (h : w.delay clock seconds repeats = .ok w') :
    ∃ index, w.slotOf (clock w.readings + seconds) = .ok index ∧
      w' = { (w.getTimestamp clock).2 with made := w.made + 1 }.emplaceBack index
        ⟨w.made, seconds, clock w.readings + seconds, repeats⟩ := by
  rcases addTimestamp_cases (clock w.readings) seconds with hsum | hsum
  · simp only [delay, TimeWheel.getTimestamp, hsum] at h
    cases h
  · cases hslot : w.slotOf (clock w.readings + seconds) with
    | error e =>
      simp only [delay, TimeWheel.getTimestamp, hsum] at h
      change (w.slotOf (clock w.readings + seconds) >>= _) = _ at h
      rw [hslot] at h
      cases h
    | ok index => exact ⟨index, rfl, Except.ok.inj (h.symm.trans (delay_eq hsum hslot repeats))⟩

/-- What the call of a callback does to the wheel. -/
structure Fired (w : TimeWheel) (current : ℤ) (slot iterator : ℕ) (event : TimeoutEvent)
    (w' : TimeWheel) : Prop where
  startTime : w'.startTime = w.startTime
  lastCheckTime : w'.lastCheckTime = w.lastCheckTime
  made : w'.made = w.made
  readings : w.readings ≤ w'.readings
  log : w'.log = w.log ++ [.fired ⟨event.id, event.repeats, event.target, current⟩]
  later : ∀ j, ∀ e ∈ w'.events j, e ∈ w.events j ∨ current < e.target
  kept : ∀ j, ∀ e ∈ w.events j, e ∈ w'.events j ∨ e = event
  again : event.repeats → ∃ j, ∃ e ∈ w'.events j, e.id = event.id
  slot : ∃ l, w'.events slot = (w.events slot).eraseIdx iterator ++ l ∧ l.length ≤ 1 ∧
    ∀ e ∈ l, current < e.target

section Fire

variable {clock : ℕ → ℤ} {w w' : TimeWheel} {current : ℤ} {slot iterator : ℕ} {event : TimeoutEvent}

theorem mem_eraseIdx_or {l : List TimeoutEvent} (hevent : l[iterator]? = some event)
    {e : TimeoutEvent} (he : e ∈ l) : e ∈ l.eraseIdx iterator ∨ e = event := by
  obtain ⟨k, hk⟩ := List.getElem?_of_mem he
  by_cases hki : k = iterator
  · subst hki
    exact .inr (Option.some.inj (hk.symm.trans hevent))
  · exact .inl (List.mem_eraseIdx_iff_getElem?.mpr ⟨k, hki, hk⟩)

theorem called_events_sublist (w : TimeWheel) (current : ℤ) (slot iterator : ℕ)
    (event : TimeoutEvent) (j : ℕ) :
    ((w.called current slot iterator event).events j).Sublist (w.events j) := by
  rw [called_events, Function.update_apply]
  split_ifs with hj
  · rw [hj]
    exact List.eraseIdx_sublist _ _
  · exact List.Sublist.refl _

theorem called_kept (current : ℤ) (hevent : (w.events slot)[iterator]? = some event) (j : ℕ) :
    ∀ e ∈ w.events j, e ∈ (w.called current slot iterator event).events j ∨ e = event := by
  intro e he
  rw [called_events, Function.update_apply]
  split_ifs with hj
  · exact mem_eraseIdx_or hevent (hj ▸ he)
  · exact .inl he

theorem fired_called (hevent : (w.events slot)[iterator]? = some event)
    (hrepeats : event.repeats = false) :
    w.Fired current slot iterator event (w.called current slot iterator event) where
  startTime := rfl
  lastCheckTime := rfl
  made := rfl
  readings := le_rfl
  log := rfl
  later j e he := .inl ((called_events_sublist w current slot iterator event j).subset he)
  kept := called_kept current hevent
  again h := by simp [hrepeats] at h
  slot := ⟨[], by simp [called], by simp, by simp⟩

theorem fired_again (hevent : (w.events slot)[iterator]? = some event) {index : ℕ}
    (hlater : current < (w.again clock event).target) :
    w.Fired current slot iterator event
      (((w.called current slot iterator event).getTimestamp clock).2.emplaceBack index
        (w.again clock event)) where
  startTime := rfl
  lastCheckTime := rfl
  made := rfl
  readings := Nat.le_succ _
  log := rfl
  later j e he := by
    rcases mem_place.mp he with hold | ⟨rfl, rfl⟩
    · exact .inl ((called_events_sublist w current slot iterator event j).subset hold)
    · exact .inr hlater
  kept j e he := by
    rcases called_kept current hevent j e he with hold | hnew
    · exact .inl (mem_place.mpr (.inl hold))
    · exact .inr hnew
  again _ := ⟨index, _, mem_place.mpr (.inr ⟨rfl, rfl⟩), rfl⟩
  slot := by
    simp only [TimeWheel.emplaceBack, TimeWheel.getTimestamp, called]
    by_cases hslot : slot = index
    · subst hslot
      exact ⟨[w.again clock event], by simp, by simp, by simpa using hlater⟩
    · exact ⟨[], by simp [Function.update_of_ne hslot], by simp, by simp⟩

namespace Sound

theorem called (h : Sound clock w) (hevent : (w.events slot)[iterator]? = some event)
    (hdue : event.target ≤ current) : Sound clock (w.called current slot iterator event) := by
  apply h.record (called_events_sublist w current slot iterator event)
    (List.mem_of_getElem? hevent) rfl
  · exact fun _ => h.distinct.eraseIdx_ne hevent
  · intro firing hfiring
    cases hfiring
    exact hdue

theorem fire (hclock : Monotone clock) (h : Sound clock w)
    (hevent : (w.events slot)[iterator]? = some event) (hdue : event.target ≤ current)
    (hcurrent : current ≤ clock w.readings) :
    w.fire clock current slot iterator event = .error .intOverflow ∨
      ∃ w', w.fire clock current slot iterator event = .ok w' ∧ Sound clock w' ∧
        w.Fired current slot iterator event w' := by
  have hmem := List.mem_of_getElem? hevent
  have hfits := h.fits slot event hmem
  have hstart : event.repeats → w.startTime ≤ clock w.readings + event.range := by
    intro hrepeats
    have hrange := hfits.range hrepeats
    have := h.start.trans h.last
    omega
  rcases fire_cases current hevent hstart with
    hbad | ⟨hrepeats, hfire⟩ | ⟨hrepeats, index, hslot, hfire⟩
  · exact .inl hbad
  · exact .inr ⟨_, hfire, h.called hevent hdue, fired_called hevent hrepeats⟩
  · have hrange := hfits.range hrepeats
    have hlast := h.last
    have hlater : current < (w.again clock event).target := by
      change current < clock w.readings + event.range
      omega
    refine .inr ⟨_, hfire, ?_, fired_again hevent hlater⟩
    apply ((h.called hevent hdue).getTimestamp hclock).emplaceBack
    · constructor
      · exact hslot
      · change w.lastCheckTime ≤ clock w.readings + event.range
        omega
      · exact fun _ => hrange
      · exact hfits.made
      · intro a ha hcloses
        rcases List.mem_append.mp ha with hold | hnew
        · exact hfits.opened a hold hcloses
        · rw [List.mem_singleton.mp hnew] at hcloses
          simp [hrepeats] at hcloses
    · exact fun j e he => h.distinct.eraseIdx_ne hevent j e he

theorem delay (hclock : Monotone clock) (h : Sound clock w) {seconds : ℤ} {repeats : Bool}
    (hseconds : 0 ≤ seconds) (hrepeats : repeats → 1 ≤ seconds)
    (hdelay : w.delay clock seconds repeats = .ok w') : Sound clock w' := by
  obtain ⟨index, hslot, rfl⟩ := delay_cases hdelay
  have hlast := h.last
  apply (h.getTimestamp hclock).more.emplaceBack
  · constructor
    · exact hslot
    · change w.lastCheckTime ≤ clock w.readings + seconds
      omega
    · exact hrepeats
    · exact Nat.lt_succ_self w.made
    · exact fun a ha _ => (h.made a ha).ne'
  · exact fun j e he => (h.fits j e he).made.ne

theorem cancel_eq (h : Sound clock w) {j : ℕ} (hevent : event ∈ w.events j) :
    w.cancel event = .ok { w with
      events := Function.update w.events j
        ((w.events j).filter fun other => other.id ≠ event.id)
      log := w.log ++ [.cancelled event.id] } := by
  rw [TimeWheel.cancel, (h.fits j event hevent).slot]
  rfl

theorem cancel (h : Sound clock w) {j : ℕ} (hevent : event ∈ w.events j)
    (hcancel : w.cancel event = .ok w') : Sound clock w' := by
  obtain rfl := Except.ok.inj ((h.cancel_eq hevent).symm.trans hcancel)
  apply h.record _ hevent rfl
  · intro _ k e he
    rw [Function.update_apply] at he
    split_ifs at he with hk
    · simpa using (List.mem_filter.mp he).2
    · intro hid
      exact hk (h.distinct.slots k j e he event hevent hid)
  · intro firing hfiring
    cases hfiring
  · intro k
    rw [Function.update_apply]
    split_ifs with hk
    · rw [hk]
      exact List.filter_sublist
    · exact List.Sublist.refl _

end Sound

namespace Accounted

theorem of_kept (h : Accounted w) {a : LogEntry} (hmade : w'.made = w.made)
    (hlog : w'.log = w.log ++ [a])
    (hkept : ∀ j, ∀ e ∈ w.events j, (∃ j, ∃ e' ∈ w'.events j, e'.id = e.id) ∨
      (a.closes ∧ a.id = e.id)) : Accounted w' := by
  intro i hi
  rw [hlog]
  rcases h i (hmade ▸ hi) with ⟨j, e, he, rfl⟩ | ⟨b, hb, hcloses⟩
  · rcases hkept j e he with hstay | hgone
    · exact .inl hstay
    · exact .inr ⟨a, by simp, hgone⟩
  · exact .inr ⟨b, List.mem_append_left _ hb, hcloses⟩

theorem fired (h : Accounted w) (hfired : w.Fired current slot iterator event w') :
    Accounted w' := by
  apply h.of_kept hfired.made hfired.log
  intro j e he
  rcases hfired.kept j e he with hstay | rfl
  · exact .inl ⟨j, e, hstay, rfl⟩
  · cases hrepeats : e.repeats with
    | true => exact .inl (hfired.again hrepeats)
    | false => exact .inr ⟨by simp, rfl⟩

theorem delay (h : Accounted w) {seconds : ℤ} {repeats : Bool}
    (hdelay : w.delay clock seconds repeats = .ok w') : Accounted w' := by
  obtain ⟨index, -, rfl⟩ := delay_cases hdelay
  intro i hi
  rcases Nat.lt_succ_iff_lt_or_eq.mp hi with hold | rfl
  · rcases h i hold with ⟨j, e, he, hid⟩ | hclosed
    · exact .inl ⟨j, e, mem_place.mpr (.inl he), hid⟩
    · exact .inr hclosed
  · exact .inl ⟨index, _, mem_place.mpr (.inr ⟨rfl, rfl⟩), rfl⟩

theorem cancel (h : Accounted w) (hsound : Sound clock w) {j : ℕ} (hevent : event ∈ w.events j)
    (hcancel : w.cancel event = .ok w') : Accounted w' := by
  have hw' := Except.ok.inj ((hsound.cancel_eq hevent).symm.trans hcancel)
  have hmade : w'.made = w.made := by rw [← hw']
  have hlog : w'.log = w.log ++ [.cancelled event.id] := by rw [← hw']
  apply h.of_kept hmade hlog
  intro k e he
  by_cases hid : e.id = event.id
  · exact .inr ⟨rfl, hid.symm⟩
  · refine .inl ⟨k, e, ?_, rfl⟩
    rw [← hw']
    change e ∈ Function.update w.events j _ k
    rw [Function.update_apply]
    split_ifs with hk
    · subst hk
      exact List.mem_filter.mpr ⟨he, by simpa using hid⟩
    · exact he

end Accounted

end Fire

end TimeWheel
end Sese
