import Sese.Foundation.Outcome
import Sese.Util.TimeWheel

/-!
# Checks of a time wheel

A check goes through the seconds since the last one, one turn of the wheel at most. What it has
left behind is not due.
-/
namespace Sese
namespace TimeWheel

open Foundation

variable {clock : ℕ → ℤ} {w w' : TimeWheel} {s s' : Check}

namespace Check

/-- The second whose slot a check that began on the wheel `w` is at. -/
def time (w : TimeWheel) (s : Check) : ℤ :=
  w.lastCheckTime + min (s.current - w.lastCheckTime) 60 - s.left

/-- What is known in the rounds of a check that began on the wheel `w`. -/
structure Sweeping (clock : ℕ → ℤ) (w : TimeWheel) (s : Check) : Prop where
  sound : Sound clock s.wheel
  accounted : Accounted s.wheel
  startTime : s.wheel.startTime = w.startTime
  lastCheckTime : s.wheel.lastCheckTime = w.lastCheckTime
  current : s.current = clock w.readings
  later : w.lastCheckTime ≤ s.current
  now : s.current ≤ clock s.wheel.readings
  left : (s.left : ℤ) ≤ min (s.current - w.lastCheckTime) 60
  slot : s.slot = w.slotNumber (s.time w)
  swept : ∀ t, w.lastCheckTime ≤ t → t < s.time w →
    ∀ e ∈ s.wheel.events (w.slotNumber t), s.current < e.target
  passed : ∀ e ∈ (s.wheel.events s.slot).take s.iterator, s.current < e.target
  log : ∃ fired, s.wheel.log = w.log ++ fired ∧
    ∀ j, ∀ e ∈ w.events j, e.target ≤ s.current → e ∈ s.wheel.events j ∨
      ∃ firing, .fired firing ∈ fired ∧ firing.id = e.id ∧ firing.target = e.target

/-- What is left of a check: rounds of the outer loop, and in the slot the events that are due and
those that the iterator has not passed. -/
def size (s : Check) : ℕ × ℕ :=
  (s.left, (s.wheel.events s.slot).countP (fun e => e.target ≤ s.current) +
    ((s.wheel.events s.slot).length - s.iterator))

def Smaller (s' s : Check) : Prop := Prod.Lex (· < ·) (· < ·) s'.size s.size

theorem wellFounded_smaller : WellFounded Smaller :=
  InvImage.wf size (Prod.lex Nat.lt_wfRel Nat.lt_wfRel).wf

theorem Sweeping.nextSlot (h : s.Sweeping clock w) (hleft : s.left ≠ 0)
    (hend : (s.wheel.events s.slot)[s.iterator]? = none) :
    Sweeping clock w
      { s with left := s.left - 1, slot := w.slotNumber (s.time w + 1), iterator := 0 } := by
  have htime : (time w { s with
      left := s.left - 1, slot := w.slotNumber (s.time w + 1), iterator := 0 }) = s.time w + 1 := by
    simp only [time]
    omega
  have hall : ∀ e ∈ s.wheel.events s.slot, s.current < e.target := by
    have hpassed := h.passed
    rwa [List.take_of_length_le (List.getElem?_eq_none_iff.mp hend)] at hpassed
  have hleft' := h.left
  constructor
  · exact h.sound
  · exact h.accounted
  · exact h.startTime
  · exact h.lastCheckTime
  · exact h.current
  · exact h.later
  · exact h.now
  · change ((s.left - 1 : ℕ) : ℤ) ≤ min (s.current - w.lastCheckTime) 60
    omega
  · rw [htime]
  · intro t hlast ht
    rw [htime] at ht
    rcases lt_or_eq_of_le (Int.lt_add_one_iff.mp ht) with hbefore | rfl
    · exact h.swept t hlast hbefore
    · rw [← h.slot]
      exact hall
  · intro e he
    cases he
  · exact h.log

theorem Sweeping.pass (h : s.Sweeping clock w) {event : TimeoutEvent}
    (hevent : (s.wheel.events s.slot)[s.iterator]? = some event) (hnot : s.current < event.target) :
    Sweeping clock w { s with iterator := s.iterator + 1 } where
  sound := h.sound
  accounted := h.accounted
  startTime := h.startTime
  lastCheckTime := h.lastCheckTime
  current := h.current
  later := h.later
  now := h.now
  left := h.left
  slot := h.slot
  swept := h.swept
  passed e he := by
    change e ∈ (s.wheel.events s.slot).take (s.iterator + 1) at he
    rw [List.take_add_one, hevent] at he
    rcases List.mem_append.mp he with hbefore | hat
    · exact h.passed e hbefore
    · obtain rfl : e = event := by simpa using hat
      exact hnot
  log := h.log

theorem Sweeping.fire (hclock : Monotone clock) (h : s.Sweeping clock w) {event : TimeoutEvent}
    (hevent : (s.wheel.events s.slot)[s.iterator]? = some event) (hsound : Sound clock w')
    (hfired : s.wheel.Fired s.current s.slot s.iterator event w') :
    Sweeping clock w { s with wheel := w' } where
  sound := hsound
  accounted := Accounted.fired h.accounted hfired
  startTime := hfired.startTime.trans h.startTime
  lastCheckTime := hfired.lastCheckTime.trans h.lastCheckTime
  current := h.current
  later := h.later
  now := h.now.trans (hclock hfired.readings)
  left := h.left
  slot := h.slot
  swept t hlast ht e he := by
    rcases hfired.later _ e he with hold | hnew
    · exact h.swept t hlast ht e hold
    · exact hnew
  passed e he := by
    obtain ⟨l, hl, -, -⟩ := hfired.slot
    have hlt := (List.getElem?_eq_some_iff.mp hevent).1
    change e ∈ (w'.events s.slot).take s.iterator at he
    rw [hl, List.take_append_of_le_length (by rw [List.length_eraseIdx]; split_ifs; omega),
      List.take_eraseIdx_eq_take_of_le _ _ _ le_rfl] at he
    exact h.passed e he
  log := by
    obtain ⟨fired, hlog, hkept⟩ := h.log
    refine ⟨fired ++ [.fired ⟨event.id, event.repeats, event.target, s.current⟩], ?_, ?_⟩
    · change w'.log = _
      rw [hfired.log, hlog, List.append_assoc]
    · intro j e he hdue
      rcases hkept j e he hdue with hold | ⟨firing, hmem, hfiring⟩
      · rcases hfired.kept j e hold with hstay | rfl
        · exact .inl hstay
        · exact .inr ⟨_, List.mem_append_right _ (List.mem_singleton.mpr rfl), rfl, rfl⟩
      · exact .inr ⟨firing, List.mem_append_left _ hmem, hfiring⟩

theorem smaller_nextSlot (hleft : s.left ≠ 0) (slot : ℕ) :
    Smaller { s with left := s.left - 1, slot := slot, iterator := 0 } s :=
  Prod.Lex.left _ _ (Nat.sub_one_lt hleft)

theorem smaller_pass (h : s.iterator < (s.wheel.events s.slot).length) :
    Smaller { s with iterator := s.iterator + 1 } s := by
  apply Prod.Lex.right
  dsimp only
  omega

theorem smaller_fire {event : TimeoutEvent}
    (hevent : (s.wheel.events s.slot)[s.iterator]? = some event) (hdue : event.target ≤ s.current)
    (hfired : s.wheel.Fired s.current s.slot s.iterator event w') :
    Smaller { s with wheel := w' } s := by
  obtain ⟨l, hl, hlength, hlater⟩ := hfired.slot
  obtain ⟨hlt, rfl⟩ := List.getElem?_eq_some_iff.mp hevent
  have hperm := List.getElem_cons_eraseIdx_perm hlt
  have hcount := hperm.countP_eq fun e => decide (e.target ≤ s.current)
  have hnone : l.countP (fun e => decide (e.target ≤ s.current)) = 0 := by
    rw [List.countP_eq_zero]
    intro e he
    simpa using hlater e he
  rw [List.countP_cons_of_pos (by simpa using hdue)] at hcount
  have hsize := hperm.length_eq
  rw [List.length_cons] at hsize
  apply Prod.Lex.right
  dsimp only
  rw [hl, List.countP_append, List.length_append, hnone]
  omega

/-- One round of a check keeps what is known, and there is less left. -/
theorem Sweeping.round_cases (hclock : Monotone clock) (h : s.Sweeping clock w) :
    round clock s = .error .intOverflow ∨
    (s.left = 0 ∧ round clock s = .ok (.inr { s.wheel with lastCheckTime := s.current })) ∨
    ∃ s', round clock s = .ok (.inl s') ∧ s'.Sweeping clock w ∧ Smaller s' s := by
  unfold round
  by_cases hleft : s.left = 0
  · rw [if_pos hleft]
    exact .inr (.inl ⟨hleft, rfl⟩)
  · rw [if_neg hleft]
    cases hevent : (s.wheel.events s.slot)[s.iterator]? with
    | none =>
      have hnext : next s.slot = some (w.slotNumber (s.time w + 1)) := by
        rw [h.slot]
        exact next_slotNumber w (s.time w)
      dsimp only
      rw [hnext]
      exact .inr (.inr ⟨_, rfl, h.nextSlot hleft hevent, smaller_nextSlot hleft _⟩)
    | some event =>
      dsimp only
      split_ifs with hlater
      · have hlt := (List.getElem?_eq_some_iff.mp hevent).1
        exact .inr (.inr ⟨_, rfl, h.pass hevent hlater, smaller_pass hlt⟩)
      · have hdue : event.target ≤ s.current := not_lt.mp hlater
        rcases h.sound.fire hclock hevent hdue h.now with hbad | ⟨w', hfire, hsound, hfired⟩
        · rw [hbad]
          exact .inl rfl
        · rw [hfire]
          exact .inr (.inr ⟨_, rfl, h.fire hclock hevent hsound hfired,
            smaller_fire hevent hdue hfired⟩)

/-- Every second before the current one has the slot of a second that the check goes through. -/
theorem Sweeping.le_target (h : s.Sweeping clock w) (hleft : s.left = 0) {j : ℕ}
    {event : TimeoutEvent} (hevent : event ∈ s.wheel.events j) : s.current ≤ event.target := by
  by_contra hbefore
  have hlast := (h.sound.fits j event hevent).target
  rw [h.lastCheckTime] at hlast
  have hslot : j = w.slotNumber event.target := by
    have hj := h.sound.eq_slotNumber hevent
    rwa [slotNumber, h.startTime] at hj
  have hsecond : w.slotNumber (w.lastCheckTime + (event.target - w.lastCheckTime) % 60) =
      w.slotNumber event.target := by
    rw [slotNumber_eq_iff]
    omega
  have htime : s.time w = w.lastCheckTime + min (s.current - w.lastCheckTime) 60 := by
    rw [time, hleft]
    simp
  have hlater := h.swept (w.lastCheckTime + (event.target - w.lastCheckTime) % 60) (by omega)
    (by omega) event (by rwa [hsecond, ← hslot])
  omega

theorem Sweeping.done (h : s.Sweeping clock w) (hleft : s.left = 0) :
    Sound clock { s.wheel with lastCheckTime := s.current } where
  start := by
    have := h.sound.start
    have := h.later
    have := h.lastCheckTime
    change s.wheel.startTime ≤ s.current
    omega
  last := h.now
  fits j event hevent :=
    ⟨(h.sound.fits j event hevent).slot, h.le_target hleft hevent,
      (h.sound.fits j event hevent).range, (h.sound.fits j event hevent).made,
      (h.sound.fits j event hevent).opened⟩
  distinct := h.sound.distinct
  made := h.sound.made
  closed := h.sound.closed
  due := h.sound.due

end Check

theorem startCheck_cases (hclock : Monotone clock) (h : Sound clock w) (haccounted : Accounted w) :
    w.startCheck clock = .error .intOverflow ∨
      ∃ s : Check, w.startCheck clock = .ok s ∧ s.Sweeping clock w := by
  have hcurrent := h.last
  rcases addTimestamp_cases (clock w.readings) (-w.lastCheckTime) with hsum | hsum
  · apply Or.inl
    simp only [startCheck, TimeWheel.getTimestamp, hsum]
    rfl
  · rcases slotOf_cases h.start with hslot | hslot
    · apply Or.inl
      simp only [startCheck, TimeWheel.getTimestamp, hsum]
      change (w.slotOf w.lastCheckTime >>= _) = _
      rw [hslot]
      rfl
    · apply Or.inr
      refine ⟨⟨(w.getTimestamp clock).2, clock w.readings,
        (min (clock w.readings + -w.lastCheckTime) 60).toNat, w.slotNumber w.lastCheckTime, 0⟩,
        ?_, ?_⟩
      · simp only [startCheck, TimeWheel.getTimestamp, hsum]
        change (w.slotOf w.lastCheckTime >>= _) = _
        rw [hslot]
        rfl
      · have htime : (Check.time w ⟨(w.getTimestamp clock).2, clock w.readings,
            (min (clock w.readings + -w.lastCheckTime) 60).toNat, w.slotNumber w.lastCheckTime,
            0⟩) = w.lastCheckTime := by
          simp only [Check.time]
          omega
        constructor
        · exact h.getTimestamp hclock
        · exact haccounted
        · rfl
        · rfl
        · rfl
        · exact hcurrent
        · exact hclock (Nat.le_succ _)
        · dsimp only
          omega
        · rw [htime]
        · intro t hlast ht
          omega
        · intro e he
          cases he
        · exact ⟨[], by simp [TimeWheel.getTimestamp], fun j e he _ => .inl he⟩

/-- What a check that begins on the wheel has done when it ends. -/
structure Checked (clock : ℕ → ℤ) (w w' : TimeWheel) : Prop where
  sound : Sound clock w'
  accounted : Accounted w'
  fired : ∃ fired, w'.log = w.log ++ fired ∧
    ∀ j, ∀ e ∈ w.events j, e.target < clock w.readings →
      ∃ firing, .fired firing ∈ fired ∧ firing.id = e.id ∧ firing.target = e.target

theorem checked_of_delivers (hclock : Monotone clock) (hs : s.Sweeping clock w)
    (h : Delivers (Check.round clock) s w') : Checked clock w w' := by
  apply h.invariant (I := fun s => s.Sweeping clock w) _ _ hs
  · intro s s' hs hround
    rcases hs.round_cases hclock with hbad | ⟨-, hdone⟩ | ⟨t, hmore, ht, -⟩
    · cases hround.symm.trans hbad
    · cases hround.symm.trans hdone
    · obtain rfl := Sum.inl.inj (Except.ok.inj (hround.symm.trans hmore))
      exact ht
  · intro s w' hs hround
    rcases hs.round_cases hclock with hbad | ⟨hleft, hdone⟩ | ⟨t, hmore, -, -⟩
    · cases hround.symm.trans hbad
    · obtain rfl := Sum.inr.inj (Except.ok.inj (hround.symm.trans hdone))
      refine ⟨hs.done hleft, hs.accounted, ?_⟩
      obtain ⟨fired, hlog, hfired⟩ := hs.log
      refine ⟨fired, hlog, ?_⟩
      intro j e he hdue
      rw [← hs.current] at hdue
      rcases hfired j e he hdue.le with hstay | hgone
      · exact absurd (hs.le_target hleft hstay) (not_le.mpr hdue)
      · exact hgone
    · cases hround.symm.trans hmore

theorem sound_new (hclock : Monotone clock) : Sound clock (new clock) where
  start := le_rfl
  last := hclock (Nat.zero_le 1)
  fits j e he := by cases he
  distinct := ⟨fun j => List.nodup_nil, fun i j e he => by cases he⟩
  made a ha := by cases ha
  closed := List.Pairwise.nil
  due firing h := by cases h

theorem accounted_new : Accounted (new clock) := by
  intro i hi
  cases hi

theorem sound_of_steps (hclock : Monotone clock)
    (h : Relation.ReflTransGen (Step clock) (new clock) w) : Sound clock w ∧ Accounted w := by
  induction h with
  | refl => exact ⟨sound_new hclock, accounted_new⟩
  | tail _ hstep ih =>
    obtain ⟨hsound, haccounted⟩ := ih
    cases hstep with
    | delay hseconds hrepeats hdelay =>
      exact ⟨hsound.delay hclock hseconds hrepeats hdelay, haccounted.delay hdelay⟩
    | cancel hevent hcancel =>
      exact ⟨hsound.cancel hevent hcancel, haccounted.cancel hsound hevent hcancel⟩
    | check hstart hdelivers =>
      rcases startCheck_cases hclock hsound haccounted with hbad | ⟨s, hs, hsweeping⟩
      · cases hstart.symm.trans hbad
      · obtain rfl := Except.ok.inj (hstart.symm.trans hs)
        have hchecked := checked_of_delivers hclock hsweeping hdelivers
        exact ⟨hchecked.sound, hchecked.accounted⟩

/-- Events are fired on time: not before their targets, and at the latest by a check that comes
after it; what does not exist any more is not fired. A check ends, or stops at a sum of times that
is not a timestamp. -/
theorem fires_on_time (hclock : Monotone clock)
    (h : Relation.ReflTransGen (Step clock) (new clock) w) :
    (∀ firing, .fired firing ∈ w.log → firing.target ≤ firing.current) ∧
    (∀ i < w.made, (∃ j, ∃ event ∈ w.events j, event.id = i) ∨ ∃ a ∈ w.log, a.closes ∧ a.id = i) ∧
    (w.log.Pairwise fun a b => a.closes → b.id ≠ a.id) ∧
    (∀ a ∈ w.log, a.closes → ∀ j, ∀ event ∈ w.events j, event.id ≠ a.id) ∧
    (∀ j, ∀ event ∈ w.events j, ∃ w', w.cancel event = .ok w') ∧
    (w.startCheck clock = .error .intOverflow ∨ ∃ s, w.startCheck clock = .ok s ∧
      ((∃ w', Delivers (Check.round clock) s w') ∨ ∃ s', Visits (Check.round clock) s s' ∧
        Check.round clock s' = .error .intOverflow) ∧
      ∀ w', Delivers (Check.round clock) s w' → ∃ fired, w'.log = w.log ++ fired ∧
        ∀ j, ∀ event ∈ w.events j, event.target < clock w.readings →
          ∃ firing, .fired firing ∈ fired ∧ firing.id = event.id ∧
            firing.target = event.target) := by
  obtain ⟨hsound, haccounted⟩ := sound_of_steps hclock h
  refine ⟨hsound.due, haccounted, hsound.closed, ?_, ?_, ?_⟩
  · intro a ha hcloses j event hevent
    exact (hsound.fits j event hevent).opened a ha hcloses
  · intro j event hevent
    exact ⟨_, hsound.cancel_eq hevent⟩
  · rcases startCheck_cases hclock hsound haccounted with hbad | ⟨s, hs, hsweeping⟩
    · exact .inl hbad
    · refine .inr ⟨s, hs, ?_, fun w' hw' => (checked_of_delivers hclock hsweeping hw').fired⟩
      apply delivers_or_stops Check.wellFounded_smaller (I := fun s => s.Sweeping clock w) _
        hsweeping
      intro s hs
      rcases hs.round_cases hclock with hbad | ⟨-, hdone⟩ | hmore
      · exact .inl hbad
      · exact .inr (.inl ⟨_, hdone⟩)
      · exact .inr (.inr hmore)

/-- Two events, of which one is due at the check. -/
theorem fires_on_time_sample : ∃ (w : TimeWheel) (s : Check) (w' : TimeWheel),
    Relation.ReflTransGen (Step Nat.cast) (new Nat.cast) w ∧
    w.events 2 = [⟨0, 1, 2, true⟩] ∧ w.events 7 = [⟨1, 5, 7, false⟩] ∧
    w.startCheck Nat.cast = .ok s ∧ Delivers (Check.round Nat.cast) s w' ∧
    (∃ firing, .fired firing ∈ w'.log ∧ firing.id = 0 ∧ firing.target = 2) ∧
    ∀ firing, .fired firing ∈ w'.log → firing.target ≤ firing.current := by
  have hrun : (do
      let w₁ ← (new Nat.cast).delay Nat.cast 1 true
      let w ← w₁.delay Nat.cast 5 false
      let s ← w.startCheck Nat.cast
      let _ ← iterate .overread (Check.round Nat.cast) 9 s
      return (w.events 2, w.events 7, w.readings) : Except Fault _) =
      .ok ([⟨0, 1, 2, true⟩], [⟨1, 5, 7, false⟩], 3) := by decide +kernel
  obtain ⟨w₁, hfirst, hr⟩ := bind_eq_ok.mp hrun
  obtain ⟨w, hsecond, hr⟩ := bind_eq_ok.mp hr
  obtain ⟨s, hstart, hr⟩ := bind_eq_ok.mp hr
  obtain ⟨w', hrounds, hr⟩ := bind_eq_ok.mp hr
  simp only [pure_eq_ok, Except.ok.injEq, Prod.mk.injEq] at hr
  obtain ⟨hdue, hlate, hreadings⟩ := hr
  have hsteps : Relation.ReflTransGen (Step Nat.cast) (new Nat.cast) w :=
    (Relation.ReflTransGen.single (.delay (by decide) (fun _ => by decide) hfirst)).tail
      (.delay (by decide) (fun h => by cases h) hsecond)
  have hdelivers : Delivers (Check.round Nat.cast) s w' :=
    (delivers_iff_iterate .overread).mpr ⟨_, hrounds⟩
  have hontime := fires_on_time Nat.mono_cast hsteps
  refine ⟨w, s, w', hsteps, hdue, hlate, hstart, hdelivers, ?_, ?_⟩
  · rcases hontime.2.2.2.2.2 with hbad | ⟨s', hs', -, hfires⟩
    · cases hbad.symm.trans hstart
    · obtain rfl := Except.ok.inj (hs'.symm.trans hstart)
      obtain ⟨fired, hlog, hall⟩ := hfires w' hdelivers
      obtain ⟨firing, hmem, hid, htarget⟩ := hall 2 ⟨0, 1, 2, true⟩
        (hdue ▸ List.mem_singleton_self _) (by rw [hreadings]; decide)
      exact ⟨firing, hlog ▸ List.mem_append_right _ hmem, hid, htarget⟩
  · exact (fires_on_time Nat.mono_cast (hsteps.tail (.check hstart hdelivers))).1

/-- A delay of the largest number of seconds, when the clock is past its zero. -/
theorem delay_overflows :
    (new fun _ => 1).delay (fun _ => 1) (2 ^ 63 - 1) false = .error .intOverflow := by
  have hsum : Timer.addTimestamp 1 (2 ^ 63 - 1) = .error .intOverflow := by
    rw [Timer.addTimestamp, if_neg (by norm_num)]
  simp only [delay, TimeWheel.getTimestamp, hsum]
  rfl

end TimeWheel
end Sese
