import Sese.Service.Http.Transitions

/-!
# The windows of the peer

`endpoint_window_size` of the connection and of its streams, which WINDOW_UPDATE
frames raise. The increment is taken from the frame with its reserved bit, and the
sum of the connection is checked with the initial window of the streams in the place
of the window that is raised. A run in which neither makes a difference keeps all
windows within 31 bits and treats every update as it should.
-/
namespace Sese.Service.Http

open Foundation Sese.Net.Http

namespace HttpConnectionEx

variable {env : Env} {c₀ c c' : HttpConnectionEx} {id : ℕ} {s s' : HttpStream}

def maxWindow : ℕ := 2 ^ 31 - 1

structure InRange (c : HttpConnectionEx) : Prop where
  connection : c.endpointWindowSize ≤ maxWindow
  initial : c.endpointInitWindowSize ≤ maxWindow
  streams : c.AllHeld fun s => s.endpointWindowSize ≤ maxWindow

def increment (c : HttpConnectionEx) : ℕ := fromBigEndian (c.slice 0 4) % 2 ^ 31

/-- While `c₀` became `c'` the frame was answered with GOAWAY and FLOW_CONTROL_ERROR. -/
def RefusedOverflow (c₀ c' : HttpConnectionEx) : Prop :=
  ∃ t, c'.trace = t ++ c₀.trace ∧ .goaway c₀.frame goawayFlowControlError ∈ t

def ResetOverflow (c₀ c' : HttpConnectionEx) : Prop :=
  ∃ t f, c'.trace = t ++ c₀.trace ∧ .put f ∈ t ∧ f.type = frameTypeRstStream ∧
    f.ident = c₀.frame.ident ∧ f.content = toBigEndian32 goawayFlowControlError

/-- What a WINDOW_UPDATE frame should do: the increment is added without wrapping
around, unless the sum is above the largest window; such a frame is answered with
FLOW_CONTROL_ERROR and changes nothing. -/
structure UpdateMeets (c₀ c' : HttpConnectionEx) : Prop where
  connection : c₀.frame.ident = 0 →
    if c₀.endpointWindowSize + c₀.increment ≤ maxWindow then
      c'.endpointWindowSize = c₀.endpointWindowSize + c₀.increment
    else c'.endpointWindowSize = c₀.endpointWindowSize ∧ RefusedOverflow c₀ c'
  stream : c₀.frame.ident ≠ 0 → ∀ s, c₀.streams.find? c₀.frame.ident = some s →
    ∃ s', c'.held c₀.frame.ident = some s' ∧
      if s.endpointWindowSize + c₀.increment ≤ maxWindow then
        s'.endpointWindowSize = s.endpointWindowSize + c₀.increment
      else s'.endpointWindowSize = s.endpointWindowSize ∧ ResetOverflow c₀ c'

/-- The frame is a WINDOW_UPDATE that is not refused before its increment is read. -/
def isUpdate (c : HttpConnectionEx) : Bool :=
  !c.interrupts && c.frame.type = frameTypeWindowUpdate && c.frame.length = 4

/-- Every WINDOW_UPDATE frame that completes with the event does what it should. -/
def UpdatesMeet (c : HttpConnectionEx) (e : Env × Event) : Prop :=
  ∀ c₀ ∈ c.delivered e.2, c₀.isUpdate → ∀ c', c₀.handleFrameHeader e.1 = .ok c' → UpdateMeets c₀ c'

/-- The reserved bit of a WINDOW_UPDATE frame is clear and, on the connection, the
check with the initial window of the streams finds what one with the window of the
connection finds. -/
def plainUpdate (c : HttpConnectionEx) : Bool :=
  !c.isUpdate ||
    (if c.frame.ident = 0 then
      fromBigEndian (c.slice 0 4) < 2 ^ 31 &&
        isAdditionOverflow (toInt32 c.endpointInitWindowSize)
            (toInt32 (fromBigEndian (c.slice 0 4))) =
          decide (c.endpointWindowSize + fromBigEndian (c.slice 0 4) > maxWindow)
    else !c.streams.contains c.frame.ident || fromBigEndian (c.slice 0 4) < 2 ^ 31)

/-- On windows within 31 bits the signed check is exact. -/
theorem isAdditionOverflow_eq {a b : ℕ} (ha : a ≤ maxWindow) (hb : b < 2 ^ 31) :
    isAdditionOverflow (toInt32 a) (toInt32 b) = decide (a + b > maxWindow) := by
  unfold maxWindow at ha ⊢
  have ha' : toInt32 a = a := by
    unfold toInt32
    split_ifs <;> omega
  have hb' : toInt32 b = b := by
    unfold toInt32
    split_ifs <;> omega
  rw [Bool.eq_iff_iff, isAdditionOverflow, ha', hb']
  simp only [Bool.or_eq_true, Bool.and_eq_true, decide_eq_true_eq]
  omega

theorem applySetting_initWindow {ident value code : ℕ}
    (h : c.applySetting ident value = .ok (code, c')) :
    c'.endpointInitWindowSize = c.endpointInitWindowSize ∨
      c'.endpointInitWindowSize ≤ maxWindow := by
  cases applySetting_outcome h with
  | initialWindowSize _ _ hvalue => exact .inr hvalue
  | headerTableSize | maxConcurrentStreams | maxFrameSize | frameSizeRefused | enablePush
  | pushRefused | maxHeaderListSize | windowRefused | unknown => exact .inl rfl

theorem handleWrite_endpointWindowSize (h : c.handleWrite = .ok c') :
    c'.endpointWindowSize = c.endpointWindowSize ∧
      c'.endpointInitWindowSize = c.endpointInitWindowSize := by
  refine handleWrite_invariant (P := fun d => d.endpointWindowSize = c.endpointWindowSize ∧
    d.endpointInitWindowSize = c.endpointInitWindowSize) ?_ ?_ ?_ ?_ ?_ ?_ h ⟨rfl, rfl⟩
  · exact fun _ hd _ => hd
  · exact fun _ hd => hd
  · exact fun _ _ _ _ hd _ _ => hd
  · exact fun _ _ _ _ hd _ _ _ => hd
  · exact fun _ _ _ _ hd _ _ _ => hd
  · intro d hd _
    unfold flush
    split_ifs <;> exact hd

theorem InRange.handleWrite (h : c.handleWrite = .ok c') (hc : c.InRange) : c'.InRange := by
  obtain ⟨hconn, hinit⟩ := handleWrite_endpointWindowSize h
  refine ⟨hconn ▸ hc.connection, hinit ▸ hc.initial, ?_⟩
  exact AllHeld.handleWrite (fun s s' hs hle => hs.endpointWindowSize ▸ hle) h hc.streams

theorem InRange.pushed {f : Http2Frame} (h : (c.push f).handleWrite = .ok c') (hc : c.InRange) :
    c'.InRange :=
  InRange.handleWrite h ⟨hc.connection, hc.initial, hc.streams.congr rfl rfl⟩

theorem InRange.setHeld (hc : c.InRange) (id : ℕ) (hs : s.endpointWindowSize ≤ maxWindow) :
    (c.setHeld id s).InRange := by
  have hstreams := hc.streams.setHeld id hs
  refine ⟨?_, ?_, hstreams⟩
  · unfold HttpConnectionEx.setHeld
    split_ifs <;> exact hc.connection
  · unfold HttpConnectionEx.setHeld
    split_ifs <;> exact hc.initial

theorem InRange.credit {i : ℕ} (hok : c.plainUpdate) (hint : c.interrupts = false)
    (hframe : c.Credits i) (hident : c.frame.ident = 0)
    (hcheck : isAdditionOverflow (toInt32 c.endpointInitWindowSize) (toInt32 i) = false) :
    i < 2 ^ 31 ∧ c.endpointWindowSize + i ≤ maxWindow := by
  obtain ⟨htype, hlen, rfl, -⟩ := hframe
  simp only [plainUpdate, isUpdate, hint, htype, hlen, hident, if_true, hcheck, Bool.not_false,
    decide_true, Bool.and_self, Bool.not_true, Bool.false_or, Bool.and_eq_true,
    decide_eq_true_eq] at hok
  simpa using hok

theorem InRange.creditStream {i : ℕ} (hc : c.InRange) (hok : c.plainUpdate)
    (hint : c.interrupts = false) (hframe : c.Credits i) (hident : c.frame.ident ≠ 0)
    (hfind : c.streams.find? c.frame.ident = some s)
    (hcheck : isAdditionOverflow (toInt32 s.endpointWindowSize) (toInt32 i) = false) :
    i < 2 ^ 31 ∧ s.endpointWindowSize + i ≤ maxWindow := by
  have hs : s.endpointWindowSize ≤ maxWindow := hc.streams.find? hfind
  obtain ⟨htype, hlen, rfl, -⟩ := hframe
  have hsmall : fromBigEndian (c.slice 0 4) < 2 ^ 31 := by
    simpa [plainUpdate, isUpdate, hint, htype, hlen, hident, OrdMap.contains, hfind] using hok
  rw [isAdditionOverflow_eq hs hsmall] at hcheck
  exact ⟨hsmall, by simpa using hcheck⟩

theorem InRange.action (hok : c₀.plainUpdate) (hint : c₀.interrupts = false)
    (h : Action env c₀ c c') (hc : c.InRange) : c'.InRange := by
  cases h with
  | write h => exact hc.handleWrite h
  | control | goaway | exceeded | once | read | latest | acked =>
    exact ⟨hc.connection, hc.initial, hc.streams.congr rfl rfl⟩
  | opened => exact ⟨hc.connection, hc.initial, hc.streams.openStream _ hc.initial⟩
  | touch hfind =>
    have hs := hc.streams.find? hfind
    exact ⟨hc.connection, hc.initial, hc.streams.setStream _ hs⟩
  | touchHeld hheld | body hheld =>
    have hs := hc.streams _ _ hheld
    exact hc.setHeld _ hs
  | fragment _ _ hfind _ hphase | undecodable _ _ _ _ _ _ hfind _ hphase
  | unconvertible _ _ _ _ _ hfind _ hphase | completed _ _ _ _ _ hfind _ hphase
  | answered _ _ _ _ _ _ hfind _ hphase =>
    have hs := hc.streams.find? hfind
    rw [← hphase.endpointWindowSize] at hs
    exact ⟨hc.connection, hc.initial, (hc.streams.setStream _ hs).congr rfl rfl⟩
  | accept _ _ hheld =>
    have hs := hc.streams _ _ hheld
    refine InRange.setHeld ?_ _ hs
    exact ⟨hc.connection, hc.initial, hc.streams.congr rfl rfl⟩
  | respond _ hheld hphase =>
    have hs := hc.streams _ _ hheld
    refine InRange.setHeld ?_ _ (hphase.endpointWindowSize.trans_le hs)
    exact ⟨hc.connection, hc.initial, hc.streams.congr rfl rfl⟩
  | replenish h =>
    have hd := hc.pushed h
    exact ⟨hd.connection, hd.initial, hd.streams.congr rfl rfl⟩
  | replenishStream h hheld =>
    have hd := hc.pushed h
    have hs := hd.streams _ _ hheld
    exact hd.setHeld _ hs
  | credit i hframe hident hcheck hfirst =>
    subst hfirst
    obtain ⟨-, hle⟩ := InRange.credit hok hint hframe hident hcheck
    exact ⟨(Nat.mod_le _ _).trans hle, hc.initial, hc.streams.congr rfl rfl⟩
  | creditStream i hident hfind hframe hcheck hfirst =>
    subst hfirst
    obtain ⟨-, hle⟩ := hc.creditStream hok hint hframe hident hfind hcheck
    refine ⟨hc.connection, hc.initial, (hc.streams.setStream _ ?_).congr rfl rfl⟩
    exact (Nat.mod_le _ _).trans hle
  | setting _ _ h =>
    have hinit := applySetting_initWindow h
    obtain ⟨_, _, _, _, _, _, _, _, _, rfl, -⟩ := applySetting_eq h
    refine ⟨hc.connection, ?_, hc.streams.congr rfl rfl⟩
    rcases hinit with hinit | hinit
    · exact hinit ▸ hc.initial
    · exact hinit
  | reset _ hfind =>
    have hs := hc.streams.find? hfind
    exact ⟨hc.connection, hc.initial, (hc.streams.retire _ hs).congr rfl rfl⟩

theorem InRange.goaway {latest code : ℕ} {msg : Bytes} {once : Bool}
    (h : c.writeGoawayFrame latest code msg once = .ok c') (hc : c.InRange) : c'.InRange := by
  cases once with
  | true =>
    cases h
    exact ⟨hc.connection, hc.initial, hc.streams.congr rfl rfl⟩
  | false =>
    refine InRange.handleWrite h ?_
    exact ⟨hc.connection, hc.initial, hc.streams.congr rfl rfl⟩

theorem InRange.frame (hread : c₀.isRead = false) (hok : c₀.plainUpdate) (hc : c₀.InRange)
    (h : c₀.handleFrameHeader env = .ok c') : c'.InRange := by
  cases hint : c₀.interrupts with
  | true =>
    rw [handleFrameHeader_interrupts hint] at h
    exact hc.goaway h
  | false =>
    have hacts := handleFrameHeader_actions hread h
    exact hacts.invariant (fun _ _ hact hd => hd.action hok hint hact) hc

theorem InRange.outcome {e : Event} (hok : onFrame (fun c₀ => c₀.plainUpdate) c (env, e))
    (h : Outcome env c e c') (hc : c.InRange) : c'.InRange := by
  cases h with
  | more | stranger | tooLong | header | readFailed | lastWritten | writeFailed =>
    exact ⟨hc.connection, hc.initial, hc.streams.congr rfl rfl⟩
  | greeted _ _ h =>
    refine InRange.handleWrite h ?_
    exact ⟨hc.connection, hc.initial, hc.streams.congr rfl rfl⟩
  | written _ h =>
    refine InRange.handleWrite h ?_
    exact ⟨hc.connection, hc.initial, hc.streams.congr rfl rfl⟩
  | frame _ hc₀ hdel _ h =>
    refine InRange.frame (by rw [hc₀]; rfl) (hok _ hdel) ?_ h
    rw [hc₀]
    exact ⟨hc.connection, hc.initial, hc.streams.congr rfl rfl⟩

section Update

variable (hup : c₀.isUpdate) (hok : c₀.plainUpdate) (hc : c₀.InRange)
  (h : c₀.handleWindowUpdate = .ok c')

include hup hok hc h

theorem update_connection (hident : c₀.frame.ident = 0) :
    if c₀.endpointWindowSize + c₀.increment ≤ maxWindow then
      c'.endpointWindowSize = c₀.endpointWindowSize + c₀.increment
    else c'.endpointWindowSize = c₀.endpointWindowSize ∧ RefusedOverflow c₀ c' := by
  have hlen : c₀.frame.length = 4 := by
    simp only [isUpdate, Bool.and_eq_true, decide_eq_true_eq] at hup
    exact hup.2
  simp only [plainUpdate, hup, hident, if_true, Bool.not_true, Bool.false_or, Bool.and_eq_true,
    decide_eq_true_eq] at hok
  obtain ⟨hsmall, hcheck⟩ := hok
  have hinc : c₀.increment = fromBigEndian (c₀.slice 0 4) := Nat.mod_eq_of_lt hsmall
  have hconn := hc.connection
  unfold handleWindowUpdate at h
  simp only [hlen, hident, ne_eq, not_true_eq_false, if_false, if_true, hcheck,
    decide_eq_true_eq] at h
  rw [hinc]
  split_ifs at h with hzero hover
  · rw [hzero, Nat.add_zero, if_pos hconn]
    exact (handleWrite_endpointWindowSize h).1
  · rw [if_neg (not_le.mpr hover)]
    refine ⟨(handleWrite_endpointWindowSize h).1, ?_⟩
    obtain ⟨t, ht, -⟩ := (goaway_kept h).trace
    refine ⟨t ++ [.goaway c₀.frame goawayFlowControlError], ?_, by simp⟩
    rw [ht, List.append_assoc]
    rfl
  · cases h
    rw [if_pos (not_lt.mp hover)]
    refine Nat.mod_eq_of_lt ?_
    unfold maxWindow at hover
    omega

theorem update_stream (hident : c₀.frame.ident ≠ 0)
    (hfind : c₀.streams.find? c₀.frame.ident = some s) :
    ∃ s', c'.held c₀.frame.ident = some s' ∧
      if s.endpointWindowSize + c₀.increment ≤ maxWindow then
        s'.endpointWindowSize = s.endpointWindowSize + c₀.increment
      else s'.endpointWindowSize = s.endpointWindowSize ∧ ResetOverflow c₀ c' := by
  have hlen : c₀.frame.length = 4 := by
    simp only [isUpdate, Bool.and_eq_true, decide_eq_true_eq] at hup
    exact hup.2
  have hsmall : fromBigEndian (c₀.slice 0 4) < 2 ^ 31 := by
    simpa [plainUpdate, hup, hident, OrdMap.contains, hfind] using hok
  have hinc : c₀.increment = fromBigEndian (c₀.slice 0 4) := Nat.mod_eq_of_lt hsmall
  have hs : s.endpointWindowSize ≤ maxWindow := hc.streams.find? hfind
  unfold handleWindowUpdate at h
  simp only [hlen, hident, ne_eq, not_true_eq_false, if_false, hfind,
    isAdditionOverflow_eq hs hsmall, decide_eq_true_eq] at h
  rw [hinc]
  split_ifs at h with hzero hover
  · obtain ⟨s', hheld, hsent⟩ := (goaway_kept h).held _ s (held_of_find? hfind)
    refine ⟨s', hheld, ?_⟩
    rw [hzero, Nat.add_zero, if_pos hs]
    exact hsent.endpointWindowSize
  · obtain ⟨s', hheld, hsent⟩ := (pushed_kept h).held _ _ held_setStream_self
    refine ⟨s', hheld, ?_⟩
    rw [if_neg (not_le.mpr hover)]
    refine ⟨hsent.endpointWindowSize, ?_⟩
    obtain ⟨t, ht, -⟩ := (handleWrite_kept h).trace
    let f : Http2Frame := {
      type := frameTypeRstStream
      ident := c₀.frame.ident
      length := 4
      content := toBigEndian32 goawayFlowControlError }
    refine ⟨t ++ [.put f], f, ?_, by simp, rfl, rfl, rfl⟩
    rw [ht, List.append_assoc]
    rfl
  · cases h
    refine ⟨_, held_setStream_self, ?_⟩
    rw [if_pos (not_lt.mp hover)]
    refine Nat.mod_eq_of_lt ?_
    unfold maxWindow at hover
    omega

end Update

theorem UpdateMeets.of_frame (hup : c₀.isUpdate) (hok : c₀.plainUpdate) (hc : c₀.InRange)
    (h : c₀.handleFrameHeader env = .ok c') : UpdateMeets c₀ c' := by
  have hfacts : c₀.interrupts = false ∧ c₀.frame.type = frameTypeWindowUpdate := by
    simp only [isUpdate, Bool.and_eq_true, Bool.not_eq_true', decide_eq_true_eq] at hup
    exact hup.1
  have hupdate : c₀.handleWindowUpdate = .ok c' := by
    have hother : c₀.frame.type ≠ frameTypeSettings := by rw [hfacts.2]; decide
    unfold handleFrameHeader at h
    dsimp only at h
    rwa [if_neg (by simp [hfacts.1]), if_neg hother, if_pos hfacts.2] at h
  exact ⟨fun hident => update_connection hup hok hc hupdate hident,
    fun hident s hfind => update_stream hup hok hc hupdate hident hfind⟩

/-- In every run whose WINDOW_UPDATE frames are plain, all windows of the peer stay
within 31 bits, and every update does what it should. -/
theorem peerWindows_inRange {es : List (Env × Event)}
    (hrun : RunWhere step (onFrame fun c₀ => c₀.plainUpdate) start es c) :
    c.InRange ∧ RunWhere step UpdatesMeet start es c := by
  have hstart : start.InRange := by
    refine ⟨by decide, by decide, ?_⟩
    intro id s hs
    cases hs
  have hstep : ∀ c e c', InRange c → onFrame (fun c₀ => c₀.plainUpdate) c e →
      c.step e = .ok c' → c'.InRange := by
    intro c e c' hc hok hst
    exact hc.outcome hok (step_outcome hst)
  refine ⟨hrun.invariant InRange hstep hstart, hrun.strengthen InRange hstep ?_ hstart⟩
  intro c e hc hok c₀ hdel hup c' h
  refine UpdateMeets.of_frame hup (hok c₀ hdel) ?_ h
  obtain ⟨i, op, data, rfl⟩ := delivered_eq_some hdel
  exact ⟨hc.connection, hc.initial, hc.streams.congr rfl rfl⟩

def windowUpdate (increment : ℕ) : List (Env × Event) :=
  incoming (servletService []) frameTypeWindowUpdate 0 0 (toBigEndian32 increment)

/-- The window of the connection is raised from 65535 to its maximum. -/
theorem peerWindows_inRange_max : ∃ es c, RunWhere step UpdatesMeet start es c ∧ c.InRange ∧
    c.endpointWindowSize = maxWindow := by
  obtain ⟨c, hrun, hc⟩ := exists_run_of_any step (onFrame fun c₀ => c₀.plainUpdate) start
    (greeting (servletService []) ++ windowUpdate (maxWindow - 65535))
    (fun c => c.endpointWindowSize = maxWindow) (by decide +kernel)
  obtain ⟨hrange, hmeets⟩ := peerWindows_inRange hrun
  exact ⟨_, c, hmeets, hrange, by simpa using hc⟩

/-- Two increments that each pass the check with 65535 leave the window above its
maximum. -/
theorem raisedRun_not_inRange : ∃ c, RunWhere step Unrestricted start
    (greeting (servletService []) ++ windowUpdate (maxWindow - 65535) ++ windowUpdate 1) c ∧
    c.endpointWindowSize = 2 ^ 31 ∧ ¬ c.InRange := by
  obtain ⟨c, hrun, hc⟩ := exists_run_of_any step Unrestricted start
    (greeting (servletService []) ++ windowUpdate (maxWindow - 65535) ++ windowUpdate 1)
    (fun c => c.endpointWindowSize = 2 ^ 31) (by decide +kernel)
  have hsize : c.endpointWindowSize = 2 ^ 31 := by simpa using hc
  refine ⟨c, hrun, hsize, fun h => ?_⟩
  have hle := h.connection
  rw [hsize] at hle
  exact absurd hle (by decide)

end HttpConnectionEx
end Sese.Service.Http
