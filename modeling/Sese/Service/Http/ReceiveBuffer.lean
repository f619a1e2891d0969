import Sese.Service.Http.Transitions

/-!
# The receive buffer

`temp_buffer` has room for `MAX_FRAME_SIZE` octets. The length of a payload is
compared with `endpoint_max_frame_size`, the limit for frames that the server
sends; a SETTINGS frame of the peer raises it beyond the size of the buffer.
-/
namespace Sese.Service.Http

open Foundation Sese.Net.Http

namespace HttpConnectionEx

variable {env : Env} {c₀ c c' : HttpConnectionEx}

/-- The lengths that were asked for by `readBlock`. -/
def readLengths : List Obs → List ℕ
  | [] => []
  | .readBlock n :: t => n :: readLengths t
  | _ :: t => readLengths t

/-- A setting of the frame that is applied is a frame size above 16384. -/
def raisesFrameSize (c : HttpConnectionEx) : Bool :=
  c.appliedSettings.any fun setting =>
    setting.1 = settingsMaxFrameSize && localMaxFrameSize < setting.2

/-- Every read that was started fits into the buffer, and so will the next one. -/
structure ReadsFit (c : HttpConnectionEx) : Prop where
  limit : c.endpointMaxFrameSize ≤ localMaxFrameSize
  outstanding : ∀ op ∈ c.reads, op.length ≤ localMaxFrameSize
  issued : ∀ n ∈ readLengths c.trace, n ≤ localMaxFrameSize

theorem ReadsFit.readBlock (hc : c.ReadsFit) (kind : ReadKind) (offset : ℕ) {length : ℕ}
    (hlen : length ≤ localMaxFrameSize) : (c.readBlock kind offset length).ReadsFit := by
  refine ⟨hc.limit, fun op hop => ?_, fun n hn => ?_⟩
  · rcases List.mem_append.mp hop with hop | hop
    · exact hc.outstanding op hop
    · rw [List.mem_singleton.mp hop]
      exact hlen
  · rcases List.mem_cons.mp hn with rfl | hn
    · exact hlen
    · exact hc.issued n hn

theorem ReadsFit.readFrameHeader (hc : c.ReadsFit) : c.readFrameHeader.ReadsFit :=
  hc.readBlock _ _ (by decide)

theorem ReadsFit.setHeld (hc : c.ReadsFit) (id : ℕ) (s : HttpStream) : (c.setHeld id s).ReadsFit := by
  unfold HttpConnectionEx.setHeld
  split_ifs <;> exact ⟨hc.limit, hc.outstanding, hc.issued⟩

theorem ReadsFit.handleWrite (h : c.handleWrite = .ok c') (hc : c.ReadsFit) : c'.ReadsFit := by
  refine handleWrite_invariant (P := ReadsFit) ?_ ?_ ?_ ?_ ?_ ?_ h hc
  · exact fun _ hd _ => hd.readFrameHeader
  · exact fun _ hd => ⟨hd.limit, hd.outstanding, hd.issued⟩
  · exact fun _ _ _ _ hd _ _ => ⟨hd.limit, hd.outstanding, hd.issued⟩
  · exact fun _ _ _ _ hd _ _ _ => ⟨hd.limit, hd.outstanding, hd.issued⟩
  · exact fun _ _ _ _ hd _ _ _ => ⟨hd.limit, hd.outstanding, hd.issued⟩
  · intro d hd _
    unfold flush
    split_ifs <;> exact ⟨hd.limit, hd.outstanding, hd.issued⟩

theorem ReadsFit.pushed {f : Http2Frame} (h : (c.push f).handleWrite = .ok c') (hc : c.ReadsFit) :
    c'.ReadsFit :=
  ReadsFit.handleWrite h ⟨hc.limit, hc.outstanding, hc.issued⟩

theorem ReadsFit.action (hok : c₀.raisesFrameSize = false) (h : Action env c₀ c c')
    (hc : c.ReadsFit) : c'.ReadsFit := by
  cases h with
  | write h => exact hc.handleWrite h
  | control | goaway | exceeded | once | opened | latest | touch | fragment | undecodable
  | unconvertible | completed | answered | credit | creditStream | acked | reset =>
    exact ⟨hc.limit, hc.outstanding, hc.issued⟩
  | read => exact hc.readFrameHeader
  | touchHeld | body => exact hc.setHeld _ _
  | accept | respond =>
    refine ReadsFit.setHeld ?_ _ _
    exact ⟨hc.limit, hc.outstanding, hc.issued⟩
  | replenish h =>
    have hd := hc.pushed h
    exact ⟨hd.limit, hd.outstanding, hd.issued⟩
  | replenishStream h => exact (hc.pushed h).setHeld _ _
  | setting _ hmem h =>
    obtain ⟨_, _, _, _, _, _, _, _, _, rfl, hmax⟩ := applySetting_eq h
    refine ⟨?_, hc.outstanding, hc.issued⟩
    rcases hmax with rfl | ⟨rfl, rfl, -, -⟩
    · exact hc.limit
    · -- the only setting that changes the limit
      by_contra hlarge
      have hraises : c₀.raisesFrameSize = true := by
        simp only [raisesFrameSize, List.any_eq_true]
        exact ⟨_, hmem, by simpa using hlarge⟩
      rw [hok] at hraises
      cases hraises

/-- In every run in which no SETTINGS frame raises the frame size above the size of
the buffer, no read asks for more than the buffer holds. -/
theorem reads_fit_buffer {es : List (Env × Event)}
    (hrun : RunWhere step (onFrame fun c₀ => c₀.raisesFrameSize = false) start es c) :
    ∀ n ∈ readLengths c.trace, n ≤ localMaxFrameSize := by
  have hstart : start.ReadsFit := ⟨by decide, by decide, by decide⟩
  refine (run_invariant ReadsFit hstart ?_ hrun).issued
  intro c env e c' hc hok h
  have hended : ∀ i, (c.endRead i).ReadsFit := by
    intro i
    refine ⟨hc.limit, fun op hop => hc.outstanding op ?_, hc.issued⟩
    exact List.mem_of_mem_eraseIdx hop
  have hreceived : ∀ i op data, (c.received i op data).ReadsFit := fun i op data =>
    ⟨hc.limit, (hended i).outstanding, hc.issued⟩
  cases h with
  | @more i op data hop hlen =>
    have hle := hc.outstanding op (List.mem_of_getElem? hop)
    exact (hreceived i op data).readBlock _ _ (by omega)
  | @stranger i op data => exact ⟨hc.limit, (hended i).outstanding, hc.issued⟩
  | @greeted i op data f _ _ _ h =>
    exact ReadsFit.pushed h ⟨hc.limit, (hended i).outstanding, hc.issued⟩
  | @tooLong i => exact ⟨hc.limit, (hended i).outstanding, hc.issued⟩
  | @header i op data _ hlen =>
    refine ReadsFit.readBlock ?_ _ _ (hlen.trans hc.limit)
    exact ⟨hc.limit, (hended i).outstanding, hc.issued⟩
  | @frame i op data _ _ _ hc₀ hdel hacts =>
    subst hc₀
    exact hacts.invariant (fun _ _ hact hd => hd.action (hok _ hdel) hact)
      ⟨hc.limit, (hended i).outstanding, hc.issued⟩
  | readFailed => exact ⟨hc.limit, (hended _).outstanding, hc.issued⟩
  | written _ h => exact ReadsFit.handleWrite h ⟨hc.limit, hc.outstanding, hc.issued⟩
  | lastWritten | writeFailed => exact ⟨hc.limit, hc.outstanding, hc.issued⟩

def oneSetting (ident value : ℕ) : List (Env × Event) :=
  incoming (servletService []) frameTypeSettings 0 0 (toBigEndian16 ident ++ toBigEndian32 value)

/-- The largest frame that is allowed, after a SETTINGS frame that confirms it. -/
theorem reads_fit_buffer_default : ∃ c : HttpConnectionEx, 16384 ∈ readLengths c.trace ∧
    ∀ n ∈ readLengths c.trace, n ≤ localMaxFrameSize := by
  obtain ⟨c, hrun, hc⟩ := exists_run_of_any step
    (onFrame fun c₀ => c₀.raisesFrameSize = false) start
    (greeting (servletService []) ++ oneSetting settingsMaxFrameSize 16384 ++
      [(servletService [], .read 0 [0, 0x40, 0, 0, 0, 0, 0, 0, 1])])
    (fun c => 16384 ∈ readLengths c.trace) (by decide +kernel)
  exact ⟨c, by simpa using hc, reads_fit_buffer hrun⟩

/-- The peer announces frames of 16777215 octets and then the header of such a
frame. -/
def largeFrameRun : List (Env × Event) :=
  greeting (servletService []) ++ oneSetting settingsMaxFrameSize 16777215 ++
    [(servletService [], .read 0 [0xFF, 0xFF, 0xFF, 0, 0, 0, 0, 0, 1])]

theorem largeFrameRun_overflows :
    ∃ c, RunWhere step Unrestricted start largeFrameRun c ∧
      ¬ ∀ n ∈ readLengths c.trace, n ≤ localMaxFrameSize := by
  obtain ⟨c, hrun, hc⟩ := exists_run_of_any step Unrestricted start largeFrameRun
    (fun c => 16777215 ∈ readLengths c.trace) (by decide +kernel)
  refine ⟨c, hrun, fun hfit => ?_⟩
  have := hfit _ (by simpa using hc)
  simp [localMaxFrameSize] at this

end HttpConnectionEx
end Sese.Service.Http
