import Sese.Service.Http.Transitions

/-!
# Outstanding operations

`is_read` and `is_write` are meant to say whether a read and a write are
outstanding. They do as long as nobody starts an operation without looking: the
end of `handleDataFrame` reads on although a frame that was queued on the way has
started a read, and `writeGoawayFrame` with `once` writes although the queue is
being written.
-/
namespace Sese.Service.Http

open Foundation Sese.Net.Http

namespace HttpConnectionEx

variable {env : Env} {c₀ c c' : HttpConnectionEx}

def startsAlone (c : HttpConnectionEx) : Bool :=
  !c.queuesOnTheWay && !(c.answersOnce && c.isWrite)

/-- Neither the frame nor the frame header that arrives starts an operation beside
another one. -/
def oneAtATime (c : HttpConnectionEx) (e : Env × Event) : Prop :=
  onFrame (fun c₀ => c₀.startsAlone) c e ∧
    ∀ c₁ ∈ c.headed e.2, c₁.endpointMaxFrameSize < c₁.frame.length → c₁.isWrite = false

instance (c : HttpConnectionEx) (e : Env × Event) : Decidable (oneAtATime c e) :=
  inferInstanceAs (Decidable (_ ∧ ∀ c₁ ∈ c.headed e.2, _))

structure FlagsCount (c : HttpConnectionEx) : Prop where
  reads : c.reads.length = c.isRead.toNat
  writes : c.writes.length = c.isWrite.toNat

theorem FlagsCount.readBlock (hc : c.FlagsCount) (hread : c.isRead = false) (kind : ReadKind)
    (offset length : ℕ) : (c.readBlock kind offset length).FlagsCount := by
  refine ⟨?_, hc.writes⟩
  have := hc.reads
  simp_all [HttpConnectionEx.readBlock]

theorem FlagsCount.writeBlock (hc : c.FlagsCount) (hwrite : c.isWrite = false) (f : Http2Frame) :
    (c.writeBlock f).FlagsCount := by
  refine ⟨hc.reads, ?_⟩
  have := hc.writes
  simp_all [HttpConnectionEx.writeBlock]

theorem FlagsCount.flush (hc : c.FlagsCount) (hwrite : c.isWrite = false) : c.flush.FlagsCount := by
  unfold HttpConnectionEx.flush
  split_ifs
  · exact hc
  · refine ⟨hc.reads, ?_⟩
    have := hc.writes
    simp_all [writeBlocks]

theorem FlagsCount.setHeld (hc : c.FlagsCount) (id : ℕ) (s : HttpStream) :
    (c.setHeld id s).FlagsCount := by
  unfold HttpConnectionEx.setHeld
  split_ifs <;> exact ⟨hc.reads, hc.writes⟩

theorem FlagsCount.handleWrite (h : c.handleWrite = .ok c') (hc : c.FlagsCount) : c'.FlagsCount := by
  refine handleWrite_invariant (P := FlagsCount) ?_ ?_ ?_ ?_ ?_ ?_ h hc
  · exact fun _ hd hread => hd.readBlock hread _ _ _
  · exact fun _ hd => ⟨hd.reads, hd.writes⟩
  · exact fun _ _ _ _ hd _ _ => ⟨hd.reads, hd.writes⟩
  · exact fun _ _ _ _ hd _ _ _ => ⟨hd.reads, hd.writes⟩
  · exact fun _ _ _ _ hd _ _ _ => ⟨hd.reads, hd.writes⟩
  · exact fun _ hd hwrite => hd.flush hwrite

theorem FlagsCount.pushed {f : Http2Frame} (h : (c.push f).handleWrite = .ok c')
    (hc : c.FlagsCount) : c'.FlagsCount :=
  FlagsCount.handleWrite h ⟨hc.reads, hc.writes⟩

theorem FlagsCount.action (hok : c₀.startsAlone) (h : Action env c₀ c c') (hc : c.FlagsCount) :
    c'.FlagsCount := by
  simp only [startsAlone, Bool.and_eq_true, Bool.not_eq_true'] at hok
  cases h with
  | write h => exact hc.handleWrite h
  | control | goaway | exceeded | opened | latest | touch | fragment | undecodable
  | unconvertible | completed | answered | credit | creditStream | acked | reset =>
    exact ⟨hc.reads, hc.writes⟩
  | @once code _ honce =>
    have hwrite : c₀.isWrite = false := by simpa [honce] using hok.2
    have hd : (c₀.observe (.goaway c₀.frame code)).FlagsCount := ⟨hc.reads, hc.writes⟩
    exact hd.writeBlock hwrite _
  | read h =>
    have hread : c.isRead = false := by simpa [hok.1] using h
    exact hc.readBlock hread _ _ _
  | touchHeld | body => exact hc.setHeld _ _
  | accept | respond =>
    refine FlagsCount.setHeld ?_ _ _
    exact ⟨hc.reads, hc.writes⟩
  | replenish h =>
    have hd := hc.pushed h
    exact ⟨hd.reads, hd.writes⟩
  | replenishStream h => exact (hc.pushed h).setHeld _ _
  | setting _ _ h =>
    obtain ⟨_, _, _, _, _, _, _, _, _, rfl, -⟩ := applySetting_eq h
    exact ⟨hc.reads, hc.writes⟩

theorem FlagsCount.endRead (hc : c.FlagsCount) {i : ℕ} (hi : i < c.reads.length) :
    (c.endRead i).FlagsCount := by
  refine ⟨?_, hc.writes⟩
  have hlen := List.length_eraseIdx_of_lt hi
  have hone : c.reads.length ≤ 1 := hc.reads.trans_le (Bool.toNat_le _)
  simp only [HttpConnectionEx.endRead, Bool.toNat_false]
  omega

theorem FlagsCount.endWrite (hc : c.FlagsCount) {i : ℕ} (hi : i < c.writes.length) :
    (c.endWrite i).FlagsCount := by
  refine ⟨hc.reads, ?_⟩
  have hlen := List.length_eraseIdx_of_lt hi
  have hone : c.writes.length ≤ 1 := hc.writes.trans_le (Bool.toNat_le _)
  simp only [HttpConnectionEx.endWrite, Bool.toNat_false]
  omega

theorem FlagsCount.outcome {e : Event} (hok : oneAtATime c (env, e)) (h : Outcome env c e c')
    (hc : c.FlagsCount) : c'.FlagsCount := by
  have hended : ∀ {i op}, c.reads[i]? = some op → (c.endRead i).FlagsCount := fun hop =>
    hc.endRead (List.getElem?_eq_some_iff.mp hop).1
  cases h with
  | @more i op data hop =>
    have hd : (c.received i op data).FlagsCount := ⟨(hended hop).reads, (hended hop).writes⟩
    exact hd.readBlock rfl _ _ _
  | stranger hop => exact ⟨(hended hop).reads, (hended hop).writes⟩
  | greeted hop _ h => exact FlagsCount.pushed h ⟨(hended hop).reads, (hended hop).writes⟩
  | @tooLong i op data f hop hhead _ hlong =>
    have hwrite := hok.2 _ hhead hlong
    have hd : ((c.received i op data).withHeader.observe (.goaway
        (c.received i op data).withHeader.frame goawayProtocolError)).FlagsCount :=
      ⟨(hended hop).reads, (hended hop).writes⟩
    exact hd.writeBlock hwrite f
  | @header i op data hop =>
    have hd : (c.received i op data).withHeader.FlagsCount :=
      ⟨(hended hop).reads, (hended hop).writes⟩
    exact hd.readBlock rfl _ _ _
  | frame hop hc₀ hdel hacts =>
    subst hc₀
    exact hacts.invariant (fun _ _ hact hd => hd.action (hok.1 _ hdel) hact)
      ⟨(hended hop).reads, (hended hop).writes⟩
  | readFailed hi => exact ⟨(hc.endRead hi).reads, (hc.endRead hi).writes⟩
  | written hop h => exact (hc.endWrite (List.getElem?_eq_some_iff.mp hop).1).handleWrite h
  | lastWritten hop =>
    have hd := hc.endWrite (List.getElem?_eq_some_iff.mp hop).1
    exact ⟨hd.reads, hd.writes⟩
  | writeFailed hi => exact ⟨(hc.endWrite hi).reads, (hc.endWrite hi).writes⟩

/-- In every run in which no frame starts an operation beside another one, there is
at most one read and at most one write outstanding. -/
theorem outstanding_le_one {es : List (Env × Event)}
    (hrun : RunWhere step oneAtATime start es c) : c.reads.length ≤ 1 ∧ c.writes.length ≤ 1 := by
  have hc : c.FlagsCount := by
    refine run_invariant FlagsCount ⟨rfl, rfl⟩ ?_ hrun
    exact fun _ _ _ _ hd hok h => hd.outcome hok h
  exact ⟨hc.reads.trans_le (Bool.toNat_le _), hc.writes.trans_le (Bool.toNat_le _)⟩

theorem outstanding_le_one_request : ∃ c : HttpConnectionEx,
    c.streams.contains 1 ∧ c.reads.length ≤ 1 ∧ c.writes.length ≤ 1 := by
  obtain ⟨c, hrun, hc⟩ := exists_run_of_any step oneAtATime start openRequest
    (fun c => c.streams.contains 1) (by decide +kernel)
  exact ⟨c, hc, outstanding_le_one hrun⟩

/-- Empty DATA follows: the window of the stream, zero, is replenished. -/
def replenishingRun : List (Env × Event) :=
  openRequest ++ incoming (servletService []) frameTypeData 0 1 []

theorem replenishingRun_two_reads :
    ∃ c, RunWhere step Unrestricted start replenishingRun c ∧
      ¬ (c.reads.length ≤ 1 ∧ c.writes.length ≤ 1) := by
  obtain ⟨c, hrun, hc⟩ := exists_run_of_any step Unrestricted start replenishingRun
    (fun c => c.reads.length = 2) (by decide +kernel)
  simp only [decide_eq_true_eq] at hc
  exact ⟨c, hrun, by omega⟩

end HttpConnectionEx
end Sese.Service.Http
