import Sese.Service.Http.Handlers

/-!
# Write rounds

What one turn of a stream does in the loop of `handleWrite`, and the rule by which
a property of the connection is shown to survive the whole of `handleWrite`: it is
enough that it survives the start of a read, the start of a round, one turn, and
the hand-over of the queue.
-/
namespace Sese.Service.Http

open Foundation Sese.Net.Http

namespace HttpConnectionEx

variable {c c' : HttpConnectionEx} {id : ℕ} {s s' : HttpStream} {w : Written}

/-- The stream may have sent some of its response, and is otherwise the same. -/
structure SentFrom (s s' : HttpStream) : Prop where
  doResponse : s'.doResponse = s.doResponse
  endHeaders : s'.endHeaders = s.endHeaders
  endStream : s'.endStream = s.endStream
  continueType : s'.continueType = s.continueType
  windowSize : s'.windowSize = s.windowSize
  endpointWindowSize : s'.endpointWindowSize = s.endpointWindowSize
  connType : s'.connType = s.connType
  ranges : s'.ranges = s.ranges
  request : s'.request = s.request

theorem SentFrom.refl (s : HttpStream) : SentFrom s s :=
  ⟨rfl, rfl, rfl, rfl, rfl, rfl, rfl, rfl, rfl⟩

theorem SentFrom.trans {a b d : HttpStream} (h₁ : SentFrom a b) (h₂ : SentFrom b d) :
    SentFrom a d :=
  ⟨h₂.1.trans h₁.1, h₂.2.trans h₁.2, h₂.3.trans h₁.3, h₂.4.trans h₁.4, h₂.5.trans h₁.5,
    h₂.6.trans h₁.6, h₂.7.trans h₁.7, h₂.8.trans h₁.8, h₂.9.trans h₁.9⟩

/-- A frame that is sent for the stream: HEADERS, or at most `n` octets of DATA. -/
def SentFrame (id n : ℕ) (f : Http2Frame) : Prop :=
  f.ident = id ∧ (f.type = frameTypeHeaders ∨ f.type = frameTypeData ∧ f.length ≤ n)

def TurnOf (id n : ℕ) (s : HttpStream) (w : Written) : Prop :=
  SentFrom s w.stream ∧ ∀ f ∈ w.frame, SentFrame id n f

theorem prepareRange_spec (h : s.prepareRange = .ok s') :
    SentFrom s s' ∧ s'.realLength = 0 ∧
      ((s.ranges[s.rangeIterator]?).map Range.len).getD 0 = s'.expectLength := by
  unfold HttpStream.prepareRange at h
  split at h
  · rename_i range _ hrange
    cases h
    exact ⟨⟨rfl, rfl, rfl, rfl, rfl, rfl, rfl, rfl, rfl⟩, rfl, by simp [hrange]⟩
  · cases h

theorem readFile_spec {n : ℕ} {content : Bytes} (h : readFile s n = .ok (content, s')) :
    SentFrom s s' := by
  unfold readFile at h
  split at h
  · cases h
  · cases h
    exact ⟨rfl, rfl, rfl, rfl, rfl, rfl, rfl, rfl, rfl⟩

theorem writeHeadersFrame_turn (c : HttpConnectionEx) (id n : ℕ) (s : HttpStream) (b : Bool) :
    TurnOf id n s (c.writeHeadersFrame id s b) := by
  refine ⟨⟨rfl, rfl, rfl, rfl, rfl, rfl, rfl, rfl, rfl⟩, ?_⟩
  intro f hf
  cases hf
  exact ⟨rfl, .inl rfl⟩

theorem writeDataFrame4Body_turn (c : HttpConnectionEx) (id : ℕ) (s : HttpStream) :
    TurnOf id (min (c.remind s) s.response.body.length) s (c.writeDataFrame4Body id s) := by
  unfold writeDataFrame4Body
  split_ifs
  · exact ⟨SentFrom.refl s, by simp⟩
  · refine ⟨⟨rfl, rfl, rfl, rfl, rfl, rfl, rfl, rfl, rfl⟩, ?_⟩
    intro f hf
    cases hf
    exact ⟨rfl, .inr ⟨rfl, by simp⟩⟩

theorem prepared_spec (h : prepared s = .ok s') :
    SentFrom s s' ∧ s'.expectLength - s'.realLength ≤ rangeLeft s := by
  unfold prepared at h
  unfold rangeLeft
  split_ifs at h ⊢ with hz
  · obtain ⟨hsent, hreal, hlen⟩ := prepareRange_spec h
    exact ⟨hsent, by omega⟩
  · cases h
    exact ⟨SentFrom.refl s, le_rfl⟩

theorem writeDataFrame4SingleRange_turn (h : c.writeDataFrame4SingleRange id s = .ok w) :
    TurnOf id (min (c.remind s) (rangeLeft s)) s w := by
  unfold writeDataFrame4SingleRange at h
  split_ifs at h with hzero
  · cases h
    exact ⟨SentFrom.refl s, by simp⟩
  · obtain ⟨s₁, hprep, h⟩ := bind_eq_ok.mp h
    obtain ⟨⟨content, s₂⟩, hread, h⟩ := bind_eq_ok.mp h
    cases h
    obtain ⟨hsent, hleft⟩ := prepared_spec hprep
    have hfile := readFile_spec hread
    have hfile' : SentFrom s₁ s₂ := ⟨hfile.1, hfile.2, hfile.3, hfile.4, hfile.5, hfile.6, hfile.7,
      hfile.8, hfile.9⟩
    refine ⟨hsent.trans hfile', ?_⟩
    intro f hf
    cases hf
    have hremind : c.remind s₁ = c.remind s := by simp [remind, hsent.endpointWindowSize]
    refine ⟨rfl, .inr ⟨rfl, ?_⟩⟩
    dsimp only
    rw [hremind]
    omega

theorem writeSubheaderAndData_turn {header : Bytes} {remind n : ℕ}
    (hle : header.length + min (s.expectLength - s.realLength) remind ≤ n)
    (h : writeSubheaderAndData id s header remind = .ok w) : TurnOf id n s w := by
  unfold writeSubheaderAndData at h
  obtain ⟨⟨content, s₂⟩, hread, h⟩ := bind_eq_ok.mp h
  cases h
  have hfile := readFile_spec hread
  refine ⟨⟨hfile.1, hfile.2, hfile.3, hfile.4, hfile.5, hfile.6, hfile.7, hfile.8,
    hfile.9⟩, ?_⟩
  intro f hf
  cases hf
  exact ⟨rfl, .inr ⟨rfl, hle⟩⟩

theorem writeDataFrame4Ranges_turn (h : c.writeDataFrame4Ranges id s = .ok w) :
    TurnOf id (min (c.remind s) (rangesLeft s)) s w := by
  have hidle : ∀ n, TurnOf id n s ⟨none, s, false⟩ := fun n => ⟨SentFrom.refl s, by simp⟩
  unfold writeDataFrame4Ranges at h
  by_cases hzero : c.endpointWindowSize = 0 ∨ s.endpointWindowSize = 0
  · rw [if_pos hzero] at h
    cases h
    exact hidle _
  rw [if_neg hzero] at h
  by_cases hdone : s.realLength ≥ s.expectLength
  · rw [if_pos hdone] at h
    cases hrange : s.ranges[s.rangeIterator]? with
    | some range =>
      simp only [hrange] at h
      split_ifs at h with hlong
      · cases h
        exact hidle _
      · have hleft : rangesLeft s = (subheader s range).length + range.len := by
          rw [rangesLeft, if_pos hdone, hrange]
        obtain ⟨s₁, hprep, h⟩ := bind_eq_ok.mp h
        obtain ⟨hsent, hreal, hlen⟩ := prepareRange_spec hprep
        have hl : range.len = s₁.expectLength := by simpa [hrange] using hlen
        have hle : (subheader s range).length + min (s₁.expectLength - s₁.realLength)
            (c.remind s - (subheader s range).length) ≤
            min (c.remind s) (rangesLeft s) := by
          omega
        obtain ⟨hsent', hframe⟩ := writeSubheaderAndData_turn hle h
        exact ⟨hsent.trans hsent', hframe⟩
    | none =>
      simp only [hrange] at h
      split_ifs at h with hlong
      · cases h
        exact hidle _
      · have hleft : rangesLeft s = endBoundary.length := by
          rw [rangesLeft, if_pos hdone, hrange]
        cases h
        refine ⟨SentFrom.refl s, ?_⟩
        intro f hf
        cases hf
        exact ⟨rfl, .inr ⟨rfl, by dsimp only; omega⟩⟩
  · rw [if_neg hdone] at h
    obtain ⟨⟨content, s₂⟩, hread, h⟩ := bind_eq_ok.mp h
    cases h
    have hfile := readFile_spec hread
    refine ⟨⟨hfile.1, hfile.2, hfile.3, hfile.4, hfile.5, hfile.6, hfile.7, hfile.8,
    hfile.9⟩, ?_⟩
    intro f hf
    cases hf
    exact ⟨rfl, .inr ⟨rfl, Nat.zero_le _⟩⟩

/-- The most DATA that the turn of the stream sends. -/
def demand (c : HttpConnectionEx) (s : HttpStream) : ℕ :=
  if s.doResponse && s.tempBuffer.isEmpty then min (c.remind s) (bytesLeft s) else 0

theorem writeStream_idle (hidle : s.doResponse = false) (h : c.writeStream id s = .ok w) :
    w = ⟨none, s, false⟩ := by
  simpa [writeStream, hidle] using h.symm

/-- The turn of a stream sends at most one frame. -/
theorem writeStream_turn (h : c.writeStream id s = .ok w) : TurnOf id (c.demand s) s w := by
  by_cases hidle : s.doResponse = false
  · rw [writeStream_idle hidle h]
    exact ⟨SentFrom.refl s, by simp⟩
  have hresp : s.doResponse = true := by simpa using hidle
  by_cases htemp : s.tempBuffer.isEmpty
  · have hdemand : c.demand s = min (c.remind s) (bytesLeft s) := by
      simp [demand, hresp, htemp]
    rw [hdemand]
    by_cases hfile : s.connType = .fileDownload
    · simp only [writeStream, hresp, Bool.not_true, Bool.false_eq_true, if_false, if_pos hfile,
        htemp] at h
      by_cases hone : s.ranges.length = 1
      · rw [if_pos hone] at h
        simpa [bytesLeft, hfile, hone] using writeDataFrame4SingleRange_turn h
      · rw [if_neg hone] at h
        split_ifs at h
        simpa [bytesLeft, hfile, hone] using writeDataFrame4Ranges_turn h
    · simp only [writeStream, hresp, Bool.not_true, Bool.false_eq_true, if_false, if_neg hfile,
        htemp] at h
      have hleft : bytesLeft s = s.response.body.length := by simp [bytesLeft, hfile]
      rw [hleft]
      split_ifs at h
      · cases h
        exact writeDataFrame4Body_turn c id s
      · cases h
        exact ⟨SentFrom.refl s, by simp⟩
  · have hheaders : ∃ b, w = c.writeHeadersFrame id s b := by
      simp only [writeStream, hresp, htemp, Bool.not_true, Bool.false_eq_true, if_false,
        Bool.not_false, if_true] at h
      split_ifs at h <;> cases h <;> exact ⟨_, rfl⟩
    obtain ⟨b, rfl⟩ := hheaders
    exact writeHeadersFrame_turn c id _ s b

@[simp] theorem pushSent_streams (c : HttpConnectionEx) (f : Option Http2Frame) :
    (c.pushSent f).streams = c.streams := by
  cases f <;> rfl

theorem applyWritten_isWrite (c : HttpConnectionEx) (id : ℕ) (w : Written) :
    (c.applyWritten id w).isWrite = c.isWrite := by
  unfold applyWritten
  split_ifs <;> cases w.frame <;> rfl

theorem applyWritten_find?_of_ne {j : ℕ} (h : j ≠ id) :
    (c.applyWritten id w).streams.find? j = c.streams.find? j := by
  unfold applyWritten
  split_ifs
  · exact (OrdMap.find?_erase_of_ne _ h).trans (by rw [pushSent_streams])
  · exact (OrdMap.find?_insert_of_ne _ _ h).trans (by rw [pushSent_streams])

theorem applyWritten_idle (h : c.streams.find? id = some s) :
    c.applyWritten id ⟨none, s, false⟩ = c := by
  simp [applyWritten, pushSent, setStream, OrdMap.insert_eq_self h]

section Rule

variable {P : HttpConnectionEx → Prop}

/-- The loop, over streams that are still in the map. The identifiers are distinct,
so a turn does not disturb the streams behind it. -/
theorem writeLoop_rule
    (hturn : ∀ c id s w, P c → c.isWrite = false → c.streams.find? id = some s →
      s.doResponse = true → c.writeStream id s = .ok w → P (c.applyWritten id w))
    {l : List (ℕ × HttpStream)} (hl : l.Pairwise fun a b => a.1 < b.1)
    (hmem : ∀ e ∈ l, c.streams.find? e.1 = some e.2) (hw : c.isWrite = false) (hc : P c)
    (h : writeLoop l c = .ok c') : P c' ∧ c'.isWrite = false := by
  induction l generalizing c with
  | nil =>
    cases h
    exact ⟨hc, hw⟩
  | cons e l ih =>
    obtain ⟨id, s⟩ := e
    obtain ⟨w, hwrite, h⟩ := bind_eq_ok.mp h
    obtain ⟨hfirst, hrest⟩ := List.pairwise_cons.mp hl
    have hfind : c.streams.find? id = some s := hmem _ List.mem_cons_self
    have hmem' : ∀ e ∈ l, (c.applyWritten id w).streams.find? e.1 = some e.2 := by
      intro e he
      rw [applyWritten_find?_of_ne (hfirst e he).ne']
      exact hmem e (List.mem_cons_of_mem _ he)
    have hw' : (c.applyWritten id w).isWrite = false := by rw [applyWritten_isWrite, hw]
    refine ih hrest hmem' hw' ?_ h
    by_cases hresp : s.doResponse = true
    · exact hturn c id s w hc hw hfind hresp hwrite
    · rw [writeStream_idle (by simpa using hresp) hwrite, applyWritten_idle hfind]
      exact hc

/-- The parts of `handleWrite`: a read is started unless there is one, and a round
follows unless a write is outstanding. -/
theorem handleWrite_eq_ok (h : c.handleWrite = .ok c') :
    ∃ d : HttpConnectionEx, (d = c ∨ c.isRead = false ∧ d = c.readFrameHeader) ∧
      (d.isWrite = true ∧ c' = d ∨ d.isWrite = false ∧ ∃ d',
        writeLoop d.streams.entries d.beginRound = .ok d' ∧ c' = d'.flush) := by
  unfold handleWrite at h
  refine ⟨if c.isRead then c else c.readFrameHeader, ?_, ?_⟩
  · split_ifs with hr
    · exact .inl rfl
    · exact .inr ⟨by simpa using hr, rfl⟩
  · dsimp only at h
    generalize (if c.isRead then c else c.readFrameHeader) = d at h ⊢
    split_ifs at h with hw
    · cases h
      exact .inl ⟨hw, rfl⟩
    · obtain ⟨d', hloop, h⟩ := bind_eq_ok.mp h
      cases h
      exact .inr ⟨by simpa using hw, d', hloop, rfl⟩

/-- The rule for `handleWrite`. -/
theorem handleWrite_rule
    (hread : ∀ c, P c → c.isRead = false → P c.readFrameHeader)
    (hround : ∀ c, P c → c.isWrite = false → P c.beginRound)
    (hturn : ∀ c id s w, P c → c.isWrite = false → c.streams.find? id = some s →
      s.doResponse = true → c.writeStream id s = .ok w → P (c.applyWritten id w))
    (hflush : ∀ c, P c → c.isWrite = false → P c.flush)
    (h : c.handleWrite = .ok c') (hc : P c) : P c' := by
  obtain ⟨d, hstart, hround'⟩ := handleWrite_eq_ok h
  have hd : P d := by
    rcases hstart with rfl | ⟨hr, rfl⟩
    · exact hc
    · exact hread c hc hr
  rcases hround' with ⟨-, rfl⟩ | ⟨hw, d', hloop, rfl⟩
  · exact hd
  · have hmem : ∀ e ∈ d.streams.entries,
        d.beginRound.streams.find? e.1 = some e.2 :=
      fun e he => d.streams.find?_eq_some_of_mem he
    obtain ⟨hd', hw'⟩ := writeLoop_rule hturn d.streams.sorted hmem hw (hround d hd hw) hloop
    exact hflush d' hd' hw'

/-- The rule with the turn taken apart: the frame is queued, then the stream is
changed or leaves the map. -/
theorem handleWrite_invariant
    (hread : ∀ c, P c → c.isRead = false → P c.readFrameHeader)
    (hround : ∀ c, P c → P c.beginRound)
    (hpush : ∀ c id s f, P c → c.streams.find? id = some s → SentFrame id (c.demand s) f →
      P (c.push f))
    (hset : ∀ c id s s', P c → c.streams.find? id = some s → s.doResponse = true → SentFrom s s' →
      P (c.setStream id s'))
    (hretire : ∀ c id s s', P c → c.streams.find? id = some s → s.doResponse = true →
      SentFrom s s' → P (c.retire id s'))
    (hflush : ∀ c, P c → c.isWrite = false → P c.flush)
    (h : c.handleWrite = .ok c') (hc : P c) : P c' := by
  refine handleWrite_rule hread (fun c hc _ => hround c hc) ?_ hflush h hc
  intro c id s w hc _ hfind hresp hwrite
  obtain ⟨hsent, hframe⟩ := writeStream_turn hwrite
  have hqueued : P (c.pushSent w.frame) := by
    cases hf : w.frame with
    | none => exact hc
    | some f => exact hpush c id s f hc hfind (hframe f hf)
  have hfind' : (c.pushSent w.frame).streams.find? id = some s := by rw [pushSent_streams, hfind]
  unfold applyWritten
  split_ifs
  · exact hretire _ id s _ hqueued hfind' hresp hsent
  · exact hset _ id s _ hqueued hfind' hresp hsent

end Rule

/-- What is observed while `handleWrite` runs. -/
def isWriting : Obs → Bool
  | .put _ | .readBlock _ | .round _ => true
  | _ => false

/-- The frame being handled, its payload and the receive windows are the same, and
a stream that does not respond is untouched. -/
structure Kept (c c' : HttpConnectionEx) : Prop where
  frame : c'.frame = c.frame
  tempBuffer : c'.tempBuffer = c.tempBuffer
  windowSize : c'.windowSize = c.windowSize
  trace : ∃ t, c'.trace = t ++ c.trace ∧ ∀ o ∈ t, isWriting o
  held : ∀ id s, c.held id = some s → ∃ s', c'.held id = some s' ∧ SentFrom s s'
  idle : ∀ id s, c.streams.find? id = some s → s.doResponse = false → id ∉ c.closedStreams →
    c'.streams.find? id = some s ∧ id ∉ c'.closedStreams

theorem Kept.refl (c : HttpConnectionEx) : Kept c c where
  frame := rfl
  tempBuffer := rfl
  windowSize := rfl
  trace := ⟨[], rfl, by simp⟩
  held := fun _ s h => ⟨s, h, SentFrom.refl s⟩
  idle := fun _ _ h _ hopen => ⟨h, hopen⟩

theorem held_of_find? (h : c.streams.find? id = some s) : c.held id = some s := by
  simp [held, h]

theorem held_setStream_of_ne {j : ℕ} (h : j ≠ id) : (c.setStream id s).held j = c.held j := by
  simp only [held, setStream]
  rw [OrdMap.find?_insert_of_ne _ _ h]

theorem held_setStream_self : (c.setStream id s).held id = some s :=
  held_of_find? (OrdMap.find?_insert_self _ _ _)

theorem held_retire_of_ne {j : ℕ} (h : j ≠ id) : (c.retire id s).held j = c.held j := by
  simp only [held, retire]
  rw [OrdMap.find?_erase_of_ne _ h, OrdMap.find?_insert_of_ne _ _ h]

theorem held_retire_self : (c.retire id s).held id = some s := by
  simp [held, retire]

theorem Kept.observed {d : HttpConnectionEx} (hd : Kept c d) {o : Obs} (ho : isWriting o)
    (htrace : c'.trace = o :: d.trace) (hframe : c'.frame = d.frame)
    (hbuffer : c'.tempBuffer = d.tempBuffer) (hwindow : c'.windowSize = d.windowSize)
    (hstreams : c'.streams = d.streams) (hclosed : c'.closedStreams = d.closedStreams)
    (hretired : c'.retired = d.retired) : Kept c c' where
  frame := hframe.trans hd.frame
  tempBuffer := hbuffer.trans hd.tempBuffer
  windowSize := hwindow.trans hd.windowSize
  trace := by
    obtain ⟨t, ht, hall⟩ := hd.trace
    refine ⟨o :: t, by rw [htrace, ht]; rfl, ?_⟩
    simpa [ho] using hall
  held := by
    have hsame : ∀ j, c'.held j = d.held j := by simp [HttpConnectionEx.held, hstreams, hretired]
    simpa only [hsame] using hd.held
  idle := by
    simpa only [hstreams, hclosed] using hd.idle

theorem Kept.turned {d : HttpConnectionEx} {s' : HttpStream} (hd : Kept c d)
    (hfind : d.streams.find? id = some s) (hresp : s.doResponse = true) (hsent : SentFrom s s')
    (htrace : c'.trace = d.trace) (hframe : c'.frame = d.frame)
    (hbuffer : c'.tempBuffer = d.tempBuffer) (hwindow : c'.windowSize = d.windowSize)
    (hself : c'.held id = some s') (hothers : ∀ j ≠ id, c'.held j = d.held j ∧
      c'.streams.find? j = d.streams.find? j ∧ (j ∈ c'.closedStreams ↔ j ∈ d.closedStreams)) :
    Kept c c' where
  frame := hframe.trans hd.frame
  tempBuffer := hbuffer.trans hd.tempBuffer
  windowSize := hwindow.trans hd.windowSize
  trace := by
    rw [htrace]
    exact hd.trace
  held := by
    intro j t ht
    obtain ⟨t', ht', hsent'⟩ := hd.held j t ht
    by_cases hj : j = id
    · subst hj
      rw [held_of_find? hfind] at ht'
      cases ht'
      exact ⟨s', hself, hsent'.trans hsent⟩
    · exact ⟨t', (hothers j hj).1.trans ht', hsent'⟩
  idle := by
    intro j t ht hidle hopen
    obtain ⟨ht', hopen'⟩ := hd.idle j t ht hidle hopen
    have hj : j ≠ id := by
      rintro rfl
      rw [hfind] at ht'
      cases ht'
      simp [hresp] at hidle
    obtain ⟨-, hsame, hclosed⟩ := hothers j hj
    exact ⟨hsame.trans ht', fun h => hopen' (hclosed.mp h)⟩

theorem handleWrite_kept (h : c.handleWrite = .ok c') : Kept c c' := by
  refine handleWrite_invariant (P := Kept c) ?_ ?_ ?_ ?_ ?_ ?_ h (Kept.refl c)
  · exact fun d hd _ => hd.observed rfl rfl rfl rfl rfl rfl rfl rfl
  · exact fun d hd => hd.observed rfl rfl rfl rfl rfl rfl rfl rfl
  · exact fun d _ _ _ hd _ _ => hd.observed rfl rfl rfl rfl rfl rfl rfl rfl
  · intro d id s s' hd hfind hresp hsent
    refine hd.turned hfind hresp hsent rfl rfl rfl rfl held_setStream_self fun j hj => ?_
    exact ⟨held_setStream_of_ne hj, OrdMap.find?_insert_of_ne _ _ hj, Iff.rfl⟩
  · intro d id s s' hd hfind hresp hsent
    refine hd.turned hfind hresp hsent rfl rfl rfl rfl held_retire_self fun j hj => ?_
    exact ⟨held_retire_of_ne hj, OrdMap.find?_erase_of_ne _ hj, by simp [retire, hj]⟩
  · intro d hd _
    unfold flush
    split_ifs
    · exact hd
    · exact ⟨hd.frame, hd.tempBuffer, hd.windowSize, hd.trace, hd.held, hd.idle⟩

end HttpConnectionEx
end Sese.Service.Http
